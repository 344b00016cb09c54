import Ebnf.Node.Basic

/-! Where the parts of a tree lie in the text that it matched, counted in bytes. -/
namespace Ebnf.Node

mutual
def placed (offset : Nat) : Node → List (Nat × Node)
  | .terminal e text => [(offset, .terminal e text)]
  | .concatenation e children => (offset, .concatenation e children) :: placedAll offset children
  | .alternation e child => (offset, .alternation e child) :: child.placed offset
  | .repetition e children => (offset, .repetition e children) :: placedAll offset children

def placedAll (offset : Nat) : List Node → List (Nat × Node)
  | [] => []
  | n :: ns => n.placed offset ++ placedAll (offset + n.byteLength) ns
end

theorem placed_eq (offset : Nat) (n : Node) :
    n.placed offset = (offset, n) :: placedAll offset n.children := by
  cases n <;> simp [placed, placedAll, children]

theorem placedAll_singleton (offset : Nat) (n : Node) : placedAll offset [n] = n.placed offset := by
  simp [placedAll]

def terminalText? : Node → Option String
  | .terminal _ text => some text
  | _ => none

example : ((Node.concatenation (.concatenation ["ä", "b"]) [.terminal "ä" "ä", .terminal "b" "b"]).placed 1).map
    (fun place => (place.1, place.2.text)) = [(1, "äb"), (1, "ä"), (3, "b")] := by decide

end Ebnf.Node
