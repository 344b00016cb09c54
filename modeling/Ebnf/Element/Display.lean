import Ebnf.Element.Basic

/-! The written form of an element: `'a'` for a terminal, `a + b` for a sequence, `a | b` for a choice and
`[a]` for a repetition. Terminals are written as they are, without escapes. A choice that stands directly
in a sequence is put in parentheses, as it would otherwise take its neighbours as branches. -/
namespace Ebnf.Element

mutual
def display : Element → String
  | .terminal value => "'" ++ value ++ "'"
  | .concatenation parts => " + ".intercalate (displayParts parts)
  | .alternation branches => " | ".intercalate (displayBranches branches)
  | .repetition inner => "[" ++ inner.display ++ "]"

def displayParts : List Element → List String
  | [] => []
  | e :: es => (if e.isAlternation then "(" ++ e.display ++ ")" else e.display) :: displayParts es

def displayBranches : List Element → List String
  | [] => []
  | e :: es => e.display :: displayBranches es
end

instance : ToString Element := ⟨display⟩

theorem displayBranches_eq_map (branches : List Element) :
    displayBranches branches = branches.map display := by
  induction branches with
  | nil => rfl
  | cons e es ih => simp [displayBranches, ih]

theorem displayParts_eq_map (parts : List Element) :
    displayParts parts =
      parts.map fun e => if e.isAlternation then "(" ++ e.display ++ ")" else e.display := by
  induction parts with
  | nil => rfl
  | cons e es ih => simp [displayParts, ih]

example : (concatenation [.terminal "a", .alternation [.terminal "b", .repetition (.terminal "c")]]).display =
    "'a' + ('b' | ['c'])" := by decide

end Ebnf.Element
