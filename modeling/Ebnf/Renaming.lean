import Ebnf.Mismatch
import Ebnf.Node.Basic

/-! Replacing characters one by one, in texts, elements, trees and diagnostics. -/
namespace Ebnf

def Text.rename (f : Char → Char) (text : String) : String := String.ofList (text.toList.map f)

mutual
def Element.rename (f : Char → Char) : Element → Element
  | .terminal value => .terminal (Text.rename f value)
  | .concatenation parts => .concatenation (Element.renameAll f parts)
  | .alternation branches => .alternation (Element.renameAll f branches)
  | .repetition inner => .repetition (Element.rename f inner)

def Element.renameAll (f : Char → Char) : List Element → List Element
  | [] => []
  | e :: es => Element.rename f e :: Element.renameAll f es
end

mutual
def Node.rename (f : Char → Char) : Node → Node
  | .terminal e text => .terminal (e.rename f) (Text.rename f text)
  | .concatenation e children => .concatenation (e.rename f) (Node.renameAll f children)
  | .alternation e child => .alternation (e.rename f) (Node.rename f child)
  | .repetition e children => .repetition (e.rename f) (Node.renameAll f children)

def Node.renameAll (f : Char → Char) : List Node → List Node
  | [] => []
  | n :: ns => Node.rename f n :: Node.renameAll f ns
end

/-- Cuts the text behind the first bytes; if they end inside a character, before that character. -/
def Text.cut : Nat → List Char → List Char × List Char
  | _, [] => ([], [])
  | bytes, c :: text =>
    if c.utf8Size ≤ bytes then
      let (before, left) := Text.cut (bytes - c.utf8Size) text
      (c :: before, left)
    else ([], c :: text)

def Mismatch.Kind.rename (f : Char → Char) (left : List Char) : Mismatch.Kind → Mismatch.Kind
  | .starving expected _ _ =>
    .starving (Text.rename f expected) (Text.byteLength (left.map f)) (Text.rename f expected).utf8ByteSize
  | .unexpected found expected => .unexpected (Text.rename f found) (Text.rename f expected)

/-- The diagnostic of a text as a diagnostic of the renamed text: characters may change their width, so its offset
becomes the number of bytes that the text up to there has when it is renamed. -/
def Mismatch.rename (f : Char → Char) (text : List Char) (m : Mismatch) : Mismatch :=
  let (before, left) := Text.cut m.offset text
  ⟨Text.byteLength (before.map f), m.kind.rename f left⟩

theorem Text.toList_rename (f : Char → Char) (text : String) : (rename f text).toList = text.toList.map f :=
  String.toList_ofList

theorem Text.cut_append (before left : List Char) : cut (byteLength before) (before ++ left) = (before, left) := by
  induction before with
  | nil =>
    cases left with
    | nil => rfl
    | cons c left => exact if_neg (Nat.not_le_of_lt c.utf8Size_pos)
  | cons c before ih =>
    rw [List.cons_append, cut, byteLength_cons, if_pos (Nat.le_add_right _ _), Nat.add_sub_cancel_left, ih]

theorem Element.renameAll_eq_map (f : Char → Char) (es : List Element) :
    Element.renameAll f es = es.map (Element.rename f) := by
  induction es with
  | nil => rfl
  | cons e es ih => simp [Element.renameAll, ih]

end Ebnf
