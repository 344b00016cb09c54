import Ebnf.Attempt.Basic

/-! What matching an element against a text yields. -/
namespace Ebnf

inductive Outcome where
  | success (root : Node)
  | failure (element : Element) (errors : List Mismatch)
  deriving DecidableEq

namespace Outcome

def isSuccess : Outcome → Bool
  | .success _ => true
  | .failure _ _ => false

def isFailure (o : Outcome) : Bool := !o.isSuccess

def root? : Outcome → Option Node
  | .success root => some root
  | .failure _ _ => none

def failingElement? : Outcome → Option Element
  | .success _ => none
  | .failure element _ => some element

def errors : Outcome → List Mismatch
  | .success _ => []
  | .failure _ errors => errors

def errorMessages (o : Outcome) : List String := o.errors.map Mismatch.message

def summary : Outcome → Except (List Mismatch) Nat
  | .success root => .ok root.byteLength
  | .failure _ errors => .error errors

theorem isSuccess_iff {o : Outcome} : o.isSuccess = true ↔ ∃ root, o = .success root := by
  cases o <;> simp [isSuccess]

theorem isFailure_iff {o : Outcome} : o.isFailure = true ↔ ∃ element errors, o = .failure element errors := by
  cases o <;> simp [isFailure, isSuccess]

end Outcome

def Attempt.outcome (a : Attempt) : Outcome :=
  match a.verdict with
  | .matched root _ => .success root
  | .mismatched errors => .failure a.element errors

/-- Matches the element against the start of the text. Text behind the match is left alone, so a success
does not mean that all of it was used. -/
def Element.parse (e : Element) (text : String) : Outcome := (e.attempt (.start text)).outcome

example : (Element.repetition (.terminal "ab")).parse "ababx" =
    .success (.repetition (.repetition (.terminal "ab"))
      [.terminal (.terminal "ab") "ab", .terminal (.terminal "ab") "ab"]) := by decide

example : ((Element.alternation [.terminal "ab", .terminal "b"]).parse "a").errorMessages =
    ["expected 'ab' but found 1 of 2 bytes at offset 0", "unexpected 'a', expected 'b' at offset 0"] := by
  decide

end Ebnf
