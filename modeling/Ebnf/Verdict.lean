import Ebnf.Mismatch

/-! How a match at one cursor ends: with a value and the cursor behind the matched text, or with the
diagnostics that explain why there is none. -/
namespace Ebnf

inductive Verdict (α : Type) where
  | matched (value : α) (next : Cursor)
  | mismatched (errors : List Mismatch)
  deriving DecidableEq

namespace Verdict

def map (f : α → β) : Verdict α → Verdict β
  | .matched value next => .matched (f value) next
  | .mismatched errors => .mismatched errors

def blaming (earlier : List Mismatch) : Verdict α → Verdict α
  | .matched value next => .matched value next
  | .mismatched errors => .mismatched (earlier ++ errors)

@[simp] theorem map_matched (f : α → β) (value : α) (next : Cursor) :
    (matched value next).map f = .matched (f value) next := rfl

@[simp] theorem map_mismatched (f : α → β) (errors : List Mismatch) :
    (mismatched errors).map f = .mismatched errors := rfl

@[simp] theorem blaming_matched (earlier : List Mismatch) (value : α) (next : Cursor) :
    (matched value next).blaming earlier = .matched value next := rfl

@[simp] theorem blaming_mismatched (earlier errors : List Mismatch) :
    (mismatched errors : Verdict α).blaming earlier = .mismatched (earlier ++ errors) := rfl

end Verdict
end Ebnf
