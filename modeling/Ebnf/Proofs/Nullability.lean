import Ebnf.Element.Analysis
import Ebnf.Proofs.Adequacy

/-! What can match nothing never fails, and what cannot fails at the end of the text. So whether an element is
nullable, which shows without any text, decides whether it matches everywhere. -/
namespace Ebnf

def Task.nullable : Task → Bool
  | .one e => e.nullable
  | .all parts => Element.nullableAll parts
  | .any branches => Element.nullableAny branches
  | .rounds _ => true

namespace Run
variable {task : Task} {c next : Cursor} {attempts : List Attempt} {nodes : List Node} {errors : List Mismatch}

theorem nullable_of_still (run : Run task c attempts (.matched nodes next)) (still : next.offset = c.offset) :
    task.nullable = true := by
  induction run using matched_induction with
  | @found value c next here =>
    have empty : value.utf8ByteSize = 0 := by
      have moved := (Cursor.skip?_eq_some_iff.mp here).2
      omega
    exact String.isEmpty_iff.mpr (String.utf8ByteSize_eq_zero_iff.mp empty)
  | sequence parted ih | choice chosen ih => exact ih still
  | repetition | allNil | usedUp | blocked | idle | again => rfl
  | @allCons _ _ _ _ _ _ c next stop head tail headIH tailIH =>
    have first := head.reaches.offset_le
    have later := tail.reaches.offset_le
    have headStill : next.offset = c.offset := by omega
    have tailStill : stop.offset = next.offset := by omega
    exact Bool.and_eq_true_iff.mpr ⟨headIH headStill, tailIH tailStill⟩
  | anyFirst head ih => exact Bool.or_eq_true_iff.mpr (.inl (ih still))
  | anyLater head tail ih => exact Bool.or_eq_true_iff.mpr (.inr (ih still))

theorem not_nullable_of_mismatch (run : Run task c attempts (.mismatched errors)) : task.nullable = false := by
  induction run using mismatched_induction with
  | @missing value c absent =>
    change value.isEmpty = false
    rw [Bool.eq_false_iff]
    intro empty
    rw [String.isEmpty_iff.mp empty] at absent
    exact Cursor.skip?_eq_none_iff.mp absent List.nil_prefix
  | brokenSequence parted ih | exhaustedChoice chosen ih => exact ih
  | allStop head ih => exact Bool.and_eq_false_iff.mpr (.inl ih)
  | allBroken head tail ih => exact Bool.and_eq_false_iff.mpr (.inr ih)
  | anyNil => rfl
  | anyNone head tail headIH tailIH => exact Bool.or_eq_false_iff.mpr ⟨headIH, tailIH⟩

end Run

namespace Element
variable {e : Element}

theorem isSuccess_of_nullable (nullable : e.nullable = true) (text : String) : (e.parse text).isSuccess = true := by
  cases result : e.parse text with
  | success root => rfl
  | failure failing errors =>
    obtain ⟨_, attempts, run⟩ := parse_eq_failure_iff.mp result
    have stiff : e.nullable = false := run.not_nullable_of_mismatch
    rw [nullable] at stiff
    cases stiff

theorem nullable_of_empty_success {text : String} {root : Node} (success : e.parse text = .success root)
    (empty : root.byteLength = 0) : e.nullable = true := by
  obtain ⟨attempts, next, run⟩ := parse_eq_success_iff.mp success
  apply run.nullable_of_still
  rw [run.offset_of_single, empty, Nat.add_zero]

theorem byteLength_of_parse_empty {root : Node} (success : e.parse "" = .success root) : root.byteLength = 0 := by
  obtain ⟨attempts, next, run⟩ := parse_eq_success_iff.mp success
  have moved := run.offset_of_single
  rw [run.passes.eq_of_rest rfl] at moved
  omega

theorem isSuccess_empty_iff : (e.parse "").isSuccess = true ↔ e.nullable = true := by
  constructor
  · intro success
    obtain ⟨root, parsed⟩ := Outcome.isSuccess_iff.mp success
    exact nullable_of_empty_success parsed (byteLength_of_parse_empty parsed)
  · intro nullable
    exact isSuccess_of_nullable nullable ""

/-- An element is nullable exactly if it matches the empty text, exactly if it matches every text, and exactly
if it matches some text without using any of it. It need not stay where it is on every text. -/
theorem nullable_iff_success (e : Element) :
    (e.nullable = true ↔ (e.parse "").isSuccess = true) ∧
      (e.nullable = true ↔ ∀ text, (e.parse text).isSuccess = true) ∧
      (e.nullable = true ↔ ∃ text root, e.parse text = .success root ∧ root.byteLength = 0) := by
  refine ⟨isSuccess_empty_iff.symm, ⟨isSuccess_of_nullable, ?_⟩, ⟨?_, ?_⟩⟩
  · intro all
    exact isSuccess_empty_iff.mp (all "")
  · intro nullable
    obtain ⟨root, parsed⟩ := Outcome.isSuccess_iff.mp (isSuccess_of_nullable nullable "")
    exact ⟨"", root, parsed, byteLength_of_parse_empty parsed⟩
  · rintro ⟨text, root, success, empty⟩
    exact nullable_of_empty_success success empty

example : (concatenation [repetition "a", alternation ["b", ""]]).nullable = true ∧
    ((concatenation [repetition "a", alternation ["b", ""]]).parse "aabc").root?.map Node.byteLength = some 3 := by
  decide

end Element
end Ebnf
