import Ebnf.Expression
import Ebnf.Proofs.Splicing

/-! Building an element out of an expression splices groups at every level, yet the element stops where the
expression stops and blames what the expression blames, in the same order. -/
namespace Ebnf

namespace Expression
open Element

private theorem walkOn_of_more {c : Cursor} {bound : List Char} (step : Cursor → Verdict Unit)
    (more : c.rest ≠ []) (enough : c.rest.length ≤ bound.length) :
    ∃ shorter, bound.length = shorter.length + 1 ∧ walkOn step bound c =
      match step c with
      | .mismatched _ => c
      | .matched () next => if next.offset = c.offset then c else walkOn step shorter next := by
  cases bound with
  | nil => exact absurd (List.length_eq_zero_iff.mp (Nat.le_zero.mp enough)) more
  | cons _ shorter =>
    have nonempty : ¬ c.rest.isEmpty = true := by simp [more]
    exact ⟨shorter, rfl, if_neg nonempty⟩

/-- A step that agrees with an element goes through the rounds of the element, and no bound that covers the
text in hand cuts them short. -/
theorem walkOn_eq_of_rounds {step : Cursor → Verdict Unit} {inner : Element}
    (agrees : ∀ c, step c = inner.advance c) {c stop : Cursor} {attempts : List Attempt} {nodes : List Node}
    (run : Run (.rounds inner) c attempts (.matched nodes stop)) (bound : List Char)
    (enough : c.rest.length ≤ bound.length) : walkOn step bound c = stop := by
  induction run using Run.rounds_induction generalizing bound with
  | usedUp nothing =>
    cases bound with
    | nil => rfl
    | cons _ bound => rw [walkOn, if_pos (by simp [nothing])]
  | blocked more round =>
    obtain ⟨shorter, _, steps⟩ := walkOn_of_more step more enough
    rw [steps, agrees, advance_of_mismatch round]
  | idle more round still =>
    obtain ⟨shorter, _, steps⟩ := walkOn_of_more step more enough
    rw [steps, agrees, advance_of_match round]
    exact if_pos still
  | again more round moved further ih =>
    obtain ⟨shorter, size, steps⟩ := walkOn_of_more step more enough
    have less := round.passes.shorter moved
    rw [steps, agrees, advance_of_match round]
    simp only [if_neg moved]
    exact ih agrees shorter (by omega)

end Expression

theorem Element.advance_repetition (inner : Element) (c : Cursor) :
    (repetition inner).advance c = .matched () (Expression.walkOn inner.advance c.rest c) := by
  obtain ⟨attempts, nodes, stop, looped⟩ := rounds_end inner c
  rw [Expression.walkOn_eq_of_rounds (fun _ => rfl) looped c.rest Nat.le.refl]
  exact advance_of_match (.repetition looped)

namespace Expression
open Element

private theorem walkAll_eq (xs : List Expression) (each : ∀ x ∈ xs, ∀ c, x.walk c = x.build.advance c)
    (c : Cursor) : walkAll xs c = advanceAll (buildAll xs) c := by
  induction xs generalizing c with
  | nil => rfl
  | cons x xs ih =>
    have tail := ih fun y member => each y (by simp [member])
    rw [walkAll, buildAll, advanceAll_cons, each x (by simp)]
    cases x.build.advance c with
    | matched value next => exact tail next
    | mismatched errors => rfl

private theorem orElse_eq (first second : Verdict Unit) :
    first.orElse second =
      match first with
      | .matched () next => .matched () next
      | .mismatched errors =>
        match second with
        | .matched () next => .matched () next
        | .mismatched later => .mismatched (errors ++ later) := by
  cases first <;> cases second <;> rfl

private theorem walkAny_eq (xs : List Expression) (each : ∀ x ∈ xs, ∀ c, x.walk c = x.build.advance c)
    (c : Cursor) : walkAny xs c = advanceAny (buildAll xs) c := by
  induction xs with
  | nil => rfl
  | cons x xs ih =>
    have tail := ih fun y member => each y (by simp [member])
    rw [walkAny, buildAll, advanceAny_cons, each x (by simp), tail]
    exact (orElse_eq _ _).symm

theorem walk_eq_advance_build (x : Expression) (c : Cursor) : x.walk c = x.build.advance c := by
  induction x generalizing c with
  | literal value =>
    unfold advance
    rw [walk, build, attempt, literalVerdict]
    cases c.skip? value <;> rfl
  | repetition inner ih => rw [walk, build, advance_repetition, funext ih]
  | group kind first rest firstIH restIH =>
    rw [build, Group.advance_ofCons]
    cases kind with
    | sequence =>
      change _ = advanceAll (first.build :: buildAll rest) c
      rw [walk, advanceAll_cons, firstIH]
      cases first.build.advance c with
      | matched value next => exact walkAll_eq rest restIH next
      | mismatched errors => rfl
    | choice =>
      change _ = advanceAny (first.build :: buildAll rest) c
      rw [walk, advanceAny_cons, firstIH, walkAny_eq rest restIH]
      exact (orElse_eq _ _).symm

/-- A repetition is not bounded by anything but its own rules. -/
theorem walk_repetition (inner : Expression) (c : Cursor) :
    (repetition inner).walk c =
      if c.rest.isEmpty then .matched () c else
      match inner.walk c with
      | .mismatched _ => .matched () c
      | .matched () next => if next.offset = c.offset then .matched () c else (repetition inner).walk next := by
  obtain ⟨attempts, nodes, stop, looped⟩ := rounds_end inner.build c
  have walked : (repetition inner).walk c = .matched () stop := by
    rw [walk_eq_advance_build, build, advance_of_match (.repetition looped)]
  rw [walked, walk_eq_advance_build inner]
  cases looped with
  | usedUp nothing => rw [if_pos (by simp [nothing])]
  | blocked more round => rw [if_neg (by simp [more]), advance_of_mismatch round]
  | idle more round still =>
    rw [if_neg (by simp [more]), advance_of_match round]
    exact (if_pos still).symm
  | @again _ _ _ _ _ _ next _ more round moved further =>
    have later : (repetition inner).walk next = .matched () stop := by
      rw [walk_eq_advance_build, build, advance_of_match (.repetition further)]
    rw [if_neg (by simp [more]), advance_of_match round]
    exact (later.symm.trans (if_neg moved).symm)

/-- Flattening never changes what is matched: the built element succeeds exactly where the expression does,
uses the same bytes and leaves the same text, and otherwise fails with the same diagnostics in the same order. -/
theorem parse_build (x : Expression) (text : String) :
    match x.walk (.start text) with
    | .matched () stop => ∃ root, x.build.parse text = .success root ∧ root.byteLength = stop.offset ∧
        text.toList = root.text.toList ++ stop.rest
    | .mismatched errors => x.build.parse text = .failure x.build errors := by
  rw [walk_eq_advance_build]
  cases result : x.build.advance (.start text) with
  | matched value stop =>
    obtain ⟨root, success, passes⟩ := parse_of_advance_matched result
    refine ⟨root, success, ?_, passes.rest⟩
    have offset : stop.offset = 0 + Text.byteLength root.text.toList := passes.offset
    rw [offset, Text.byteLength_toList, Nat.zero_add, root.byteLength_eq_utf8ByteSize]
  | mismatched errors => exact parse_of_advance_mismatched result

end Expression
end Ebnf
