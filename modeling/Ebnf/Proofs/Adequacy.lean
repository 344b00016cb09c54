import Ebnf.Outcome
import Ebnf.Proofs.Consumption

/-! The evaluator and the judgement agree: each element has exactly one run at each cursor, and it is the
one that the evaluator records. Parsing is read off the runs at the start of a text. -/
namespace Ebnf

def Verdict.single (verdict : Verdict Node) : Verdict (List Node) := verdict.map fun node => [node]

@[simp] theorem Verdict.single_matched (node : Node) (next : Cursor) :
    (matched node next).single = .matched [node] next := rfl

@[simp] theorem Verdict.single_mismatched (errors : List Mismatch) :
    (mismatched errors : Verdict Node).single = .mismatched errors := rfl

theorem Verdict.single_eq_matched_iff {verdict : Verdict Node} {node : Node} {next : Cursor} :
    verdict.single = .matched [node] next ↔ verdict = .matched node next := by
  cases verdict <;> simp

theorem Verdict.single_eq_mismatched_iff {verdict : Verdict Node} {errors : List Mismatch} :
    verdict.single = .mismatched errors ↔ verdict = .mismatched errors := by
  cases verdict <;> simp

private theorem rounds_run (inner : Element)
    (step : ∀ c, Run (.one inner) c [inner.attempt c] (inner.attempt c).verdict.single)
    (bound : List Char) (c : Cursor) (enough : c.rest.length ≤ bound.length) :
    Run (.rounds inner) c (Rounds.run inner.attempt bound c).attempts
      (.matched (Rounds.run inner.attempt bound c).children (Rounds.run inner.attempt bound c).stop) := by
  induction bound generalizing c with
  | nil =>
    rw [Rounds.run]
    exact .usedUp (List.length_eq_zero_iff.mp (Nat.le_zero.mp enough))
  | cons _ bound ih =>
    have round := step c
    rw [Rounds.run]
    by_cases nothing : c.rest = []
    · rw [if_pos (by simp [nothing])]
      exact .usedUp nothing
    · rw [if_neg (by simp [nothing])]
      cases result : (inner.attempt c).verdict with
      | mismatched errors =>
        rw [result] at round
        simpa only [result] using Run.blocked nothing round
      | matched node next =>
        rw [result] at round
        by_cases still : next.offset = c.offset
        · simpa only [result, if_pos still] using Run.idle nothing round still
        · have shorter := round.passes.shorter still
          have further := ih next (by simp only [List.length_cons] at enough; omega)
          simpa only [result, if_neg still] using Run.again nothing round still further

private theorem all_run (es : List Element)
    (each : ∀ e ∈ es, ∀ c, Run (.one e) c [e.attempt c] (e.attempt c).verdict.single) (c : Cursor) :
    Run (.all es) c (Element.attemptAll es c).attempts (Element.attemptAll es c).verdict := by
  induction es generalizing c with
  | nil => exact .allNil
  | cons e es ih =>
    have head := each e (by simp) c
    rw [Element.attemptAll]
    cases result : (e.attempt c).verdict with
    | mismatched errors =>
      rw [result] at head
      exact .allStop head
    | matched node next =>
      rw [result] at head
      have tail := ih (fun f member => each f (by simp [member])) next
      cases later : (Element.attemptAll es next).verdict with
      | mismatched errors =>
        rw [later] at tail
        simp only [later]
        exact .allBroken head tail
      | matched nodes stop =>
        rw [later] at tail
        simp only [later]
        exact .allCons head tail

private theorem any_run (es : List Element)
    (each : ∀ e ∈ es, ∀ c, Run (.one e) c [e.attempt c] (e.attempt c).verdict.single) (c : Cursor) :
    Run (.any es) c (Element.attemptAny es c).attempts (Element.attemptAny es c).verdict.single := by
  induction es with
  | nil => exact .anyNil
  | cons e es ih =>
    have head := each e (by simp) c
    rw [Element.attemptAny]
    cases result : (e.attempt c).verdict with
    | matched node next =>
      rw [result] at head
      exact .anyFirst head
    | mismatched errors =>
      rw [result] at head
      have tail := ih fun f member => each f (by simp [member])
      cases later : (Element.attemptAny es c).verdict with
      | matched node stop =>
        rw [later] at tail
        simp only [later]
        exact .anyLater head tail
      | mismatched more =>
        rw [later] at tail
        simp only [later]
        exact .anyNone head tail

theorem Element.attempt_run (e : Element) (c : Cursor) :
    Run (.one e) c [e.attempt c] (e.attempt c).verdict.single := by
  induction e generalizing c with
  | terminal value =>
    cases here : c.skip? value with
    | none => simpa [attempt, literalVerdict, here] using Run.missing here
    | some next => simpa [attempt, literalVerdict, here] using Run.found here
  | concatenation parts each =>
    have parted := all_run parts each c
    rw [attempt]
    cases result : (attemptAll parts c).verdict with
    | matched nodes next =>
      rw [result] at parted
      exact .sequence parted
    | mismatched errors =>
      rw [result] at parted
      exact .brokenSequence parted
  | alternation branches each =>
    have chosen := any_run branches each c
    rw [attempt]
    cases result : (attemptAny branches c).verdict with
    | matched node next =>
      rw [result] at chosen
      exact .choice chosen
    | mismatched errors =>
      rw [result] at chosen
      exact .exhaustedChoice chosen
  | repetition inner ih => exact .repetition (rounds_run inner ih c.rest c Nat.le.refl)

/-- A repetition always comes to an end. -/
theorem Element.rounds_end (inner : Element) (c : Cursor) :
    ∃ attempts nodes stop, Run (.rounds inner) c attempts (.matched nodes stop) :=
  ⟨_, _, _, rounds_run inner inner.attempt_run c.rest c Nat.le.refl⟩

theorem Run.unique {task : Task} {c : Cursor} {attempts others : List Attempt}
    {verdict other : Verdict (List Node)} (run : Run task c attempts verdict)
    (second : Run task c others other) : attempts = others ∧ verdict = other := by
  induction run generalizing others other with
  | found here =>
    cases second with
    | found there =>
      cases here.symm.trans there
      exact ⟨rfl, rfl⟩
    | missing absent => cases here.symm.trans absent
  | missing absent =>
    cases second with
    | found there => cases absent.symm.trans there
    | missing => exact ⟨rfl, rfl⟩
  | sequence parted ih =>
    cases second with
    | sequence again =>
      obtain ⟨rfl, same⟩ := ih again
      cases same
      exact ⟨rfl, rfl⟩
    | brokenSequence broken => cases (ih broken).2
  | brokenSequence parted ih =>
    cases second with
    | sequence again => cases (ih again).2
    | brokenSequence broken =>
      obtain ⟨rfl, same⟩ := ih broken
      cases same
      exact ⟨rfl, rfl⟩
  | choice chosen ih =>
    cases second with
    | choice again =>
      obtain ⟨rfl, same⟩ := ih again
      cases same
      exact ⟨rfl, rfl⟩
    | exhaustedChoice exhausted => cases (ih exhausted).2
  | exhaustedChoice chosen ih =>
    cases second with
    | choice again => cases (ih again).2
    | exhaustedChoice exhausted =>
      obtain ⟨rfl, same⟩ := ih exhausted
      cases same
      exact ⟨rfl, rfl⟩
  | repetition looped ih =>
    cases second with
    | repetition again =>
      obtain ⟨rfl, same⟩ := ih again
      cases same
      exact ⟨rfl, rfl⟩
  | allNil =>
    cases second
    exact ⟨rfl, rfl⟩
  | allStop head ih =>
    cases second with
    | allStop again => exact ih again
    | allCons again _ | allBroken again _ => cases (ih again).2
  | allCons head tail headIH tailIH =>
    cases second with
    | allStop again => cases (headIH again).2
    | allCons again later =>
      obtain ⟨sameHead, same⟩ := headIH again
      cases sameHead
      cases same
      obtain ⟨rfl, same⟩ := tailIH later
      cases same
      exact ⟨rfl, rfl⟩
    | allBroken again later =>
      cases (headIH again).2
      cases (tailIH later).2
  | allBroken head tail headIH tailIH =>
    cases second with
    | allStop again => cases (headIH again).2
    | allCons again later =>
      cases (headIH again).2
      cases (tailIH later).2
    | allBroken again later =>
      obtain ⟨sameHead, same⟩ := headIH again
      cases sameHead
      cases same
      obtain ⟨rfl, same⟩ := tailIH later
      exact ⟨rfl, same⟩
  | anyNil =>
    cases second
    exact ⟨rfl, rfl⟩
  | anyFirst head ih =>
    cases second with
    | anyFirst again => exact ih again
    | anyLater again _ | anyNone again _ => cases (ih again).2
  | anyLater head tail headIH tailIH =>
    cases second with
    | anyFirst again => cases (headIH again).2
    | anyLater again later =>
      cases (headIH again).1
      obtain ⟨rfl, same⟩ := tailIH later
      exact ⟨rfl, same⟩
    | anyNone _ later => cases (tailIH later).2
  | anyNone head tail headIH tailIH =>
    cases second with
    | anyFirst again => cases (headIH again).2
    | anyLater _ later => cases (tailIH later).2
    | anyNone again later =>
      obtain ⟨sameHead, same⟩ := headIH again
      cases sameHead
      cases same
      obtain ⟨rfl, same⟩ := tailIH later
      cases same
      exact ⟨rfl, rfl⟩
  | usedUp nothing =>
    cases second with
    | usedUp => exact ⟨rfl, rfl⟩
    | blocked more _ | idle more _ _ | again more _ _ _ => exact absurd nothing more
  | blocked more round ih =>
    cases second with
    | usedUp nothing => exact absurd nothing more
    | blocked _ again =>
      cases (ih again).1
      exact ⟨rfl, rfl⟩
    | idle _ again _ | again _ again _ _ => cases (ih again).2
  | idle more round still ih =>
    cases second with
    | usedUp nothing => exact absurd nothing more
    | blocked _ again => cases (ih again).2
    | idle _ again _ =>
      cases (ih again).1
      exact ⟨rfl, rfl⟩
    | again _ again moved _ =>
      cases (ih again).2
      exact absurd still moved
  | again more round moved further roundIH furtherIH =>
    cases second with
    | usedUp nothing => exact absurd nothing more
    | blocked _ again => cases (roundIH again).2
    | idle _ again still =>
      cases (roundIH again).2
      exact absurd still moved
    | again _ again _ later =>
      obtain ⟨sameHead, same⟩ := roundIH again
      cases sameHead
      cases same
      obtain ⟨rfl, same⟩ := furtherIH later
      cases same
      exact ⟨rfl, rfl⟩

theorem Element.run_iff {e : Element} {c : Cursor} {attempts : List Attempt} {verdict : Verdict (List Node)} :
    Run (.one e) c attempts verdict ↔
      attempts = [e.attempt c] ∧ verdict = (e.attempt c).verdict.single := by
  constructor
  · intro run
    exact run.unique (e.attempt_run c)
  · rintro ⟨rfl, rfl⟩
    exact e.attempt_run c

theorem Run.single_attempt {e : Element} {c : Cursor} {attempts : List Attempt} {verdict : Verdict (List Node)}
    (run : Run (.one e) c attempts verdict) : ∃ a, attempts = [a] :=
  ⟨_, (Element.run_iff.mp run).1⟩

theorem Run.rounds_of_still {e : Element} {c : Cursor}
    (still : ∀ attempts node next, Run (.one e) c attempts (.matched [node] next) → next.offset = c.offset) :
    ∃ attempts, Run (.rounds e) c attempts (.matched [] c) := by
  by_cases nothing : c.rest = []
  · exact ⟨[], .usedUp nothing⟩
  · have round := e.attempt_run c
    cases result : (e.attempt c).verdict with
    | mismatched errors =>
      rw [result] at round
      exact ⟨_, .blocked nothing round⟩
    | matched node next =>
      rw [result] at round
      exact ⟨_, .idle nothing round (still _ node next round)⟩

theorem Run.verdict_of_match {e : Element} {c next : Cursor} {attempts : List Attempt} {node : Node}
    (run : Run (.one e) c attempts (.matched [node] next)) : (e.attempt c).verdict = .matched node next := by
  have same := (Element.run_iff.mp run).2
  exact Verdict.single_eq_matched_iff.mp same.symm

theorem Run.verdict_of_mismatch {e : Element} {c : Cursor} {attempts : List Attempt} {errors : List Mismatch}
    (run : Run (.one e) c attempts (.mismatched errors)) : (e.attempt c).verdict = .mismatched errors := by
  have same := (Element.run_iff.mp run).2
  exact Verdict.single_eq_mismatched_iff.mp same.symm

theorem Element.parse_eq_success_iff {e : Element} {text : String} {root : Node} :
    e.parse text = .success root ↔
      ∃ attempts next, Run (.one e) (.start text) attempts (.matched [root] next) := by
  simp only [run_iff, exists_and_left, exists_and_right, exists_eq, true_and, parse, Attempt.outcome]
  cases (e.attempt (.start text)).verdict with
  | matched node next => simp [eq_comm]
  | mismatched errors => simp

theorem Element.parse_eq_failure_iff {e failing : Element} {text : String} {errors : List Mismatch} :
    e.parse text = .failure failing errors ↔
      failing = e ∧ ∃ attempts, Run (.one e) (.start text) attempts (.mismatched errors) := by
  simp only [run_iff, exists_and_right, exists_eq, true_and, parse, Attempt.outcome]
  cases (e.attempt (.start text)).verdict with
  | matched node next => simp
  | mismatched errors => simp [eq_comm]

end Ebnf
