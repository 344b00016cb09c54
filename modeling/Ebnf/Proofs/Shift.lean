import Ebnf.Proofs.Adequacy

/-! Matching does not depend on where its text starts: a run at one offset is a run at every other, with all
offsets moved alike. So a match anywhere in a text is a match of the part of the text that starts there. -/
namespace Ebnf

def Cursor.shift (bytes : Nat) (c : Cursor) : Cursor := ⟨c.rest, c.offset + bytes⟩

def Mismatch.shift (bytes : Nat) (m : Mismatch) : Mismatch := ⟨m.offset + bytes, m.kind⟩

def Verdict.shift (bytes : Nat) : Verdict α → Verdict α
  | .matched value next => .matched value (next.shift bytes)
  | .mismatched errors => .mismatched (errors.map (·.shift bytes))

mutual
def Attempt.shift (bytes : Nat) : Attempt → Attempt
  | ⟨element, start, inner, verdict⟩ =>
    ⟨element, start.shift bytes, Attempt.shiftAll bytes inner, verdict.shift bytes⟩

def Attempt.shiftAll (bytes : Nat) : List Attempt → List Attempt
  | [] => []
  | a :: as => a.shift bytes :: Attempt.shiftAll bytes as
end

theorem Cursor.skip?_shift (value : String) (c : Cursor) (bytes : Nat) :
    (c.shift bytes).skip? value = (c.skip? value).map (·.shift bytes) := by
  unfold skip? shift
  rw [Option.map_map]
  congr 1
  funext rest
  exact congrArg (Cursor.mk rest) (Nat.add_right_comm _ _ _)

theorem Cursor.shift_offset_eq_iff {c next : Cursor} (bytes : Nat) :
    (next.shift bytes).offset = (c.shift bytes).offset ↔ next.offset = c.offset := by
  change next.offset + bytes = c.offset + bytes ↔ _
  omega

/-- A run stays a run when its text starts later. -/
theorem Run.shift {task : Task} {c : Cursor} {attempts : List Attempt} {verdict : Verdict (List Node)}
    (run : Run task c attempts verdict) (bytes : Nat) :
    Run task (c.shift bytes) (Attempt.shiftAll bytes attempts) (verdict.shift bytes) := by
  induction run with
  | found here => exact .found (by rw [Cursor.skip?_shift, here]; rfl)
  | missing absent => exact .missing (by rw [Cursor.skip?_shift, absent]; rfl)
  | sequence _ ih => exact .sequence ih
  | brokenSequence _ ih => exact .brokenSequence ih
  | choice _ ih => exact .choice ih
  | exhaustedChoice _ ih => exact .exhaustedChoice ih
  | repetition _ ih => exact .repetition ih
  | allNil => exact .allNil
  | allStop _ ih => exact .allStop ih
  | allCons _ _ headIH tailIH => exact .allCons headIH tailIH
  | allBroken _ _ headIH tailIH => exact .allBroken headIH tailIH
  | anyNil => exact .anyNil
  | anyFirst _ ih => exact .anyFirst ih
  | anyLater _ _ headIH tailIH => exact .anyLater headIH tailIH
  | anyNone _ _ headIH tailIH =>
    have both := Run.anyNone headIH tailIH
    rw [← List.map_append] at both
    exact both
  | usedUp nothing => exact .usedUp nothing
  | blocked more _ ih => exact .blocked more ih
  | idle more _ still ih => exact .idle more ih ((Cursor.shift_offset_eq_iff bytes).mpr still)
  | again more _ moved _ roundIH furtherIH =>
    have apart := fun still => moved ((Cursor.shift_offset_eq_iff bytes).mp still)
    exact .again more roundIH apart furtherIH

theorem Cursor.start_shift (c : Cursor) : (start (String.ofList c.rest)).shift c.offset = c := by
  unfold start shift
  rw [String.toList_ofList, Nat.zero_add]

theorem Element.attempt_eq_shift (e : Element) (c : Cursor) :
    e.attempt c = (e.attempt (.start (String.ofList c.rest))).shift c.offset := by
  have moved := (e.attempt_run (.start (String.ofList c.rest))).shift c.offset
  rw [Cursor.start_shift] at moved
  exact List.singleton_inj.mp ((e.attempt_run c).unique moved).1

theorem Run.of_rest {e : Element} {c : Cursor} {attempts : List Attempt} {verdict : Verdict (List Node)}
    (run : Run (.one e) c attempts verdict) :
    ∃ own other, Run (.one e) (.start (String.ofList c.rest)) own other ∧ verdict = other.shift c.offset := by
  have alone := e.attempt_run (.start (String.ofList c.rest))
  have moved := alone.shift c.offset
  rw [Cursor.start_shift] at moved
  exact ⟨_, _, alone, (run.unique moved).2⟩

theorem Run.parse_eq_success {e : Element} {c next : Cursor} {attempts : List Attempt} {node : Node}
    (run : Run (.one e) c attempts (.matched [node] next)) :
    e.parse (String.ofList c.rest) = .success node := by
  obtain ⟨own, other, alone, same⟩ := run.of_rest
  cases other with
  | matched nodes stop =>
    cases same
    exact Element.parse_eq_success_iff.mpr ⟨own, stop, alone⟩
  | mismatched errors => cases same

theorem Run.parse_eq_failure {e : Element} {c : Cursor} {attempts : List Attempt} {errors : List Mismatch}
    (run : Run (.one e) c attempts (.mismatched errors)) :
    ∃ alone, e.parse (String.ofList c.rest) = .failure e alone ∧ errors = alone.map (·.shift c.offset) := by
  obtain ⟨own, other, alone, same⟩ := run.of_rest
  cases other with
  | matched nodes stop => cases same
  | mismatched unmoved =>
    cases same
    exact ⟨unmoved, Element.parse_eq_failure_iff.mpr ⟨rfl, own, alone⟩, rfl⟩

def Element.parseAt? (e : Element) (text : String) (offset : Nat) : Option Outcome :=
  (Text.suffixAt? offset text.toList).map fun rest => e.parse (String.ofList rest)

theorem Run.parseAt?_eq_success {e : Element} {text : String} {c next : Cursor} {attempts : List Attempt}
    {node : Node} (reached : (Cursor.start text).Reaches c)
    (run : Run (.one e) c attempts (.matched [node] next)) :
    e.parseAt? text c.offset = some (.success node) := by
  unfold Element.parseAt?
  rw [reached.suffixAt, Option.map_some, run.parse_eq_success]

theorem Run.parseAt?_eq_failure {e : Element} {text : String} {c : Cursor} {attempts : List Attempt}
    {errors : List Mismatch} (reached : (Cursor.start text).Reaches c)
    (run : Run (.one e) c attempts (.mismatched errors)) :
    ∃ alone, e.parseAt? text c.offset = some (.failure e alone) := by
  obtain ⟨alone, failed, _⟩ := run.parse_eq_failure
  refine ⟨alone, ?_⟩
  unfold Element.parseAt?
  rw [reached.suffixAt, Option.map_some, failed]

end Ebnf
