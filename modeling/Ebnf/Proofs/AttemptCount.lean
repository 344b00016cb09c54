import Ebnf.Proofs.TriedParts

/-! How much is tried before a match comes to an end. Every round of a repetition starts in front of text and
every round but the last uses some, so the bytes that are left bound the rounds, and the size of an element
and the nesting of its repetitions bound all that is tried. -/
namespace Ebnf

def Event.isTrying : Event → Bool
  | .trying _ _ => true
  | _ => false

namespace Attempt

def opening (a : Attempt) : Event := .trying a.element a.start.offset

theorem filter_trying_innerEvents {as : List Attempt}
    (each : ∀ a ∈ as, a.events.filter Event.isTrying = a.opened.map opening) (repeating : Bool) :
    (innerEvents repeating as).filter Event.isTrying = (openedAll as).map opening := by
  induction as with
  | nil => rfl
  | cons a as ih =>
    have tail := ih fun b member => each b (List.mem_cons_of_mem _ member)
    have quiet : (a.notes repeating).filter Event.isTrying = [] := by
      unfold notes
      split <;> rfl
    rw [innerEvents_cons, List.filter_append, List.filter_append, each a List.mem_cons_self, quiet, tail,
      openedAll, List.map_append, List.nil_append]

/-- The log announces what is opened, in the same order, and nothing else. -/
theorem filter_trying_events (a : Attempt) : a.events.filter Event.isTrying = a.opened.map opening := by
  induction a with
  | mk element start inner verdict each =>
    have quiet : [closing element verdict].filter Event.isTrying = [] := by
      cases verdict <;> rfl
    rw [events, List.filter_cons_of_pos rfl, List.filter_append, filter_trying_innerEvents each, quiet,
      List.append_nil, opened]
    rfl

end Attempt

namespace Element

mutual
/-- Enough attempts for a match with so many bytes ahead: every part of a group is tried at most once there,
what is repeated at most once for each byte. -/
def attemptLimit (bytes : Nat) : Element → Nat
  | .terminal _ => 1
  | .concatenation parts => attemptLimitAll bytes parts + 1
  | .alternation branches => attemptLimitAll bytes branches + 1
  | .repetition inner => bytes * inner.attemptLimit bytes + 1

def attemptLimitAll (bytes : Nat) : List Element → Nat
  | [] => 0
  | e :: es => e.attemptLimit bytes + attemptLimitAll bytes es
end

theorem attemptLimitAll_le {bytes : Nat} {es : List Element}
    (each : ∀ e ∈ es, e.attemptLimit bytes ≤ e.size * (bytes + 1) ^ e.repetitionDepth) :
    attemptLimitAll bytes es ≤ sizeAll es * (bytes + 1) ^ repetitionDepthAll es := by
  induction es with
  | nil => exact Nat.zero_le _
  | cons e es ih =>
    have tail := ih fun f member => each f (List.mem_cons_of_mem _ member)
    have headPower : (bytes + 1) ^ e.repetitionDepth ≤ (bytes + 1) ^ repetitionDepthAll (e :: es) :=
      Nat.pow_le_pow_right (Nat.succ_pos bytes) (Nat.le_max_left _ _)
    have tailPower : (bytes + 1) ^ repetitionDepthAll es ≤ (bytes + 1) ^ repetitionDepthAll (e :: es) :=
      Nat.pow_le_pow_right (Nat.succ_pos bytes) (Nat.le_max_right _ _)
    calc attemptLimitAll bytes (e :: es)
        ≤ e.size * (bytes + 1) ^ e.repetitionDepth + sizeAll es * (bytes + 1) ^ repetitionDepthAll es :=
          Nat.add_le_add (each e List.mem_cons_self) tail
      _ ≤ e.size * (bytes + 1) ^ repetitionDepthAll (e :: es) +
            sizeAll es * (bytes + 1) ^ repetitionDepthAll (e :: es) :=
          Nat.add_le_add (Nat.mul_le_mul_left _ headPower) (Nat.mul_le_mul_left _ tailPower)
      _ = sizeAll (e :: es) * (bytes + 1) ^ repetitionDepthAll (e :: es) := (Nat.add_mul _ _ _).symm

theorem attemptLimit_le (bytes : Nat) (e : Element) :
    e.attemptLimit bytes ≤ e.size * (bytes + 1) ^ e.repetitionDepth := by
  have positive (depth : Nat) : 1 ≤ (bytes + 1) ^ depth := Nat.one_le_pow _ _ (Nat.succ_pos bytes)
  induction e with
  | terminal value => exact Nat.le.refl
  | concatenation es each | alternation es each =>
    rw [attemptLimit, size, repetitionDepth, Nat.add_mul, Nat.one_mul]
    exact Nat.add_le_add (attemptLimitAll_le each) (positive _)
  | repetition inner ih =>
    rw [attemptLimit, size, repetitionDepth, Nat.add_mul, Nat.one_mul]
    refine Nat.add_le_add ?_ (positive _)
    calc bytes * inner.attemptLimit bytes
        ≤ (bytes + 1) * (inner.size * (bytes + 1) ^ inner.repetitionDepth) :=
          Nat.mul_le_mul (Nat.le_succ bytes) ih
      _ = inner.size * (bytes + 1) ^ (inner.repetitionDepth + 1) := by
          rw [Nat.pow_succ, Nat.mul_comm, Nat.mul_assoc]

end Element

def Task.attemptLimit (bytes rounds : Nat) : Task → Nat
  | .one e => e.attemptLimit bytes
  | .all es | .any es => Element.attemptLimitAll bytes es
  | .rounds inner => rounds * inner.attemptLimit bytes

namespace Attempt

theorem length_openedAll_cons (a : Attempt) (as : List Attempt) :
    (openedAll (a :: as)).length = (openedAll [a]).length + (openedAll as).length := by
  rw [openedAll, openedAll_singleton, List.length_append]

theorem length_openedAll_singleton (a : Attempt) :
    (openedAll [a]).length = (openedAll a.inner).length + 1 := by
  rw [openedAll_singleton, opened_eq, List.length_cons]

end Attempt

namespace Run
variable {task : Task} {inner : Element} {c stop : Cursor} {attempts : List Attempt} {nodes : List Node}
  {verdict : Verdict (List Node)}

theorem bytes_left_le {next : Cursor} (run : Run task c attempts (.matched nodes next)) :
    Text.byteLength next.rest ≤ Text.byteLength c.rest := by
  have total := run.passes.total
  have forward := run.reaches.offset_le
  omega

theorem rounds_length_le (run : Run (.rounds inner) c attempts (.matched nodes stop)) :
    attempts.length ≤ Text.byteLength c.rest := by
  induction run using rounds_induction with
  | usedUp nothing => exact Nat.zero_le _
  | blocked more round | idle more round still => exact Text.byteLength_pos more
  | again more round moved further ih =>
    have total := round.passes.total
    have forward := round.reaches.offset_le
    rw [List.length_cons]
    omega

theorem rounds_bounded {a : Attempt} (run : Run (.one (.repetition inner)) c [a] verdict) :
    (∀ b ∈ a.inner, b.element = inner) ∧ a.inner.length ≤ Text.byteLength c.rest := by
  cases run with
  | repetition looped => exact ⟨looped.tried_of_rounds, looped.rounds_length_le⟩

theorem opened_le (run : Run task c attempts verdict) {bytes : Nat} (enough : Text.byteLength c.rest ≤ bytes) :
    (Attempt.openedAll attempts).length ≤ task.attemptLimit bytes attempts.length := by
  induction run with
  | found | missing => exact Nat.le.refl
  | sequence parted ih | brokenSequence parted ih | choice chosen ih | exhaustedChoice chosen ih =>
    rw [Attempt.length_openedAll_singleton]
    exact Nat.add_le_add_right (ih enough) 1
  | repetition looped ih =>
    have rounds := Nat.le_trans looped.rounds_length_le enough
    rw [Attempt.length_openedAll_singleton]
    exact Nat.add_le_add_right (Nat.le_trans (ih enough) (Nat.mul_le_mul_right _ rounds)) 1
  -- Parts behind the first have less ahead of them, branches behind the first have as much.
  | allNil | anyNil | usedUp => exact Nat.zero_le _
  | allStop head ih | anyFirst head ih => exact Nat.le_trans (ih enough) (Nat.le_add_right _ _)
  | allCons head tail headIH tailIH | allBroken head tail headIH tailIH =>
    rw [Attempt.length_openedAll_cons]
    exact Nat.add_le_add (headIH enough) (tailIH (Nat.le_trans head.bytes_left_le enough))
  | anyLater head tail headIH tailIH | anyNone head tail headIH tailIH =>
    rw [Attempt.length_openedAll_cons]
    exact Nat.add_le_add (headIH enough) (tailIH enough)
  | blocked more round ih | idle more round still ih =>
    change _ ≤ 1 * _
    rw [Nat.one_mul]
    exact ih enough
  | again more round moved further roundIH furtherIH =>
    have later := furtherIH (Nat.le_trans round.bytes_left_le enough)
    change _ ≤ (_ + 1) * _
    rw [Attempt.length_openedAll_cons, Nat.succ_mul, Nat.add_comm]
    exact Nat.add_le_add later (roundIH enough)

end Run

namespace Element

theorem length_opened_le (e : Element) (text : String) :
    (e.attempt (.start text)).opened.length ≤ e.size * (text.utf8ByteSize + 1) ^ e.repetitionDepth := by
  have within := (e.attempt_run (.start text)).opened_le (Nat.le_of_eq (Text.byteLength_toList text))
  rw [Attempt.openedAll_singleton] at within
  exact Nat.le_trans within (attemptLimit_le _ e)

/-- Every match comes to an end by the rules alone, which set no bound on the rounds of a repetition. What the
log announces are the attempts that are made, of parts that can be named, and their number is bounded by the
size of the element and the bytes of the text. Without a repetition no part is tried twice; what a repetition
repeats is tried at most once for each byte that is left. -/
theorem attempts_bounded (e : Element) (text : String) :
    Run (.one e) (.start text) [e.attempt (.start text)] (e.attempt (.start text)).verdict.single ∧
      (e.events text).filter Event.isTrying = (e.attempt (.start text)).opened.map Attempt.opening ∧
      ((e.events text).filter Event.isTrying).length ≤ e.size * (text.utf8ByteSize + 1) ^ e.repetitionDepth ∧
      List.Forall₂ (Attempt.At e) (e.attempt (.start text)).paths (e.attempt (.start text)).opened ∧
      (e.repetitionDepth = 0 → (e.attempt (.start text)).paths.Nodup) ∧
      ∀ a ∈ (e.attempt (.start text)).opened, ∀ inner, a.element = repetition inner →
        (∀ b ∈ a.inner, b.element = inner) ∧ a.inner.length ≤ Text.byteLength a.start.rest := by
  have announced : (e.events text).filter Event.isTrying = (e.attempt (.start text)).opened.map Attempt.opening :=
    Attempt.filter_trying_events _
  refine ⟨e.attempt_run _, announced, ?_, ?_, ?_, ?_⟩
  · rw [announced, List.length_map]
    exact e.length_opened_le text
  · have follows : ∀ b ∈ (e.attempt (.start text)).opened, b.FollowsParts :=
      fun b opened => (run_of_opened opened).followsParts
    have located := Attempt.at_paths follows
    rw [e.attempt_element] at located
    exact located
  · intro flat
    apply Attempt.nodup_paths
    intro b opened
    obtain ⟨root, among, inside⟩ := (belongs_of_opened opened).part
    rw [List.mem_singleton.mp among] at inside
    exact isRepetition_of_flat (Nat.le_zero.mp (flat ▸ repetitionDepth_le_of_within inside))
  · intro a opened inner repeats
    have run := run_of_opened opened
    rw [repeats] at run
    exact run.rounds_bounded

theorem attempts_bounded_of_nested_repetition :
    (concatenation [alternation [concatenation ["a", "b"], "a"], "a"]).repetitionDepth = 0 ∧
      ((concatenation [alternation [concatenation ["a", "b"], "a"], "a"]).attempt (.start "aa")).paths.Nodup ∧
      ∃ a : Attempt, a.element = repetition (repetition "ä") ∧ a.start = ⟨['ä', 'ä', 'b'], 1⟩ ∧
        (∀ b ∈ a.inner, b.element = repetition "ä") ∧ a.inner.length ≤ 5 := by
  have flat : (concatenation [alternation [concatenation ["a", "b"], "a"], "a"]).repetitionDepth = 0 := rfl
  obtain ⟨_, _, _, _, once, _⟩ :=
    attempts_bounded (concatenation [alternation [concatenation ["a", "b"], "a"], "a"]) "aa"
  obtain ⟨_, _, _, _, _, rounds⟩ := attempts_bounded (concatenation ["a", repetition (repetition "ä")]) "aääb"
  have tried : ((concatenation ["a", repetition (repetition "ä")]).attempt (.start "aääb")).opened[2]? =
      some (attempt (repetition (repetition "ä")) ⟨['ä', 'ä', 'b'], 1⟩) := rfl
  have bounded := rounds _ (List.mem_of_getElem? tried) (repetition "ä") rfl
  exact ⟨flat, once flat, _, rfl, rfl, bounded⟩

end Element
end Ebnf
