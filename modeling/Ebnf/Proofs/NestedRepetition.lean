import Mathlib.Logic.Function.Iterate
import Ebnf.Proofs.Greedy
import Ebnf.Proofs.Interchange

/-! Repeating what is repeated already, or what is optional, changes nothing: all that there is to take is taken
in the first round, or in the same rounds as before, and what stays where it is ends a repetition as a mismatch
or the end of the text does. -/
namespace Ebnf
open Element

namespace Run
variable {e : Element} {c stop : Cursor} {attempts : List Attempt} {nodes : List Node}

theorem stops_again (run : Run (.rounds e) c attempts (.matched nodes stop)) :
    ∃ others, Run (.rounds e) stop others (.matched [] stop) := by
  apply rounds_of_still
  intro others node next last
  exact congrArg Cursor.offset (run.still_at_stop last)

/-- A repetition of a repetition takes the whole of it in one round, if there is anything to take. -/
theorem rounds_of_repetition (run : Run (.rounds e) c attempts (.matched nodes stop)) :
    ∃ others, Run (.rounds (.repetition e)) c others
      (.matched (if (Node.repetition (.repetition e) nodes).byteLength = 0 then []
        else [.repetition (.repetition e) nodes]) stop) := by
  have once := Run.repetition run
  obtain ⟨more, stopped⟩ := run.stops_again
  obtain ⟨others, further⟩ : ∃ others, Run (.rounds (.repetition e)) stop others (.matched [] stop) := by
    apply rounds_of_still
    intro others node next last
    cases (last.unique (.repetition stopped)).2
    rfl
  have offset := once.offset_of_single
  by_cases empty : (Node.repetition (.repetition e) nodes).byteLength = 0
  · have same : stop = c := once.passes.eq_of_offset (by omega)
    rw [if_pos empty]
    rw [same] at further ⊢
    exact ⟨others, further⟩
  · rw [if_neg empty]
    have moved : stop.offset ≠ c.offset := by omega
    have left : c.rest ≠ [] := fun nothing => moved (congrArg Cursor.offset (once.passes.eq_of_rest nothing))
    exact ⟨_, .again left once moved further⟩

end Run

namespace Element

/-- The elements agree wherever one of them moves on; where neither does, one may fail and the other stay. -/
def MovesAlike (x y : Element) : Prop :=
  ∀ c next : Cursor, next.offset ≠ c.offset → (x.advance c = .matched () next ↔ y.advance c = .matched () next)

theorem movesAlike_optional (e : Element) : e.MovesAlike (Group.choice.pair e "") := by
  intro c next moved
  have nothing : (terminal "").advance c = .matched () c :=
    advance_of_match (.found (Cursor.skip?_eq_some_iff.mpr ⟨rfl, rfl⟩))
  rw [Group.advance_choice_pair, nothing]
  cases e.advance c with
  | matched value stop => exact Iff.rfl
  | mismatched errors =>
    refine iff_of_false nofun ?_
    intro stays
    cases stays
    exact moved rfl

end Element

theorem Element.MovesAlike.stops {x y : Element} (alike : x.MovesAlike y) {c stop : Cursor}
    {attempts : List Attempt} {nodes : List Node} (run : Run (.rounds x) c attempts (.matched nodes stop)) :
    ∃ others, Run (.rounds y) stop others (.matched [] stop) := by
  apply Run.rounds_of_still
  intro others node next round
  by_contra moved
  have reached := (alike stop next moved).mpr (advance_of_match round)
  obtain ⟨_, _, last⟩ := advance_eq_matched_iff.mp reached
  exact moved (congrArg Cursor.offset (run.still_at_stop last))

theorem Run.rounds_of_movesAlike {x y : Element} (alike : x.MovesAlike y) {c stop : Cursor}
    {attempts : List Attempt} {nodes : List Node} (run : Run (.rounds x) c attempts (.matched nodes stop)) :
    ∃ others further, Run (.rounds y) c others (.matched further stop) ∧ further.length = nodes.length := by
  induction run using rounds_induction with
  | usedUp nothing =>
    obtain ⟨others, stopped⟩ := alike.stops (.usedUp nothing)
    exact ⟨others, [], stopped, rfl⟩
  | blocked more round =>
    obtain ⟨others, stopped⟩ := alike.stops (.blocked more round)
    exact ⟨others, [], stopped, rfl⟩
  | idle more round still =>
    obtain ⟨others, stopped⟩ := alike.stops (.idle more round still)
    exact ⟨others, [], stopped, rfl⟩
  | @again x first later node nodes c next stop more round moved further ih =>
    obtain ⟨others, repeated, rest, count⟩ := ih alike
    have reached := (alike c next moved).mp (advance_of_match round)
    obtain ⟨attempts, other, alsoRound⟩ := advance_eq_matched_iff.mp reached
    obtain ⟨attempt, rfl⟩ := alsoRound.single_attempt
    exact ⟨attempt :: others, other :: repeated, .again more alsoRound moved rest, congrArg Nat.succ count⟩

namespace Element

theorem advance_repetition_repetition (e : Element) :
    (repetition (repetition e)).advance = (repetition e).advance := by
  funext c
  obtain ⟨attempts, nodes, stop, looped⟩ := rounds_end e c
  obtain ⟨others, nested⟩ := looped.rounds_of_repetition
  rw [advance_of_match (.repetition looped), advance_of_match (.repetition nested)]

theorem advance_repetition_of_movesAlike {x y : Element} (alike : x.MovesAlike y) :
    (repetition y).advance = (repetition x).advance := by
  funext c
  obtain ⟨attempts, nodes, stop, looped⟩ := rounds_end x c
  obtain ⟨others, further, run, _⟩ := looped.rounds_of_movesAlike alike
  rw [advance_of_match (.repetition looped), advance_of_match (.repetition run)]

theorem advance_iterate_repetition (e : Element) (n : Nat) :
    (repetition^[n + 1] e).advance = (repetition e).advance := by
  induction n with
  | zero => rfl
  | succ n ih =>
    rw [Function.iterate_succ_apply', advance_repetition_congr ih]
    exact advance_repetition_repetition e

/-- A repetition repeated any number of times, and the repetition of what is made optional, use what the
repetition uses. Repeated once more, its tree becomes the only child, if it has any text; of what is made
optional there are as many rounds. -/
theorem repetition_absorbs (e : Element) :
    (∀ n, (repetition^[n + 1] e).MatchAlike (repetition e)) ∧
      (repetition (Group.choice.pair e "")).MatchAlike (repetition e) ∧
      ∀ text, ∃ once, (repetition e).parse text = .success once ∧
        (repetition (repetition e)).parse text =
          .success (.repetition (repetition (repetition e)) (if once.byteLength = 0 then [] else [once])) ∧
        ∃ optional, (repetition (Group.choice.pair e "")).parse text = .success optional ∧
          optional.children.length = once.children.length := by
  refine ⟨?_, ?_, ?_⟩
  · intro n
    exact matchAlike_iff.mpr (advance_iterate_repetition e n)
  · exact matchAlike_iff.mpr (advance_repetition_of_movesAlike (movesAlike_optional e))
  · intro text
    obtain ⟨attempts, nodes, stop, looped⟩ := rounds_end e (.start text)
    obtain ⟨others, nested⟩ := looped.rounds_of_repetition
    obtain ⟨more, further, optional, count⟩ := looped.rounds_of_movesAlike (movesAlike_optional e)
    exact ⟨_, parse_eq_success_iff.mpr ⟨_, _, .repetition looped⟩,
      parse_eq_success_iff.mpr ⟨_, _, .repetition nested⟩,
      _, parse_eq_success_iff.mpr ⟨_, _, .repetition optional⟩, count⟩

example : (repetition (Group.choice.pair (alternation ["a", "b"]) "")).parse "ab!" =
    .success (.repetition (repetition (alternation ["a", "b", ""]))
      [.alternation (alternation ["a", "b", ""]) (.terminal "a" "a"),
        .alternation (alternation ["a", "b", ""]) (.terminal "b" "b")]) := by decide

end Element
end Ebnf
