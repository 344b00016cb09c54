import Ebnf.Parser
import Ebnf.Proofs.Construction
import Ebnf.Proofs.Search

/-! Every bracket in the log of a match follows the rule of its element. -/
namespace Ebnf

def Verdict.totalEnding : Verdict (List Node) → Ending
  | .matched nodes _ => .matched (Node.byteLengthAll nodes)
  | .mismatched errors => .unmatched errors.length

theorem Cursor.Passes.total {c next : Cursor} {text : List Char} (passes : c.Passes text next) :
    next.offset + Text.byteLength next.rest = c.offset + Text.byteLength c.rest := by
  rw [passes.offset, passes.rest, Text.byteLength_append, Nat.add_assoc]

theorem Verdict.totalEnding_single (verdict : Verdict Node) : verdict.single.totalEnding = verdict.ending := by
  cases verdict <;> rfl

theorem Attempt.innerEvents_false (as : List Attempt) :
    innerEvents false as = (as.map bracket).flatMap Bracket.events := by
  induction as with
  | nil => rfl
  | cons a as ih =>
    rw [innerEvents_cons, List.map_cons, List.flatMap_cons, bracket_events, ih]
    rfl

namespace Run
variable {e : Element} {c : Cursor} {a : Attempt} {attempts : List Attempt} {verdict : Verdict (List Node)}

theorem bracket_of_one (run : Run (.one e) c [a] verdict) :
    a.bracket.element = e ∧ a.bracket.offset = c.offset ∧ a.bracket.ending = verdict.totalEnding := by
  obtain ⟨same, rfl⟩ := Element.run_iff.mp run
  cases same
  refine ⟨e.attempt_element c, congrArg Cursor.offset (e.attempt_start c), ?_⟩
  exact (Verdict.totalEnding_single _).symm

theorem inSequence {parts : List Element} (run : Run (.all parts) c attempts verdict) :
    Bracket.InSequence parts c.offset verdict.totalEnding (attempts.map Attempt.bracket) := by
  induction parts generalizing c attempts verdict with
  | nil =>
    cases run
    exact .nil c.offset
  | cons e es ih =>
    cases run with
    | allStop head =>
      obtain ⟨tried, place, unmatched⟩ := head.bracket_of_one
      exact .stop tried place unmatched
    | allCons head tail =>
      obtain ⟨tried, place, matched⟩ := head.bracket_of_one
      have later := ih tail
      rw [head.offset_of_single] at later
      exact .matched tried place matched later
    | allBroken head tail =>
      obtain ⟨tried, place, matched⟩ := head.bracket_of_one
      have later := ih tail
      rw [head.offset_of_single] at later
      exact .broken tried place matched later

theorem inChoice {branches : List Element} (run : Run (.any branches) c attempts verdict) :
    Bracket.InChoice branches c.offset verdict.totalEnding (attempts.map Attempt.bracket) := by
  induction branches generalizing attempts verdict with
  | nil =>
    cases run
    exact .nil c.offset
  | cons e es ih =>
    cases run with
    | anyFirst head =>
      obtain ⟨tried, place, matched⟩ := head.bracket_of_one
      exact .first tried place matched
    | anyLater head tail =>
      obtain ⟨tried, place, unmatched⟩ := head.bracket_of_one
      exact .later tried place unmatched (ih tail)
    | anyNone head tail =>
      obtain ⟨tried, place, unmatched⟩ := head.bracket_of_one
      have all := Bracket.InChoice.none tried place unmatched (ih tail)
      rw [← List.length_append] at all
      exact all

theorem notes_of_mismatch {errors : List Mismatch} (run : Run (.one e) c [a] (.mismatched errors)) :
    a.notes true = [] := by
  have verdict := run.verdict_of_mismatch
  obtain ⟨same, _⟩ := Element.run_iff.mp run
  cases same
  simp [Attempt.notes, Attempt.isIdle, verdict]

theorem notes_of_match {node : Node} {next : Cursor} (run : Run (.one e) c [a] (.matched [node] next)) :
    a.notes true = if next.offset = c.offset then [.stalled e c.offset] else [] := by
  have verdict := run.verdict_of_match
  obtain ⟨same, _⟩ := Element.run_iff.mp run
  cases same
  simp [Attempt.notes, Attempt.isIdle, verdict]

theorem inRepetition {inner : Element} {stop : Cursor} {nodes : List Node} {size : Nat}
    (run : Run (.rounds inner) c attempts (.matched nodes stop))
    (whole : c.offset + Text.byteLength c.rest = size) :
    ∃ noted, (∀ event ∈ noted, event.isNote = true) ∧
      Attempt.innerEvents true attempts = (attempts.map Attempt.bracket).flatMap Bracket.events ++ noted ∧
      Bracket.InRepetition size inner c.offset (.matched (Node.byteLengthAll nodes))
        (attempts.map Attempt.bracket) noted := by
  have below {c : Cursor} (more : c.rest ≠ []) (whole : c.offset + Text.byteLength c.rest = size) :
      c.offset < size := by
    have := mt Text.byteLength_eq_zero_iff.mp more
    omega
  -- That offset and bytes left add up to the size of the text carries over from round to round.
  induction run using rounds_induction with
  | usedUp nothing =>
    rw [nothing, Text.byteLength_nil, Nat.add_zero] at whole
    exact ⟨[], nofun, rfl, .usedUp whole⟩
  | @blocked inner last errors c more round =>
    obtain ⟨tried, place, unmatched⟩ := round.bracket_of_one
    refine ⟨[], nofun, ?_, .stop tried place (below more whole) (.blocked ⟨_, unmatched⟩)⟩
    rw [Attempt.innerEvents_cons, round.notes_of_mismatch, ← Attempt.bracket_events]
    simp [Attempt.innerEvents]
  | @idle inner last node c next more round still =>
    obtain ⟨tried, place, matched⟩ := round.bracket_of_one
    have offset := round.offset_of_single
    have nothing : last.bracket.ending = .matched 0 := by
      rw [matched]
      exact congrArg Ending.matched (show node.byteLength = 0 by omega)
    refine ⟨[.stalled inner c.offset], ?_, ?_, .stop tried place (below more whole) (.idle nothing)⟩
    · simp [Event.isNote]
    · rw [Attempt.innerEvents_cons, round.notes_of_match, if_pos still, ← Attempt.bracket_events]
      simp [Attempt.innerEvents]
  | @again inner first later node nodes c next stop more round moved further ih =>
    obtain ⟨tried, place, matched⟩ := round.bracket_of_one
    have offset := round.offset_of_single
    obtain ⟨noted, quiet, events, rounds⟩ := ih (round.passes.total.trans whole)
    rw [offset] at rounds
    refine ⟨noted, quiet, ?_, .again tried place (below more whole) (by omega) matched rounds⟩
    rw [Attempt.innerEvents_cons, round.notes_of_match, if_neg moved, List.nil_append, events,
      ← Attempt.bracket_events, List.map_cons, List.flatMap_cons, List.append_assoc]

end Run

namespace Bracket

theorem InSequence.ne_nil {parts : List Element} {offset : Nat} {ending : Ending} {directs : List Bracket}
    (rule : InSequence parts offset ending directs) (present : parts ≠ []) : directs ≠ [] := by
  rintro rfl
  obtain ⟨_, _, outcome⟩ := rule
  cases ending with
  | matched bytes => exact present outcome.1.symm
  | unmatched errors =>
    obtain ⟨before, last, split, _⟩ := outcome
    simp at split

theorem InChoice.ne_nil {branches : List Element} {offset : Nat} {ending : Ending} {directs : List Bracket}
    (rule : InChoice branches offset ending directs) (present : branches ≠ []) : directs ≠ [] := by
  rintro rfl
  obtain ⟨_, _, outcome⟩ := rule
  cases ending with
  | matched bytes =>
    obtain ⟨before, last, split, _⟩ := outcome
    simp at split
  | unmatched errors => exact present outcome.1.symm

theorem contains_quiet {a : Attempt} (plain : a.element.isRepetition = false) :
    a.bracket.Contains (a.inner.map Attempt.bracket) [] := by
  refine ⟨?_, nofun⟩
  rw [List.append_nil, ← Attempt.innerEvents_false, ← plain]
  rfl

end Bracket

theorem Group.parts_ne_nil_of_buildable (group : Group) {parts : List Element}
    (built : Element.Buildable (group.ofParts parts)) : parts ≠ [] :=
  (Element.wellFormed_ofParts_iff.mp built.wellFormed).1

/-- The bracket that a single run leaves follows the rule of its element. -/
theorem Run.follows {e : Element} {c : Cursor} {a : Attempt} {verdict : Verdict (List Node)} {size : Nat}
    (run : Run (.one e) c [a] verdict) (whole : c.offset + Text.byteLength c.rest = size)
    (built : e.Buildable) :
    ∃ directs noted, a.bracket.Contains directs noted ∧ a.bracket.Follows size directs noted := by
  cases run with
  | found here => exact ⟨[], [], Bracket.contains_quiet rfl, rfl, rfl, .inl rfl⟩
  | missing absent => exact ⟨[], [], Bracket.contains_quiet rfl, rfl, rfl, .inr rfl⟩
  | sequence parted =>
    have present := Group.sequence.parts_ne_nil_of_buildable built
    exact ⟨_, [], Bracket.contains_quiet rfl, parted.inSequence.ne_nil present, rfl, parted.inSequence⟩
  | brokenSequence parted =>
    have present := Group.sequence.parts_ne_nil_of_buildable built
    exact ⟨_, [], Bracket.contains_quiet rfl, parted.inSequence.ne_nil present, rfl, parted.inSequence⟩
  | choice chosen =>
    have present := Group.choice.parts_ne_nil_of_buildable built
    exact ⟨_, [], Bracket.contains_quiet rfl, chosen.inChoice.ne_nil present, rfl, chosen.inChoice⟩
  | exhaustedChoice chosen =>
    have present := Group.choice.parts_ne_nil_of_buildable built
    exact ⟨_, [], Bracket.contains_quiet rfl, chosen.inChoice.ne_nil present, rfl, chosen.inChoice⟩
  | repetition looped =>
    obtain ⟨noted, quiet, events, rule⟩ := looped.inRepetition whole
    exact ⟨_, noted, ⟨events, quiet⟩, rule⟩

/-- The log of a match is an exact, well-bracketed record of the search. It is one bracket of the element at
the start of the text, every opening event in it opens a bracket, and what stands directly in any bracket is
definite and follows from the element of that bracket. -/
theorem Element.events_record_search (e : Element) (built : Buildable e) (text : String) :
    (∃ whole : Bracket, whole.events = e.events text ∧ whole.element = e ∧ whole.offset = 0) ∧
    (∀ before x offset later, e.events text = before ++ .trying x offset :: later →
      ∃ b : Bracket, b.element = x ∧ b.offset = offset ∧
        ∃ after, .trying x offset :: later = b.events ++ after) ∧
    ∀ before (b : Bracket) after, e.events text = before ++ (b.events ++ after) →
      ∃ directs noted, b.Contains directs noted ∧ b.Follows text.utf8ByteSize directs noted ∧
        ∀ others notes, b.Contains others notes → directs = others ∧ noted = notes := by
  refine ⟨?_, ?_, ?_⟩
  · refine ⟨(e.attempt (.start text)).bracket, Attempt.bracket_events _, e.attempt_element _, ?_⟩
    exact congrArg Cursor.offset (e.attempt_start (.start text))
  · intro before x offset later split
    obtain ⟨a, _, element, offset, after, found⟩ := Attempt.exists_of_trying split
    exact ⟨a.bracket, element, offset, after, found⟩
  · intro before b after split
    obtain ⟨place, own, inside, reached⟩ := exists_cursor_of_bracket split
    have run := b.element.attempt_run place
    obtain ⟨directs, noted, contains, follows⟩ := run.follows reached.offset_add (built.within inside)
    rw [← own] at contains follows
    exact ⟨directs, noted, contains, follows, fun others notes other => contains.unique other⟩

theorem Element.events_record_search_of_idle_round :
    Buildable (Group.sequence.pair (repetition (Group.choice.pair "ä" "")) "b") ∧
      ∃ (b : Bracket) (directs : List Bracket) (noted : List Event),
        b.element = repetition (Group.choice.pair "ä" "") ∧ b.offset = 0 ∧ b.Contains directs noted ∧
          b.Follows 3 directs noted := by
  have choice : Buildable (Group.choice.pair "ä" "") := .pair (.terminal _) (.terminal _) .choice
  have built : Buildable (Group.sequence.pair (repetition (Group.choice.pair "ä" "")) "b") :=
    .pair (.repetition choice) (.terminal _) .sequence
  obtain ⟨_, opening, rules⟩ := events_record_search _ built "äb"
  have split : (Group.sequence.pair (repetition (Group.choice.pair "ä" "")) "b").events "äb" =
      ((Group.sequence.pair (repetition (Group.choice.pair "ä" "")) "b").events "äb").take 1 ++
        .trying (repetition (Group.choice.pair "ä" "")) 0 ::
          ((Group.sequence.pair (repetition (Group.choice.pair "ä" "")) "b").events "äb").drop 2 := by
    decide
  obtain ⟨b, element, offset, after, found⟩ := opening _ _ _ _ split
  rw [found] at split
  obtain ⟨directs, noted, contains, follows, _⟩ := rules _ b after split
  exact ⟨built, b, directs, noted, element, offset, contains, follows⟩

end Ebnf
