import Ebnf.Parser
import Ebnf.Proofs.Brackets
import Ebnf.Proofs.Shift

/-! A log can be taken at its word: each bracket in it is the log of the element alone, matched against the
text from the place of the bracket on, with all offsets moved there. A parser adds one event before and one
behind, of which the last repeats what the log ends with. -/
namespace Ebnf

namespace Attempt

theorem isIdle_shift (bytes : Nat) (a : Attempt) : (a.shift bytes).isIdle = a.isIdle := by
  obtain ⟨element, start, inner, verdict⟩ := a
  cases verdict with
  | matched node next =>
    apply Bool.eq_iff_iff.mpr
    simpa [shift, isIdle, Verdict.shift] using Cursor.shift_offset_eq_iff bytes
  | mismatched errors => rfl

theorem notes_shift (repeating : Bool) (bytes : Nat) (a : Attempt) :
    (a.shift bytes).notes repeating = (a.notes repeating).map (Event.shift bytes) := by
  unfold notes
  rw [isIdle_shift]
  obtain ⟨element, start, inner, verdict⟩ := a
  split <;> rfl

theorem closing_shift (element : Element) (bytes : Nat) (verdict : Verdict Node) :
    closing element (verdict.shift bytes) = (closing element verdict).shift bytes := by
  cases verdict with
  | matched node next => rfl
  | mismatched errors => simp [Verdict.shift, closing, Event.shift]

theorem innerEvents_shiftAll {as : List Attempt} {bytes : Nat}
    (each : ∀ a ∈ as, (a.shift bytes).events = a.events.map (Event.shift bytes)) (repeating : Bool) :
    innerEvents repeating (shiftAll bytes as) = (innerEvents repeating as).map (Event.shift bytes) := by
  induction as with
  | nil => rfl
  | cons a as ih =>
    have head := each a List.mem_cons_self
    have tail := ih fun b member => each b (List.mem_cons_of_mem _ member)
    rw [shiftAll, innerEvents_cons, innerEvents_cons, head, notes_shift, tail, List.map_append, List.map_append]

theorem events_shift (bytes : Nat) (a : Attempt) :
    (a.shift bytes).events = a.events.map (Event.shift bytes) := by
  induction a with
  | mk element start inner verdict each =>
    rw [shift, events, events, innerEvents_shiftAll each, closing_shift, List.map_cons, List.map_append]
    rfl

end Attempt

theorem Event.Balanced.level_eq {events : List Event} (balanced : Balanced events) :
    ∀ event ∈ events, event.level = .trace := by
  induction balanced with
  | nil => nofun
  | stalled element offset balanced ih => exact List.forall_mem_cons.mpr ⟨rfl, ih⟩
  | @attempt element offset inside later closing inner closed balanced innerIH ih =>
    have last : closing.level = .trace := by
      cases closing with
      | matched | unmatched => rfl
      | _ => cases closed
    exact List.forall_mem_cons.mpr ⟨rfl, List.forall_mem_append.mpr
      ⟨innerIH, List.forall_mem_cons.mpr ⟨last, ih⟩⟩⟩

def Ending.report : Ending → Event
  | .matched bytes => .succeeded bytes
  | .unmatched errors => .failed errors

theorem Attempt.closing_outcome (a : Attempt) : Parser.closing a.outcome = a.bracket.ending.report := by
  obtain ⟨element, start, inner, verdict⟩ := a
  cases verdict <;> rfl

def Ending.Tells (ending : Ending) (outcome : Outcome) : Prop :=
  match ending with
  | .matched bytes => ∃ root, outcome = .success root ∧ root.byteLength = bytes
  | .unmatched count => ∃ element errors, outcome = .failure element errors ∧ errors.length = count

theorem Attempt.tells_outcome (a : Attempt) : a.bracket.ending.Tells a.outcome := by
  obtain ⟨element, start, inner, verdict⟩ := a
  cases verdict with
  | matched node next => exact ⟨node, rfl, rfl⟩
  | mismatched errors => exact ⟨element, errors, rfl, rfl⟩

theorem Attempt.ending_shift (bytes : Nat) (a : Attempt) : (a.shift bytes).bracket.ending = a.bracket.ending := by
  obtain ⟨element, start, inner, verdict⟩ := a
  cases verdict with
  | matched node next => rfl
  | mismatched errors => exact congrArg Ending.unmatched (List.length_map _)

theorem Parser.events_eq (p : Parser) (text : String) :
    p.events text = .parsing text.utf8ByteSize p.root :: (p.root.events text ++
      [(p.root.attempt (.start text)).bracket.ending.report]) := by
  rw [← Attempt.closing_outcome]
  rfl

theorem Parser.debug_events_eq (p : Parser) (text : String) :
    (p.events text).filter (fun event => Level.debug.keeps event.level) =
      [.parsing text.utf8ByteSize p.root, (p.root.attempt (.start text)).bracket.ending.report] := by
  have silent : (p.root.events text).filter (fun event => Level.debug.keeps event.level) = [] := by
    apply List.filter_eq_nil_iff.mpr
    intro event member
    rw [(Attempt.balanced_events _).level_eq event member]
    decide
  have spoken : Level.debug.keeps ((p.root.attempt (.start text)).bracket.ending.report).level = true := by
    cases (p.root.attempt (.start text)).bracket.ending <;> rfl
  rw [events_eq, List.filter_cons_of_pos rfl, List.filter_append, silent, List.nil_append]
  exact congrArg _ (List.filter_eq_self.mpr (List.forall_mem_singleton.mpr spoken))

/-- Every closing event tells the truth, at every depth, and so does the last event of a parser. -/
theorem Element.log_tells_truth (e : Element) (text : String) :
    (∀ before (b : Bracket) after, e.events text = before ++ (b.events ++ after) →
      b.element.Within e ∧ ∃ rest, Text.suffixAt? b.offset text.toList = some rest ∧
        b.ending.Tells (b.element.parse (String.ofList rest)) ∧
        b.events = (b.element.events (String.ofList rest)).map (Event.shift b.offset)) ∧
    ∃ root : Bracket, root.element = e ∧ root.events = e.events text ∧
      (Parser.mk e).events text =
        .parsing text.utf8ByteSize e :: (e.events text ++ [root.ending.report]) ∧
      ((Parser.mk e).events text).filter (fun event => Level.debug.keeps event.level) =
        [.parsing text.utf8ByteSize e, root.ending.report] := by
  refine ⟨?_, ?_⟩
  · intro before b after split
    obtain ⟨place, own, inside, reached⟩ := exists_cursor_of_bracket split
    have offset : b.offset = place.offset :=
      (congrArg Bracket.offset own).trans (congrArg Cursor.offset (b.element.attempt_start place))
    have moved := b.element.attempt_eq_shift place
    rw [offset]
    refine ⟨inside, place.rest, reached.suffixAt, ?_, ?_⟩
    · have ending := congrArg Bracket.ending own
      rw [moved, Attempt.ending_shift] at ending
      rw [ending]
      exact Attempt.tells_outcome _
    · have events := congrArg Bracket.events own
      rw [Attempt.bracket_events, moved, Attempt.events_shift] at events
      exact events
  · refine ⟨(e.attempt (.start text)).bracket, e.attempt_element _, Attempt.bracket_events _, ?_, ?_⟩
    · exact Parser.events_eq ⟨e⟩ text
    · exact Parser.debug_events_eq ⟨e⟩ text

theorem Element.log_tells_truth_of_given_up_branch :
    (concatenation ["ä", alternation ["bc", "b"]]).events "äbx" =
        [.trying (concatenation ["ä", alternation ["bc", "b"]]) 0, .trying "ä" 0, .matched "ä" 2,
            .trying (alternation ["bc", "b"]) 2] ++
          ((Bracket.mk "bc" 2 [] (.unmatched 1) .nil).events ++
            [.trying "b" 2, .matched "b" 1, .matched (alternation ["bc", "b"]) 1,
              .matched (concatenation ["ä", alternation ["bc", "b"]]) 3]) ∧
      ∃ rest, Text.suffixAt? 2 "äbx".toList = some rest ∧
        (Ending.unmatched 1).Tells (("bc" : Element).parse (String.ofList rest)) := by
  have split : (concatenation ["ä", alternation ["bc", "b"]]).events "äbx" =
      [.trying (concatenation ["ä", alternation ["bc", "b"]]) 0, .trying "ä" 0, .matched "ä" 2,
          .trying (alternation ["bc", "b"]) 2] ++
        ((Bracket.mk "bc" 2 [] (.unmatched 1) .nil).events ++
          [.trying "b" 2, .matched "b" 1, .matched (alternation ["bc", "b"]) 1,
            .matched (concatenation ["ä", alternation ["bc", "b"]]) 3]) := by decide
  obtain ⟨_, rest, place, tells, _⟩ :=
    (log_tells_truth (concatenation ["ä", alternation ["bc", "b"]]) "äbx").1 _ _ _ split
  exact ⟨split, rest, place, tells⟩

end Ebnf
