import Ebnf.Proofs.Opened

/-! The brackets of a log: an opening event, what lies inside, and the event that closes it. Which event closes
an opening one is never in doubt, and in the log of a match every opening event stands for one attempt. -/
namespace Ebnf

inductive Ending where
  | matched (bytes : Nat)
  | unmatched (errors : Nat)
  deriving DecidableEq

def Ending.event (element : Element) : Ending → Event
  | .matched bytes => .matched element bytes
  | .unmatched errors => .unmatched element errors

def Verdict.ending : Verdict Node → Ending
  | .matched node _ => .matched node.byteLength
  | .mismatched errors => .unmatched errors.length

theorem Verdict.closing_eq (element : Element) (verdict : Verdict Node) :
    Attempt.closing element verdict = verdict.ending.event element := by
  cases verdict <;> rfl

namespace Event

theorem Balanced.append {first second : List Event} (before : Balanced first) (after : Balanced second) :
    Balanced (first ++ second) := by
  induction before with
  | nil => exact after
  | stalled element offset balanced ih => exact .stalled element offset ih
  | attempt element offset inner closed balanced innerIH ih =>
    rw [List.cons_append, List.append_assoc, List.cons_append]
    exact .attempt element offset inner closed ih

/-- The first event that closes nothing inside is where a balanced log ends. -/
theorem Balanced.closing_unique {first second later others : List Event} {x y : Element} {c d : Event}
    (balanced : Balanced first) (other : Balanced second) (closed : c.closes x = true)
    (closedOther : d.closes y = true) (same : first ++ c :: later = second ++ d :: others) :
    first = second ∧ c = d ∧ later = others := by
  induction balanced generalizing second x y c d later others with
  | nil =>
    cases other with
    | nil => exact ⟨rfl, List.cons.inj same⟩
    | stalled =>
      cases same
      cases closed
    | attempt =>
      cases same
      cases closed
  | stalled element offset balanced ih =>
    cases other with
    | nil =>
      cases same
      cases closedOther
    | stalled element offset balanced =>
      obtain ⟨head, tail⟩ := List.cons.inj same
      cases head
      obtain ⟨rfl, rest⟩ := ih balanced closed closedOther tail
      exact ⟨rfl, rest⟩
    | attempt => cases same
  | attempt element offset inner innerClosed balanced innerIH ih =>
    cases other with
    | nil =>
      cases same
      cases closedOther
    | stalled => cases same
    | attempt element offset inside insideClosed further =>
      simp only [List.cons_append, List.append_assoc, List.cons.injEq, trying.injEq] at same
      obtain ⟨⟨rfl, rfl⟩, tail⟩ := same
      obtain ⟨rfl, rfl, behind⟩ := innerIH inside innerClosed insideClosed tail
      obtain ⟨rfl, rest⟩ := ih further closed closedOther behind
      exact ⟨rfl, rest⟩

end Event

theorem Ending.closes_event (element : Element) (ending : Ending) :
    (ending.event element).closes element = true := by
  cases ending <;> simp [event, Event.closes]

theorem Ending.event_injective {element : Element} {ending other : Ending}
    (same : ending.event element = other.event element) : ending = other := by
  cases ending <;> cases other <;> simp_all [event]

structure Bracket where
  element : Element
  offset : Nat
  inside : List Event
  ending : Ending
  balanced : Event.Balanced inside

namespace Bracket

def events (b : Bracket) : List Event :=
  .trying b.element b.offset :: (b.inside ++ [b.ending.event b.element])

theorem eq_of_append {b other : Bracket} {later others : List Event}
    (same : b.events ++ later = other.events ++ others) : b = other ∧ later = others := by
  obtain ⟨element, offset, inside, ending, balanced⟩ := b
  obtain ⟨element', offset', inside', ending', balanced'⟩ := other
  simp only [events, List.cons_append, List.append_assoc, List.nil_append, List.cons.injEq,
    Event.trying.injEq] at same
  obtain ⟨⟨rfl, rfl⟩, tail⟩ := same
  obtain ⟨rfl, closing, rest⟩ :=
    balanced.closing_unique balanced' (ending.closes_event element) (ending'.closes_event element) tail
  obtain rfl := ending.event_injective closing
  exact ⟨rfl, rest⟩

end Bracket

namespace Attempt

def notes (repeating : Bool) (a : Attempt) : List Event :=
  if repeating && a.isIdle then [.stalled a.element a.start.offset] else []

theorem innerEvents_cons (repeating : Bool) (a : Attempt) (as : List Attempt) :
    innerEvents repeating (a :: as) = a.events ++ (a.notes repeating ++ innerEvents repeating as) := rfl

theorem balanced_notes (repeating : Bool) (a : Attempt) : Event.Balanced (a.notes repeating) := by
  unfold notes
  split
  · exact .stalled _ _ .nil
  · exact .nil

theorem balanced_innerEvents_of {as : List Attempt} (each : ∀ a ∈ as, Event.Balanced a.events)
    (repeating : Bool) : Event.Balanced (innerEvents repeating as) := by
  induction as with
  | nil => exact .nil
  | cons a as ih =>
    rw [innerEvents_cons]
    have head := each a List.mem_cons_self
    have tail := ih fun b member => each b (List.mem_cons_of_mem _ member)
    exact head.append ((a.balanced_notes repeating).append tail)

theorem balanced_events (a : Attempt) : Event.Balanced a.events := by
  induction a with
  | mk element start inner verdict each =>
    rw [events, Verdict.closing_eq]
    exact .attempt element start.offset (balanced_innerEvents_of each _) (Ending.closes_event _ _) .nil

def bracket (a : Attempt) : Bracket where
  element := a.element
  offset := a.start.offset
  inside := innerEvents a.element.isRepetition a.inner
  ending := a.verdict.ending
  balanced := balanced_innerEvents_of (fun b _ => b.balanced_events) _

theorem bracket_events (a : Attempt) : a.bracket.events = a.events := by
  obtain ⟨element, start, inner, verdict⟩ := a
  rw [events, Verdict.closing_eq]
  rfl

/-- Whatever follows the events: where they open something, the events of one of the attempts begin. -/
def Covers (attempts : List Attempt) (events : List Event) : Prop :=
  ∀ ⦃before later rest : List Event⦄ ⦃x : Element⦄ ⦃offset : Nat⦄,
    events ++ rest = before ++ .trying x offset :: later →
      (∃ a ∈ attempts, ∃ after, .trying x offset :: later = a.events ++ after) ∨
        ∃ beyond, rest = beyond ++ .trying x offset :: later

theorem Covers.nil : Covers [] [] := by
  intro before later rest x offset split
  exact .inr ⟨before, split⟩

theorem Covers.append {first second : List Attempt} {events more : List Event} (head : Covers first events)
    (tail : Covers second more) : Covers (first ++ second) (events ++ more) := by
  intro before later rest x offset split
  rw [List.append_assoc] at split
  rcases head split with ⟨a, member, found⟩ | ⟨beyond, behind⟩
  · exact .inl ⟨a, List.mem_append_left _ member, found⟩
  · rcases tail behind with ⟨a, member, found⟩ | further
    · exact .inl ⟨a, List.mem_append_right _ member, found⟩
    · exact .inr further

theorem Covers.quiet {event : Event} (opens : ∀ x offset, event ≠ .trying x offset) : Covers [] [event] := by
  intro before later rest x offset split
  cases before with
  | nil => exact absurd (List.cons.inj split).1 (opens x offset)
  | cons first before => exact .inr ⟨before, (List.cons.inj split).2⟩

theorem covers_notes (repeating : Bool) (a : Attempt) : Covers [] (a.notes repeating) := by
  unfold notes
  split
  · exact .quiet nofun
  · exact .nil

theorem covers_innerEvents {as : List Attempt} (each : ∀ a ∈ as, Covers a.opened a.events) (repeating : Bool) :
    Covers (openedAll as) (innerEvents repeating as) := by
  induction as with
  | nil => exact .nil
  | cons a as ih =>
    rw [innerEvents_cons]
    have head := each a List.mem_cons_self
    have tail := ih fun b member => each b (List.mem_cons_of_mem _ member)
    exact head.append ((a.covers_notes repeating).append tail)

theorem covers_events (a : Attempt) : Covers a.opened a.events := by
  induction a with
  | mk element start inner verdict each =>
    intro before later rest x offset split
    cases before with
    | nil => exact .inl ⟨⟨element, start, inner, verdict⟩, mem_opened _, rest, split.symm⟩
    | cons first before =>
      have closing : Covers [] [Attempt.closing element verdict] := .quiet (by cases verdict <;> nofun)
      have inside := (covers_innerEvents each element.isRepetition).append closing
      rw [events] at split
      rcases inside (List.cons.inj split).2 with ⟨a, member, found⟩ | further
      · rw [List.append_nil] at member
        exact .inl ⟨a, List.mem_cons_of_mem _ member, found⟩
      · exact .inr further

theorem exists_of_trying {a : Attempt} {before later : List Event} {x : Element} {offset : Nat}
    (split : a.events = before ++ .trying x offset :: later) :
    ∃ b ∈ a.opened, b.element = x ∧ b.start.offset = offset ∧
      ∃ after, .trying x offset :: later = b.bracket.events ++ after := by
  rw [← List.append_nil a.events] at split
  rcases a.covers_events split with ⟨b, member, after, found⟩ | ⟨beyond, behind⟩
  · rw [← b.bracket_events] at found
    cases found
    exact ⟨b, member, rfl, rfl, after, rfl⟩
  · cases beyond <;> cases behind

end Attempt

/-- A bracket in the log of a match is what its own element leaves there, when it is matched from a place
that lies behind the start. -/
theorem Element.exists_cursor_of_bracket {e : Element} {c : Cursor} {b : Bracket} {before after : List Event}
    (split : (e.attempt c).events = before ++ (b.events ++ after)) :
    ∃ place, b = (b.element.attempt place).bracket ∧ b.element.Within e ∧ c.Reaches place := by
  obtain ⟨a, opened, _, _, rest, found⟩ := Attempt.exists_of_trying split
  obtain ⟨rfl, _⟩ := Bracket.eq_of_append found
  obtain ⟨⟨root, among, inside⟩, place, own⟩ := belongs_of_opened opened
  rw [List.mem_singleton.mp among] at inside
  exact ⟨a.start, congrArg Attempt.bracket own, inside, place⟩

end Ebnf
