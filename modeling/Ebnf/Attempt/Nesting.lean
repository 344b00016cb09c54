import Ebnf.Attempt.Events

/-! Attempts inside attempts, and the same read off the events: an opening event, what lies inside, and the
closing event of the same element. -/
namespace Ebnf

namespace Attempt

mutual
def opened : Attempt → List Attempt
  | ⟨element, start, inner, verdict⟩ => ⟨element, start, inner, verdict⟩ :: openedAll inner

def openedAll : List Attempt → List Attempt
  | [] => []
  | a :: as => a.opened ++ openedAll as
end

end Attempt

namespace Event

def shift (bytes : Nat) : Event → Event
  | .trying element offset => .trying element (offset + bytes)
  | .stalled element offset => .stalled element (offset + bytes)
  | event => event

def closes (element : Element) : Event → Bool
  | .matched e _ | .unmatched e _ => e == element
  | _ => false

inductive Balanced : List Event → Prop where
  | nil : Balanced []
  | stalled (element : Element) (offset : Nat) {later : List Event} (balanced : Balanced later) :
      Balanced (.stalled element offset :: later)
  | attempt (element : Element) (offset : Nat) {inside later : List Event} {closing : Event}
      (inner : Balanced inside) (closed : closing.closes element) (balanced : Balanced later) :
      Balanced (.trying element offset :: (inside ++ closing :: later))

end Event
end Ebnf
