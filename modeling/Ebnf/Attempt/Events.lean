import Ebnf.Attempt.Basic
import Ebnf.Event

/-! The events of an attempt: it opens with the element and the place, reports the attempts inside it in
order, and closes with its verdict. -/
namespace Ebnf.Attempt

def isIdle (a : Attempt) : Bool :=
  match a.verdict with
  | .matched _ next => next.offset == a.start.offset
  | .mismatched _ => false

def closing (element : Element) : Verdict Node → Event
  | .matched node _ => .matched element node.byteLength
  | .mismatched errors => .unmatched element errors.length

mutual
def events : Attempt → List Event
  | ⟨element, start, inner, verdict⟩ =>
    .trying element start.offset :: (innerEvents element.isRepetition inner ++ [closing element verdict])

/-- The events of attempts in order. In a repetition an idle one is noted, as the repetition ends there. -/
def innerEvents (repeating : Bool) : List Attempt → List Event
  | [] => []
  | a :: as =>
    let noted := if repeating && a.isIdle then [.stalled a.element a.start.offset] else []
    a.events ++ (noted ++ innerEvents repeating as)
end

end Ebnf.Attempt
