import Ebnf.Element.Group
import Ebnf.Outcome

/-! Elements with a hole, and what it means that two elements can stand for each other: on every text they
use the same bytes or fail with the same diagnostics. Filling a hole splices groups as building does. -/
namespace Ebnf

inductive Context where
  | hole
  | repetition (inner : Context)
  | group (kind : Group) (before : List Element) (inner : Context) (after : List Element)

def Context.fill : Context → Element → Element
  | .hole, e => e
  | .repetition inner, e => .repetition (inner.fill e)
  | .group kind before inner after, e => kind.ofParts (kind.splice (before ++ inner.fill e :: after))

def Element.MatchAlike (x y : Element) : Prop := ∀ text : String, (x.parse text).summary = (y.parse text).summary

end Ebnf
