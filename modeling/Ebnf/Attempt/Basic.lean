import Ebnf.Node.Basic
import Ebnf.Verdict

/-! Matching an element, recorded as a tree of attempts.
An attempt holds the element that was tried, the cursor that it was tried at, the attempts made for its
parts, in order, and its verdict. Nothing that was tried is left out: the branches of a choice that did
not match are there, and so is the last round of a repetition. -/
namespace Ebnf

structure Attempt where
  element : Element
  start : Cursor
  inner : List Attempt
  verdict : Verdict Node

structure Trail (α : Type) where
  attempts : List Attempt
  verdict : Verdict α

structure Rounds where
  attempts : List Attempt
  children : List Node
  stop : Cursor

/-- Runs `step` until the text is used up, a round does not match, or a round leaves the cursor where it is.
Such an idle round is an attempt but yields no child. Every other round uses text, so the text in hand at
the start is a bound on their number. -/
def Rounds.run (step : Cursor → Attempt) : List Char → Cursor → Rounds
  | [], c => ⟨[], [], c⟩
  | _ :: bound, c =>
    if c.rest.isEmpty then ⟨[], [], c⟩ else
    let round := step c
    match round.verdict with
    | .mismatched _ => ⟨[round], [], c⟩
    | .matched node next =>
      if next.offset = c.offset then ⟨[round], [], c⟩ else
      let later := Rounds.run step bound next
      ⟨round :: later.attempts, node :: later.children, later.stop⟩

namespace Element

def literalVerdict (value : String) (c : Cursor) : Verdict Node :=
  match c.skip? value with
  | some next => .matched (.terminal (.terminal value) value) next
  | none => .mismatched [.ofLiteral value c]

mutual
def attempt : Element → Cursor → Attempt
  | .terminal value, c => ⟨.terminal value, c, [], literalVerdict value c⟩
  | .concatenation parts, c =>
    let trail := attemptAll parts c
    ⟨.concatenation parts, c, trail.attempts, trail.verdict.map (.concatenation (.concatenation parts))⟩
  | .alternation branches, c =>
    let trail := attemptAny branches c
    ⟨.alternation branches, c, trail.attempts, trail.verdict.map (.alternation (.alternation branches))⟩
  | .repetition inner, c =>
    let rounds := Rounds.run (attempt inner) c.rest c
    ⟨.repetition inner, c, rounds.attempts, .matched (.repetition (.repetition inner) rounds.children) rounds.stop⟩

def attemptAll : List Element → Cursor → Trail (List Node)
  | [], c => ⟨[], .matched [] c⟩
  | e :: es, c =>
    let first := attempt e c
    match first.verdict with
    | .mismatched errors => ⟨[first], .mismatched errors⟩
    | .matched node next =>
      let later := attemptAll es next
      ⟨first :: later.attempts, later.verdict.map (node :: ·)⟩

def attemptAny : List Element → Cursor → Trail Node
  | [], _ => ⟨[], .mismatched []⟩
  | e :: es, c =>
    let first := attempt e c
    match first.verdict with
    | .matched node next => ⟨[first], .matched node next⟩
    | .mismatched errors =>
      let later := attemptAny es c
      ⟨first :: later.attempts, later.verdict.blaming errors⟩
end

@[simp] theorem attempt_element (e : Element) (c : Cursor) : (e.attempt c).element = e := by
  cases e <;> rfl

@[simp] theorem attempt_start (e : Element) (c : Cursor) : (e.attempt c).start = c := by
  cases e <;> rfl

end Element
end Ebnf
