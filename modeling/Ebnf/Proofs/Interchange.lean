import Mathlib.Data.List.Forall2
import Ebnf.Context
import Ebnf.Proofs.Flattening
import Ebnf.Proofs.Shift

/-! Elements that match alike can stand for each other. That two elements match alike on every text means
that they get equally far from every cursor, and how far a group or a repetition gets depends on its operands
only through how far these get. -/
namespace Ebnf

theorem Attempt.shift_verdict (bytes : Nat) (a : Attempt) : (a.shift bytes).verdict = a.verdict.shift bytes := by
  cases a
  rfl

namespace Verdict

theorem bare_shift (bytes : Nat) (verdict : Verdict α) : (verdict.shift bytes).bare = verdict.bare.shift bytes := by
  cases verdict <;> rfl

def summary : Verdict Unit → Except (List Mismatch) Nat
  | .matched () next => .ok next.offset
  | .mismatched errors => .error errors

theorem summary_eq_ok_iff {verdict : Verdict Unit} {bytes : Nat} :
    verdict.summary = .ok bytes ↔ ∃ next, verdict = .matched () next ∧ next.offset = bytes := by
  cases verdict <;> simp [summary]

theorem summary_eq_error_iff {verdict : Verdict Unit} {errors : List Mismatch} :
    verdict.summary = .error errors ↔ verdict = .mismatched errors := by
  cases verdict <;> simp [summary]

end Verdict

theorem Cursor.Reaches.eq_of_offset {text : String} {c next : Cursor} (first : (start text).Reaches c)
    (second : (start text).Reaches next) (same : c.offset = next.offset) : c = next := by
  have left : some c.rest = some next.rest := by
    rw [← first.suffixAt, ← second.suffixAt, same]
  obtain ⟨rest, offset⟩ := c
  cases next
  cases left
  cases same
  rfl

namespace Element

theorem advance_eq_shift (e : Element) (c : Cursor) :
    e.advance c = (e.advance (.start (String.ofList c.rest))).shift c.offset := by
  have moved := congrArg Attempt.verdict (e.attempt_eq_shift c)
  unfold advance
  rw [moved, Attempt.shift_verdict, Verdict.bare_shift]

theorem reaches_of_advance {e : Element} {text : String} {stop : Cursor}
    (reached : e.advance (.start text) = .matched () stop) : (Cursor.start text).Reaches stop := by
  obtain ⟨root, _, passes⟩ := parse_of_advance_matched reached
  exact ⟨_, passes⟩

theorem summary_parse (e : Element) (text : String) :
    (e.parse text).summary = (e.advance (.start text)).summary := by
  cases result : e.advance (.start text) with
  | matched value stop =>
    obtain ⟨root, success, passes⟩ := parse_of_advance_matched result
    have offset : stop.offset = 0 + Text.byteLength root.text.toList := passes.offset
    rw [Text.byteLength_toList, Nat.zero_add, ← root.byteLength_eq_utf8ByteSize] at offset
    rw [success, Outcome.summary, Verdict.summary, offset]
  | mismatched errors =>
    rw [parse_of_advance_mismatched result]
    rfl

theorem MatchAlike.advance_start {x y : Element} (alike : x.MatchAlike y) (text : String) :
    x.advance (.start text) = y.advance (.start text) := by
  have same := alike text
  rw [summary_parse, summary_parse] at same
  cases first : x.advance (.start text) with
  | matched value stop =>
    rw [first] at same
    obtain ⟨next, second, offset⟩ := Verdict.summary_eq_ok_iff.mp same.symm
    rw [second, (reaches_of_advance second).eq_of_offset (reaches_of_advance first) offset]
  | mismatched errors =>
    rw [first] at same
    exact (Verdict.summary_eq_error_iff.mp same.symm).symm

/-- What is alike at the start of every text is alike at every cursor. -/
theorem matchAlike_iff {x y : Element} : x.MatchAlike y ↔ x.advance = y.advance := by
  constructor
  · intro alike
    funext c
    rw [x.advance_eq_shift, y.advance_eq_shift, alike.advance_start]
  · intro same text
    rw [summary_parse, summary_parse, same]

theorem advance_repetition_congr {x y : Element} (same : x.advance = y.advance) :
    (repetition x).advance = (repetition y).advance := by
  funext c
  rw [advance_repetition, advance_repetition, same]

end Element

theorem Group.advance_congr (group : Group) {xs ys : List Element}
    (alike : List.Forall₂ (fun x y => x.advance = y.advance) xs ys) : group.advance xs = group.advance ys := by
  induction alike with
  | nil => rfl
  | @cons x y xs ys head tail ih =>
    funext c
    cases group with
    | sequence =>
      change Element.advanceAll xs = Element.advanceAll ys at ih
      change Element.advanceAll (x :: xs) c = Element.advanceAll (y :: ys) c
      rw [Element.advanceAll_cons, Element.advanceAll_cons, head, ih]
    | choice =>
      change Element.advanceAny xs = Element.advanceAny ys at ih
      change Element.advanceAny (x :: xs) c = Element.advanceAny (y :: ys) c
      rw [Element.advanceAny_cons, Element.advanceAny_cons, head, ih]

namespace Context

theorem advance_fill (context : Context) {x y : Element} (same : x.advance = y.advance) :
    (context.fill x).advance = (context.fill y).advance := by
  induction context with
  | hole => exact same
  | repetition inner ih => exact Element.advance_repetition_congr ih
  | group kind before inner after ih =>
    have unchanged (es : List Element) : List.Forall₂ (fun x y => x.advance = y.advance) es es :=
      List.forall₂_same.mpr fun _ _ => rfl
    have operands := List.rel_append (unchanged before) (List.Forall₂.cons ih (unchanged after))
    funext c
    rw [fill, fill, Group.advance_ofParts, Group.advance_ofParts, Group.advance_splice, Group.advance_splice,
      kind.advance_congr operands]

/-- Elements that match alike still do so when the same element is built around them, whether they are
spliced there or not. -/
theorem fill_matchAlike (context : Context) {x y : Element} (alike : x.MatchAlike y) :
    (context.fill x).MatchAlike (context.fill y) :=
  Element.matchAlike_iff.mpr (context.advance_fill (Element.matchAlike_iff.mp alike))

open Element in
theorem fill_matchAlike_of_spliced_sequence :
    (concatenation ["a", "b"]).MatchAlike (alternation [concatenation ["a", "b"]]) ∧
      (Element.repetition (concatenation ["c", "a", "b", "d"])).MatchAlike
        (.repetition (concatenation ["c", alternation [concatenation ["a", "b"]], "d"])) := by
  have alike : (concatenation ["a", "b"]).MatchAlike (alternation [concatenation ["a", "b"]]) := by
    apply matchAlike_iff.mpr
    funext c
    rw [advance_alternation, advanceAny_singleton]
  exact ⟨alike, fill_matchAlike (.repetition (.group .sequence ["c"] .hole ["d"])) alike⟩

end Context
end Ebnf
