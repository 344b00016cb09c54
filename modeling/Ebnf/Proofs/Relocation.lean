import Ebnf.Proofs.Interchange

/-! Where the cursor stands makes no difference to a match except in the offsets that it reports. So a literal in
front of an element and of its text does nothing but move what the element does. -/
namespace Ebnf

theorem Cursor.shift_start (text : String) (bytes : Nat) : (start text).shift bytes = ⟨text.toList, bytes⟩ := by
  simp [start, shift]

theorem Cursor.skip?_start_append (literal text : String) :
    (start (literal ++ text)).skip? literal = some ((start text).shift literal.utf8ByteSize) := by
  apply skip?_eq_some_iff.mpr
  simp [start, shift]

theorem Cursor.Passes.text_eq_append {before text used own : String} {stop : Cursor} {bytes : Nat}
    (passes : (start (before ++ text)).Passes used.toList (stop.shift bytes))
    (alone : (start text).Passes own.toList stop) : used = before ++ own := by
  have whole : (before ++ text).toList = used.toList ++ stop.rest := passes.rest
  have part : text.toList = own.toList ++ stop.rest := alone.rest
  rw [String.toList_append, part, ← List.append_assoc] at whole
  apply String.toList_inj.mp
  rw [String.toList_append]
  exact (List.append_cancel_right whole).symm

theorem Attempt.failingElement?_shift (bytes : Nat) (a : Attempt) :
    (a.shift bytes).outcome.failingElement? = a.outcome.failingElement? := by
  obtain ⟨element, start, inner, verdict⟩ := a
  cases verdict <;> rfl

namespace Element

/-- A match from further on makes the same attempts, with all offsets moved. -/
theorem attempt_shift (e : Element) (c : Cursor) (bytes : Nat) :
    e.attempt (c.shift bytes) = (e.attempt c).shift bytes :=
  List.singleton_inj.mp ((e.attempt_run _).unique ((e.attempt_run c).shift bytes)).1

theorem advance_shift (e : Element) (c : Cursor) (bytes : Nat) :
    e.advance (c.shift bytes) = (e.advance c).shift bytes := by
  unfold advance
  rw [attempt_shift, Attempt.shift_verdict, Verdict.bare_shift]

theorem advance_literal_pair (literal : String) (e : Element) (text : String) :
    (Group.sequence.pair literal e).advance (.start (literal ++ text)) =
      (e.advance (.start text)).shift literal.utf8ByteSize := by
  have skipped := advance_of_match (.found (Cursor.skip?_start_append literal text))
  rw [Group.advance_sequence_pair, skipped]
  exact e.advance_shift _ _

/-- Matching does not depend on where the cursor stands: the same text from another offset on gives the same tree
and leaves the same text, or fails as the same element with the same diagnostics, and all offsets are moved.
Behind a literal, an element does what it does alone. -/
theorem attempt_relocates (e : Element) (text : String) (bytes : Nat) :
    (match (e.attempt (.start text)).verdict with
      | .matched node next =>
        (e.attempt ⟨text.toList, bytes⟩).verdict = .matched node ⟨next.rest, next.offset + bytes⟩
      | .mismatched errors =>
        (e.attempt ⟨text.toList, bytes⟩).verdict =
          .mismatched (errors.map fun m => ⟨m.offset + bytes, m.kind⟩)) ∧
    (e.attempt ⟨text.toList, bytes⟩).outcome.failingElement? =
      (e.attempt (.start text)).outcome.failingElement? ∧
    ∀ literal : String, match e.parse text with
      | .success root => ∃ whole, (Group.sequence.pair literal e).parse (literal ++ text) = .success whole ∧
          whole.text = literal ++ root.text ∧ whole.byteLength = literal.utf8ByteSize + root.byteLength
      | .failure _ errors => (Group.sequence.pair literal e).parse (literal ++ text) =
          .failure (Group.sequence.pair literal e)
            (errors.map fun m => ⟨m.offset + literal.utf8ByteSize, m.kind⟩) := by
  have moved : (e.attempt ⟨text.toList, bytes⟩).verdict = (e.attempt (.start text)).verdict.shift bytes := by
    rw [← Cursor.shift_start, attempt_shift, Attempt.shift_verdict]
  refine ⟨?_, ?_, ?_⟩
  · rw [moved]
    cases (e.attempt (.start text)).verdict <;> rfl
  · rw [← Cursor.shift_start, attempt_shift, Attempt.failingElement?_shift]
  · intro literal
    have behind := advance_literal_pair literal e text
    cases result : e.advance (.start text) with
    | matched value stop =>
      obtain ⟨root, success, alone⟩ := parse_of_advance_matched result
      rw [result] at behind
      obtain ⟨whole, parsed, passes⟩ := parse_of_advance_matched behind
      have used := passes.text_eq_append alone
      rw [success]
      refine ⟨whole, parsed, used, ?_⟩
      rw [whole.byteLength_eq_utf8ByteSize, used, root.byteLength_eq_utf8ByteSize, String.utf8ByteSize_append]
    | mismatched errors =>
      rw [result] at behind
      rw [parse_of_advance_mismatched result]
      exact parse_of_advance_mismatched behind

example : (Group.sequence.pair "ä" (concatenation [repetition "b", "c"])).parse "äbbd" =
    .failure (concatenation ["ä", repetition "b", "c"]) [⟨4, .unexpected "d" "c"⟩] := by decide

end Element
end Ebnf
