import Ebnf.Proofs.Nullability
import Ebnf.Proofs.Splicing
import Ebnf.Proofs.Subtrees

/-! A repetition takes all it can and gives nothing back: where it stops there is nothing for its element to
take. So an element that stands behind its own repetition matches only if it can match nothing. -/
namespace Ebnf
open Element

namespace Run
variable {inner : Element} {c stop : Cursor} {attempts : List Attempt} {nodes : List Node}

/-- Whatever the element still matches where its rounds have stopped, it uses no text. -/
theorem still_at_stop (run : Run (.rounds inner) c attempts (.matched nodes stop)) {others : List Attempt}
    {node : Node} {next : Cursor} (last : Run (.one inner) stop others (.matched [node] next)) : next = stop := by
  rcases run.stop_of_rounds with nothing | ⟨_, errors, blocked⟩ | ⟨_, _, idle, round, still⟩
  · exact last.passes.eq_of_rest nothing
  · cases (last.unique blocked).2
  · cases (last.unique round).2
    exact last.passes.eq_of_offset still

theorem stays_at_stop (run : Run (.rounds inner) c attempts (.matched nodes stop))
    (nullable : inner.nullable = true) : inner.advance stop = .matched () stop := by
  cases result : inner.advance stop with
  | matched value next =>
    obtain ⟨others, node, last⟩ := advance_eq_matched_iff.mp result
    rw [run.still_at_stop last]
  | mismatched errors =>
    obtain ⟨others, failed⟩ := advance_eq_mismatched_iff.mp result
    have never : inner.nullable = false := failed.not_nullable_of_mismatch
    rw [nullable] at never
    cases never

theorem fails_at_stop (run : Run (.rounds inner) c attempts (.matched nodes stop))
    (never : inner.nullable = false) : ∃ errors, inner.advance stop = .mismatched errors := by
  cases result : inner.advance stop with
  | matched value next =>
    obtain ⟨others, node, last⟩ := advance_eq_matched_iff.mp result
    have nullable : inner.nullable = true :=
      last.nullable_of_still (congrArg Cursor.offset (run.still_at_stop last))
    rw [never] at nullable
    cases nullable
  | mismatched errors => exact ⟨errors, rfl⟩

end Run

namespace Element
variable {e : Element}

theorem advance_self_of_nullable (nullable : e.nullable = true) :
    (Group.sequence.pair (repetition e) e).advance = (repetition e).advance := by
  funext c
  obtain ⟨attempts, nodes, stop, looped⟩ := rounds_end e c
  rw [Group.advance_sequence_pair, advance_of_match (.repetition looped)]
  exact looped.stays_at_stop nullable

theorem advance_self_of_not_nullable (never : e.nullable = false) (c : Cursor) :
    ∃ errors, (Group.sequence.pair (repetition e) e).advance c = .mismatched errors := by
  obtain ⟨attempts, nodes, stop, looped⟩ := rounds_end e c
  rw [Group.advance_sequence_pair, advance_of_match (.repetition looped)]
  exact looped.fails_at_stop never

theorem isSuccess_self_iff {text : String} :
    ((Group.sequence.pair (repetition e) e).parse text).isSuccess = true ↔ e.nullable = true := by
  cases nullable : e.nullable with
  | true =>
    have always : (repetition e).nullable = true := rfl
    obtain ⟨repeated, once⟩ := Outcome.isSuccess_iff.mp (isSuccess_of_nullable always text)
    obtain ⟨root, success, _⟩ := exists_parse_of_advance_eq (advance_self_of_nullable nullable).symm once
    exact iff_of_true (Outcome.isSuccess_iff.mpr ⟨root, success⟩) rfl
  | false =>
    obtain ⟨errors, failed⟩ := advance_self_of_not_nullable nullable (.start text)
    rw [parse_of_advance_mismatched failed]
    exact iff_of_false Bool.false_ne_true Bool.false_ne_true

/-- An element behind its own repetition matches exactly if it matches the empty text, and then it uses what the
repetition uses and nothing more. If it does not match the empty text, the two together never match. -/
theorem parse_repetition_then_self (e : Element) (text : String) :
    (((Group.sequence.pair (repetition e) e).parse text).isSuccess = true ↔ (e.parse "").isSuccess = true) ∧
      (∀ root, (Group.sequence.pair (repetition e) e).parse text = .success root →
        ∃ repeated, (repetition e).parse text = .success repeated ∧
          root.text = repeated.text ∧ root.byteLength = repeated.byteLength) ∧
      ((e.parse "").isFailure = true → ((Group.sequence.pair (repetition e) e).parse text).isFailure = true) := by
  have succeeds : ((Group.sequence.pair (repetition e) e).parse text).isSuccess = true ↔
      (e.parse "").isSuccess = true := by
    rw [isSuccess_self_iff, isSuccess_empty_iff]
  refine ⟨succeeds, ?_, ?_⟩
  · intro root success
    have nullable := isSuccess_self_iff.mp (Outcome.isSuccess_iff.mpr ⟨root, success⟩)
    exact exists_parse_of_advance_eq (advance_self_of_nullable nullable) success
  · intro fails
    unfold Outcome.isFailure at fails ⊢
    rw [Bool.eq_iff_iff.mpr succeeds]
    exact fails

theorem parse_repetition_then_self_of_optional_branch :
    (∃ root repeated,
        (Group.sequence.pair (repetition (alternation ["ab", repetition "c"]))
          (alternation ["ab", repetition "c"])).parse "cabx" = .success root ∧
        (repetition (alternation ["ab", repetition "c"])).parse "cabx" = .success repeated ∧
        root.text = repeated.text ∧ root.byteLength = repeated.byteLength) ∧
      ((concatenation ["a", "b"]).parse "").isFailure = true ∧
      ((Group.sequence.pair (repetition (concatenation ["a", "b"])) (concatenation ["a", "b"])).parse
        "ababab").isFailure = true := by
  have fails : ((concatenation ["a", "b"]).parse "").isFailure = true := by decide
  have matched : ((Group.sequence.pair (repetition (alternation ["ab", repetition "c"]))
      (alternation ["ab", repetition "c"])).parse "cabx").isSuccess = true := by decide
  obtain ⟨root, success⟩ := Outcome.isSuccess_iff.mp matched
  obtain ⟨repeated, parsed, same⟩ := (parse_repetition_then_self _ "cabx").2.1 root success
  exact ⟨⟨root, repeated, success, parsed, same⟩, fails, (parse_repetition_then_self _ "ababab").2.2 fails⟩

end Element
end Ebnf
