import Ebnf.Proofs.Grouping
import Ebnf.Proofs.Interchange

/-! What stands in front of every branch of a choice can be put in front of the choice. The choice then has it
matched once instead of once for every branch; nothing else changes, as all branches go on from where it ends. -/
namespace Ebnf

theorem Outcome.alike_of_summary_eq {o other : Outcome} (same : o.summary = other.summary) :
    o.isSuccess = other.isSuccess ∧ o.errors = other.errors := by
  cases o <;> cases other <;> simp_all [summary, isSuccess, errors]

namespace Group

theorem splice_spread (a : Element) (bs : List Element) :
    Group.choice.splice (bs.map (Group.sequence.pair a)) = bs.map (Group.sequence.pair a) := by
  apply splice_eq_self
  intro e member
  obtain ⟨b, _, rfl⟩ := List.mem_map.mp member
  rfl

theorem exists_spread (a : Element) {bs : List Element} (present : bs ≠ []) :
    ∃ spread, Group.choice.ofList (bs.map (Group.sequence.pair a)) = .ok spread := by
  refine ⟨_, ofList_eq_ok_iff.mpr ⟨?_, rfl⟩⟩
  rw [splice_spread]
  exact mt List.map_eq_nil_iff.mp present

end Group

namespace Element
variable {a : Element} {c : Cursor}

theorem advance_spread_of_match (bs : List Element) {next : Cursor} (matched : a.advance c = .matched () next) :
    advanceAny (bs.map (Group.sequence.pair a)) c = advanceAny bs next := by
  induction bs with
  | nil => rfl
  | cons b bs ih =>
    rw [List.map_cons, advanceAny_cons, advanceAny_cons, ih, Group.advance_sequence_pair, matched]
    rfl

theorem advance_spread_of_mismatch (bs : List Element) {errors : List Mismatch}
    (failed : a.advance c = .mismatched errors) :
    advanceAny (bs.map (Group.sequence.pair a)) c = .mismatched (List.replicate bs.length errors).flatten := by
  induction bs with
  | nil => rfl
  | cons b bs ih =>
    rw [List.map_cons, advanceAny_cons, ih, Group.advance_sequence_pair, failed]
    simp [Verdict.andThen, Verdict.orElse, List.replicate_succ]

theorem parse_alike_of_advance_start_eq {x y : Element} {text : String}
    (same : x.advance (.start text) = y.advance (.start text)) :
    (x.parse text).isSuccess = (y.parse text).isSuccess ∧ (x.parse text).errors = (y.parse text).errors ∧
      ∀ root other, x.parse text = .success root → y.parse text = .success other →
        root.text = other.text ∧ root.byteLength = other.byteLength := by
  have summary := congrArg Verdict.summary same
  rw [← summary_parse, ← summary_parse] at summary
  obtain ⟨succeeds, errors⟩ := Outcome.alike_of_summary_eq summary
  refine ⟨succeeds, errors, ?_⟩
  intro root other success parsed
  obtain ⟨again, alsoParsed, used⟩ := exists_parse_of_advance_start_eq same success
  cases parsed.symm.trans alsoParsed
  exact used

/-- Left factoring preserves matching. A choice whose branches all begin with the same element succeeds exactly
where that element followed by the choice of the rests does, with the same text used. When they fail they report
the same, but if it is the common element that does not match, every branch reports it again. What stands behind
every branch cannot be factored out, as a choice does not come back for it. -/
theorem left_factoring (a : Element) (bs : List Element) (present : bs ≠ []) (built : ∀ b ∈ bs, Buildable b) :
    ∃ rests spread, Group.choice.ofList bs = .ok rests ∧
      Group.choice.ofList (bs.map (Group.sequence.pair a)) = .ok spread ∧
      ∀ text,
        ((Group.sequence.pair a rests).parse text).isSuccess = (spread.parse text).isSuccess ∧
        (∀ root other, (Group.sequence.pair a rests).parse text = .success root →
          spread.parse text = .success other → root.text = other.text ∧ root.byteLength = other.byteLength) ∧
        ((a.parse text).isSuccess = true →
          (spread.parse text).errors = ((Group.sequence.pair a rests).parse text).errors) ∧
        ((a.parse text).isFailure = true →
          (spread.parse text).errors =
            (List.replicate bs.length ((Group.sequence.pair a rests).parse text).errors).flatten) := by
  obtain ⟨rests, choice⟩ : ∃ rests, Group.choice.ofList bs = .ok rests :=
    ⟨_, Group.choice.ofList_of_wellFormed present fun b member => (built b member).wellFormed⟩
  obtain ⟨spread, given⟩ := Group.exists_spread a present
  refine ⟨rests, spread, choice, given, ?_⟩
  intro text
  have factored := Group.advance_sequence_pair a rests (.start text)
  have repeated : spread.advance (.start text) = advanceAny (bs.map (Group.sequence.pair a)) (.start text) :=
    Group.advance_of_ofList given (.start text)
  cases result : a.advance (.start text) with
  | matched value next =>
    have same : (Group.sequence.pair a rests).advance (.start text) = spread.advance (.start text) := by
      rw [factored, result, repeated]
      exact (Group.advance_of_ofList choice next).trans (advance_spread_of_match bs result).symm
    obtain ⟨succeeds, errors, used⟩ := parse_alike_of_advance_start_eq same
    obtain ⟨common, matched, _⟩ := parse_of_advance_matched result
    rw [matched]
    exact ⟨succeeds, used, fun _ => errors.symm, nofun⟩
  | mismatched errors =>
    rw [result] at factored
    have again : spread.advance (.start text) = .mismatched (List.replicate bs.length errors).flatten :=
      repeated.trans (advance_spread_of_mismatch bs result)
    rw [parse_of_advance_mismatched result, parse_of_advance_mismatched factored, parse_of_advance_mismatched again]
    exact ⟨rfl, nofun, nofun, fun _ => rfl⟩

theorem left_factoring_of_spliced_choice :
    [alternation ["b", "c"], "d"] ≠ [] ∧ (∀ b ∈ [alternation ["b", "c"], "d"], Buildable b) ∧
      ((concatenation ["a", "a", alternation ["b", "c", "d"]]).parse "aax").errors =
        ((alternation [concatenation ["a", "a", alternation ["b", "c"]], concatenation ["a", "a", "d"]]).parse
          "aax").errors ∧
      ((alternation [concatenation ["a", "a", alternation ["b", "c"]], concatenation ["a", "a", "d"]]).parse
        "ax").errors =
        (List.replicate 2 ((concatenation ["a", "a", alternation ["b", "c", "d"]]).parse "ax").errors).flatten := by
  have built : ∀ b ∈ [alternation ["b", "c"], "d"], Buildable b := by
    simp only [List.forall_mem_cons]
    exact ⟨.pair (.terminal "b") (.terminal "c") .choice, .terminal "d", List.forall_mem_nil _⟩
  have present : [alternation ["b", "c"], "d"] ≠ [] := List.cons_ne_nil _ _
  obtain ⟨rests, spread, choice, given, laws⟩ := left_factoring (concatenation ["a", "a"]) _ present built
  cases choice
  cases given
  obtain ⟨_, _, equal, _⟩ := laws "aax"
  obtain ⟨_, _, _, again⟩ := laws "ax"
  exact ⟨present, built, (equal (by decide)).symm, again (by decide)⟩

example : ((concatenation [alternation ["a", "ab"], "c"]).parse "abc").isSuccess = false ∧
    ((alternation [concatenation ["a", "c"], concatenation ["ab", "c"]]).parse "abc").isSuccess = true := by
  decide

end Element
end Ebnf
