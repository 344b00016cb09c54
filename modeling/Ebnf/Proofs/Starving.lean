import Ebnf.Proofs.Diagnostics
import Ebnf.Proofs.PrefixFree

/-! What a starving diagnostic says about texts that go on. Where choices are decided by one look, a text that
does not match can be completed to one that does exactly if some diagnostic is that a literal starves: then
the text is the beginning of a word, and otherwise nothing that could follow would help. -/
namespace Ebnf

def Mismatch.IsStarving (m : Mismatch) : Prop :=
  ∃ expected found required, m.kind = .starving expected found required

theorem Mismatch.isStarving_ofLiteral_iff {value : String} {c : Cursor} :
    (ofLiteral value c).IsStarving ↔ c.rest <+: value.toList := by
  by_cases ends : c.rest <+: value.toList
  · rw [ofLiteral_starving ends]
    exact iff_of_true ⟨_, _, _, rfl⟩ ends
  · rw [ofLiteral_unexpected ends]
    refine iff_of_false ?_ ends
    rintro ⟨_, _, _, same⟩
    cases same

namespace Run
variable {task : Task} {c : Cursor} {attempts : List Attempt} {errors : List Mismatch}

theorem starving_of_word (run : Run task c attempts (.mismatched errors))
    (decisive : ∀ e ∈ task.elements, e.Decisive) :
    ∀ word ∈ task.language, c.rest <+: word → ∃ m ∈ errors, m.IsStarving := by
  induction run using mismatched_induction with
  | missing absent =>
    rintro word rfl begun
    exact ⟨_, List.mem_singleton_self _, Mismatch.isStarving_ofLiteral_iff.mpr begun⟩
  | brokenSequence parted ih | exhaustedChoice chosen ih =>
    have whole := List.forall_mem_singleton.mp decisive
    exact ih fun part member => whole.child member
  | allStop head ih =>
    have first := List.forall_mem_singleton.mpr (List.forall_mem_cons.mp decisive).1
    rintro _ ⟨u, member, x, _, rfl⟩ begun
    rcases List.prefix_or_prefix_of_prefix begun (List.prefix_append u x) with inside | beyond
    · exact ih first u member inside
    · exact absurd beyond (head.no_word first u member)
  | allBroken head tail ih =>
    obtain ⟨first, later⟩ := List.forall_mem_cons.mp decisive
    rintro _ ⟨u, member, x, rest, rfl⟩ begun
    rw [head.passes.rest] at begun
    exact ih later x rest (first.prefixCode.split head.mem_language member begun).2
  | anyNil => exact fun word none => absurd none (Language.notMem_zero word)
  | anyNone head tail headIH tailIH =>
    obtain ⟨first, later⟩ := List.forall_mem_cons.mp decisive
    rintro word (member | member) begun
    · obtain ⟨m, listed, starving⟩ := headIH (List.forall_mem_singleton.mpr first) word member begun
      exact ⟨m, List.mem_append_left _ listed, starving⟩
    · obtain ⟨m, listed, starving⟩ := tailIH later word member begun
      exact ⟨m, List.mem_append_right _ listed, starving⟩

end Run

namespace Element

theorem exists_mem_languageAll {parts : List Element} (each : ∀ e ∈ parts, ∃ word, word ∈ e.language) :
    ∃ word, word ∈ languageAll parts := by
  induction parts with
  | nil => exact ⟨[], Language.nil_mem_one⟩
  | cons e es ih =>
    obtain ⟨head, tail⟩ := List.forall_mem_cons.mp each
    obtain ⟨u, first⟩ := head
    obtain ⟨x, rest⟩ := ih tail
    exact ⟨u ++ x, Language.append_mem_mul first rest⟩

theorem exists_mem_language {e : Element} (formed : e.wellFormed = true) : ∃ word, word ∈ e.language := by
  induction e with
  | terminal value => exact ⟨value.toList, rfl⟩
  | concatenation parts each =>
    exact exists_mem_languageAll fun part member => each part member (wellFormed_child formed member)
  | alternation branches each =>
    have branched : (Group.choice.ofParts branches).wellFormed = true := formed
    obtain ⟨branch, member⟩ := List.exists_mem_of_ne_nil branches (wellFormed_ofParts_iff.mp branched).1
    obtain ⟨word, listed⟩ := each branch member (wellFormed_child formed member)
    exact ⟨word, mem_languageAny_iff.mpr ⟨branch, member, listed⟩⟩
  | repetition inner ih => exact ⟨[], Language.nil_mem_kstar _⟩

end Element

/-- If something starves, the text at the cursor begins a word: the literal that starves and any words of what
was to come behind it complete the text. -/
theorem Run.word_of_starving {task : Task} {c : Cursor} {attempts : List Attempt} {errors : List Mismatch}
    (run : Run task c attempts (.mismatched errors)) (formed : ∀ e ∈ task.elements, e.wellFormed = true) :
    ∀ m ∈ errors, m.IsStarving → ∃ word ∈ task.language, c.rest <+: word := by
  induction run using mismatched_induction with
  | missing absent =>
    rintro m listed starving
    rw [List.mem_singleton.mp listed] at starving
    exact ⟨_, rfl, Mismatch.isStarving_ofLiteral_iff.mp starving⟩
  | brokenSequence parted ih | exhaustedChoice chosen ih =>
    have whole := List.forall_mem_singleton.mp formed
    exact ih fun part member => Element.wellFormed_child whole member
  | allStop head ih =>
    obtain ⟨first, later⟩ := List.forall_mem_cons.mp formed
    intro m listed starving
    obtain ⟨u, member, begun⟩ := ih (List.forall_mem_singleton.mpr first) m listed starving
    obtain ⟨x, rest⟩ := Element.exists_mem_languageAll fun e among => Element.exists_mem_language (later e among)
    exact ⟨u ++ x, Language.append_mem_mul member rest, begun.trans (List.prefix_append u x)⟩
  | allBroken head tail ih =>
    obtain ⟨first, later⟩ := List.forall_mem_cons.mp formed
    intro m listed starving
    obtain ⟨x, rest, begun⟩ := ih later m listed starving
    refine ⟨_, Language.append_mem_mul head.mem_language rest, ?_⟩
    rw [head.passes.rest]
    exact (List.prefix_append_right_inj _).mpr begun
  | anyNil => exact List.forall_mem_nil _
  | anyNone head tail headIH tailIH =>
    obtain ⟨first, later⟩ := List.forall_mem_cons.mp formed
    intro m listed starving
    rcases List.mem_append.mp listed with inHead | inTail
    · obtain ⟨word, member, begun⟩ := headIH (List.forall_mem_singleton.mpr first) m inHead starving
      exact ⟨word, .inl member, begun⟩
    · obtain ⟨word, member, begun⟩ := tailIH later m inTail starving
      exact ⟨word, .inr member, begun⟩

namespace Element

/-- A text that does not match can be completed to one that does exactly if a literal starves. An element that is
not decisive may have given up the branch that could be completed. -/
theorem completable_iff_starving (e : Element) (built : Buildable e) (decisive : e.Decisive) (text : String)
    (fails : (e.parse text).isFailure = true) :
    (∃ more, (e.parse (text ++ more)).isSuccess = true) ↔ ∃ m ∈ (e.parse text).errors, m.IsStarving := by
  cases result : e.parse text with
  | success root =>
    rw [result] at fails
    cases fails
  | failure failing errors =>
    obtain ⟨rfl, attempts, run⟩ := parse_eq_failure_iff.mp result
    have choices := List.forall_mem_singleton.mpr decisive
    constructor
    · rintro ⟨more, success⟩
      obtain ⟨word, member, starts⟩ := (decisive.isSuccess_iff _).mp success
      rw [String.toList_append] at starts
      rcases List.prefix_or_prefix_of_prefix starts (List.prefix_append _ _) with within | begun
      · exact absurd within (run.no_word choices word member)
      · exact run.starving_of_word choices word member begun
    · rintro ⟨m, listed, starving⟩
      obtain ⟨word, member, more, whole⟩ :=
        run.word_of_starving (List.forall_mem_singleton.mpr built.wellFormed) m listed starving
      refine ⟨String.ofList more, (decisive.isSuccess_iff _).mpr ⟨word, member, ?_⟩⟩
      rw [String.toList_append, String.toList_ofList, ← whole]
      exact List.prefix_refl _

example : ((concatenation [alternation ["abc", "a"], "d"]).parse "ab").errorMessages =
      ["unexpected 'b', expected 'd' at offset 1"] ∧
    ((concatenation [alternation ["abc", "a"], "d"]).parse ("ab" ++ "cd")).isSuccess = true := by decide

theorem completable_iff_starving_of_mixed_diagnostics :
    Buildable (concatenation ["x", alternation ["ab", "cä"]]) ∧
      (concatenation ["x", alternation ["ab", "cä"]]).Decisive ∧
      (concatenation ["x", alternation ["ab", "cä"]]).parse "xa" =
        .failure (concatenation ["x", alternation ["ab", "cä"]])
          [⟨1, .starving "ab" 1 2⟩, ⟨1, .unexpected "a" "cä"⟩] ∧
      (∃ more, ((concatenation ["x", alternation ["ab", "cä"]]).parse ("xa" ++ more)).isSuccess = true) ∧
      ¬ ∃ more, ((concatenation ["x", alternation ["ab", "cä"]]).parse ("xb" ++ more)).isSuccess = true := by
  have built : Buildable (concatenation ["x", alternation ["ab", "cä"]]) :=
    .pair (.terminal "x") (.pair (.terminal "ab") (.terminal "cä") .choice) .sequence
  have two : ∀ word ∈ languageAny ["ab", "cä"], word.length = 2 := by
    rintro word (rfl | rfl | none)
    · decide
    · decide
    · cases none
  have choice : (alternation ["ab", "cä"]).Decisive :=
    .alternation (List.forall_mem_cons.mpr ⟨.terminal "ab", List.forall_mem_singleton.mpr (.terminal "cä")⟩)
      (.of_length two)
  have decisive : (concatenation ["x", alternation ["ab", "cä"]]).Decisive :=
    .concatenation (List.forall_mem_cons.mpr ⟨.terminal "x", List.forall_mem_singleton.mpr choice⟩)
  have parsed : (concatenation ["x", alternation ["ab", "cä"]]).parse "xa" =
      .failure (concatenation ["x", alternation ["ab", "cä"]])
        [⟨1, .starving "ab" 1 2⟩, ⟨1, .unexpected "a" "cä"⟩] := by decide
  have refused : (concatenation ["x", alternation ["ab", "cä"]]).parse "xb" =
      .failure (concatenation ["x", alternation ["ab", "cä"]])
        [⟨1, .unexpected "b" "ab"⟩, ⟨1, .unexpected "b" "cä"⟩] := by decide
  refine ⟨built, decisive, parsed, ?_, ?_⟩
  · apply (completable_iff_starving _ built decisive "xa" (by rw [parsed]; rfl)).mpr
    rw [parsed]
    exact ⟨_, List.mem_cons_self, _, _, _, rfl⟩
  · intro completable
    have starving := (completable_iff_starving _ built decisive "xb" (by rw [refused]; rfl)).mp completable
    rw [refused] at starving
    simp [Outcome.errors, Mismatch.IsStarving] at starving

end Element
end Ebnf
