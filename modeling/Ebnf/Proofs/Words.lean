import Ebnf.Element.Language
import Ebnf.Proofs.Adequacy

/-! Whatever is matched is a word: the text that a match uses belongs to the language of the element, in
which a choice is a union without an order and a repetition takes words as often as one likes. -/
namespace Ebnf
open Computability

def Task.language : Task → Language Char
  | .one e => e.language
  | .all parts => Element.languageAll parts
  | .any branches => Element.languageAny branches
  | .rounds inner => inner.language∗

/-- A match uses a word of its task. -/
theorem Run.mem_language {task : Task} {c next : Cursor} {attempts : List Attempt} {nodes : List Node}
    (run : Run task c attempts (.matched nodes next)) : (Node.textAll nodes).toList ∈ task.language := by
  induction run using matched_induction with
  | @found value c next here =>
    rw [Node.textAll_singleton]
    exact Set.mem_singleton value.toList
  | sequence parted ih | choice chosen ih | repetition looped ih =>
    simpa [Node.text, Task.language, Element.language] using ih
  | allNil => exact Language.nil_mem_one
  | allCons head tail headIH tailIH =>
    have joined := Language.append_mem_mul headIH tailIH
    simpa [Node.textAll, Task.language, Element.languageAll] using joined
  | anyFirst head ih => exact Or.inl ih
  | anyLater head tail ih => exact Or.inr ih
  | usedUp | blocked | idle => exact Language.nil_mem_kstar _
  | @again inner _ _ _ _ _ _ _ more round moved further roundIH furtherIH =>
    have joined := Language.append_mem_mul roundIH furtherIH
    have repeated : _ ∈ inner.language∗ := mul_kstar_le_kstar (a := inner.language) joined
    simpa [Node.textAll, Task.language] using repeated

theorem Run.starts_with_word {e : Element} {c next : Cursor} {attempts : List Attempt} {node : Node}
    (run : Run (.one e) c attempts (.matched [node] next)) :
    node.text.toList ∈ e.language ∧ node.text.toList <+: c.rest := by
  have member := run.mem_language
  rw [Node.textAll_singleton] at member
  exact ⟨member, next.rest, run.passes_of_single.rest.symm⟩

namespace Element

/-- The matched text is a word of the element that begins the text; where no word does, there is no match. -/
theorem matched_text_mem_language (e : Element) (text : String) :
    (∀ root, e.parse text = .success root →
        root.text.toList ∈ e.language ∧ root.text.toList <+: text.toList) ∧
      ((∀ word ∈ e.language, ¬ word <+: text.toList) → (e.parse text).isFailure = true) := by
  have word : ∀ root, e.parse text = .success root →
      root.text.toList ∈ e.language ∧ root.text.toList <+: text.toList := by
    intro root success
    obtain ⟨attempts, next, run⟩ := parse_eq_success_iff.mp success
    have member := run.mem_language
    rw [Node.textAll_singleton] at member
    exact ⟨member, next.rest, run.passes_of_single.rest.symm⟩
  refine ⟨word, ?_⟩
  intro none
  cases result : e.parse text with
  | success root =>
    obtain ⟨member, starts⟩ := word root result
    exact absurd starts (none _ member)
  | failure failing errors => rfl

theorem matched_text_mem_language_of_repeated_choice :
    "abaä".toList ∈ (concatenation [repetition (alternation ["ab", "a"]), "ä"]).language ∧
      (∀ word ∈ (concatenation [repetition (alternation ["ab", "a"]), "ä"]).language, ¬ word <+: "aab".toList) ∧
      ((concatenation [repetition (alternation ["ab", "a"]), "ä"]).parse "aab").isFailure = true := by
  have parsed : (concatenation [repetition (alternation ["ab", "a"]), "ä"]).parse "abaä!" =
      .success (.concatenation (concatenation [repetition (alternation ["ab", "a"]), "ä"])
        [.repetition (repetition (alternation ["ab", "a"]))
            [.alternation (alternation ["ab", "a"]) (.terminal "ab" "ab"),
              .alternation (alternation ["ab", "a"]) (.terminal "a" "a")],
          .terminal "ä" "ä"]) := by decide
  have none : ∀ word ∈ (concatenation [repetition (alternation ["ab", "a"]), "ä"]).language,
      ¬ word <+: "aab".toList := by
    rintro word ⟨first, _, last, ⟨_, rfl, _, rfl, rfl⟩, rfl⟩ starts
    have held : 'ä' ∈ "aab".toList := starts.subset (by simp)
    exact absurd held (by decide)
  exact ⟨((matched_text_mem_language _ "abaä!").1 _ parsed).1, none, (matched_text_mem_language _ "aab").2 none⟩

end Element
end Ebnf
