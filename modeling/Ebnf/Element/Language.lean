import Mathlib.Computability.Language
import Ebnf.Element.Basic

/-! The words of an element, as a regular language: a choice is a union here, without an order. -/
namespace Ebnf.Element
open Computability

mutual
def language : Element → Language Char
  | .terminal value => {value.toList}
  | .concatenation parts => languageAll parts
  | .alternation branches => languageAny branches
  | .repetition inner => inner.language∗

def languageAll : List Element → Language Char
  | [] => 1
  | e :: es => e.language * languageAll es

def languageAny : List Element → Language Char
  | [] => 0
  | e :: es => e.language + languageAny es
end

/-- Whether no word of any choice in the element begins another word of that choice. -/
def PrefixFree (e : Element) : Prop :=
  ∀ depth choice, (depth, choice) ∈ e.outline → choice.isAlternation →
    ∀ u ∈ choice.language, ∀ v ∈ choice.language, u <+: v → u = v

theorem mem_languageAny_iff {branches : List Element} {word : List Char} :
    word ∈ languageAny branches ↔ ∃ e ∈ branches, word ∈ e.language := by
  induction branches with
  | nil => simp [languageAny, Language.notMem_zero]
  | cons e es ih => rw [languageAny, Language.mem_add, ih]; simp

end Ebnf.Element
