import Ebnf.Proofs.Opened
import Ebnf.Proofs.Parts
import Ebnf.Proofs.Words

/-! Where no word of a choice begins another, a choice once made never has to be taken back: without
repetitions, an element matches whenever one of its words begins the text, and it takes just that word. -/
namespace Ebnf

def PrefixCode (words : Language Char) : Prop := ∀ u ∈ words, ∀ v ∈ words, u <+: v → u = v

namespace PrefixCode
variable {words further : Language Char}

/-- Where a word ends is settled by the text, whatever follows. -/
theorem split (code : PrefixCode words) {u v : List Char} (first : u ∈ words) (second : v ∈ words)
    {x y : List Char} (starts : u ++ x <+: v ++ y) : u = v ∧ x <+: y := by
  have same : u = v := by
    rcases List.prefix_or_prefix_of_prefix ((List.prefix_append u x).trans starts) (List.prefix_append v y)
      with shorter | longer
    · exact code u first v second shorter
    · exact (code v second u first longer).symm
  subst same
  exact ⟨rfl, (List.prefix_append_right_inj u).mp starts⟩

theorem unique (code : PrefixCode words) {u v text : List Char} (first : u ∈ words) (second : v ∈ words)
    (here : u <+: text) (there : v <+: text) : u = v := by
  obtain ⟨rest, rfl⟩ := there
  rw [← List.append_nil u] at here
  exact (code.split first second here).1

theorem of_length {n : Nat} (same : ∀ word ∈ words, word.length = n) : PrefixCode words :=
  fun u first v second starts => starts.eq_of_length ((same u first).trans (same v second).symm)

theorem singleton (word : List Char) : PrefixCode {word} := by
  intro u first v second _
  rw [Set.mem_singleton_iff.mp first, Set.mem_singleton_iff.mp second]

theorem mul (code : PrefixCode words) (other : PrefixCode further) : PrefixCode (words * further) := by
  rintro _ ⟨u, first, x, firstRest, rfl⟩ _ ⟨v, second, y, secondRest, rfl⟩ starts
  obtain ⟨rfl, later⟩ := code.split first second starts
  rw [other x firstRest y secondRest later]

theorem languageAll {parts : List Element} (each : ∀ e ∈ parts, PrefixCode e.language) :
    PrefixCode (Element.languageAll parts) := by
  induction parts with
  | nil => exact singleton []
  | cons e es ih =>
    obtain ⟨head, tail⟩ := List.forall_mem_cons.mp each
    exact head.mul (ih tail)

end PrefixCode

namespace Element

structure Decisive (e : Element) : Prop where
  plain : e.Everywhere fun part => part.isRepetition = false
  prefixFree : e.PrefixFree

theorem decisive_iff {e : Element} : e.Decisive ↔
    e.isRepetition = false ∧ (e.isAlternation = true → PrefixCode e.language) ∧
      ∀ child ∈ e.children, child.Decisive := by
  constructor
  · rintro ⟨plain, prefixFree⟩
    have choices : e.Everywhere fun choice => choice.isAlternation = true → PrefixCode choice.language := prefixFree
    exact ⟨plain.here, choices.here, fun child member => ⟨plain.child member, choices.child member⟩⟩
  · rintro ⟨plain, code, children⟩
    exact ⟨everywhere_iff.mpr ⟨plain, fun child member => (children child member).plain⟩,
      everywhere_iff.mpr ⟨code, fun child member => (children child member).prefixFree⟩⟩

namespace Decisive
variable {e : Element}

theorem child {part : Element} (decisive : e.Decisive) (member : part ∈ e.children) : part.Decisive :=
  (decisive_iff.mp decisive).2.2 part member

theorem terminal (value : String) : (Element.terminal value).Decisive :=
  decisive_iff.mpr ⟨rfl, nofun, List.forall_mem_nil _⟩

theorem concatenation {parts : List Element} (each : ∀ part ∈ parts, part.Decisive) :
    (Element.concatenation parts).Decisive :=
  decisive_iff.mpr ⟨rfl, nofun, each⟩

theorem alternation {branches : List Element} (each : ∀ branch ∈ branches, branch.Decisive)
    (code : PrefixCode (languageAny branches)) : (Element.alternation branches).Decisive :=
  decisive_iff.mpr ⟨rfl, fun _ => code, each⟩

theorem prefixCode (decisive : e.Decisive) : PrefixCode e.language := by
  induction e with
  | terminal value => exact .singleton value.toList
  | concatenation parts each =>
    exact .languageAll fun part member => each part member (decisive.child member)
  | alternation branches each => exact (decisive_iff.mp decisive).2.1 rfl
  | repetition inner ih => cases (decisive_iff.mp decisive).1

end Decisive
end Element

/-- A mismatch is final: no word of the task begins the text, so no other choice could have helped. -/
theorem Run.no_word {task : Task} {c : Cursor} {attempts : List Attempt} {errors : List Mismatch}
    (run : Run task c attempts (.mismatched errors)) (decisive : ∀ e ∈ task.elements, e.Decisive) :
    ∀ word ∈ task.language, ¬ word <+: c.rest := by
  induction run using mismatched_induction with
  | missing absent =>
    rintro word rfl
    exact Cursor.skip?_eq_none_iff.mp absent
  | brokenSequence parted ih | exhaustedChoice chosen ih =>
    have whole := List.forall_mem_singleton.mp decisive
    exact ih fun part member => whole.child member
  | allStop head ih =>
    have first := (List.forall_mem_cons.mp decisive).1
    rintro _ ⟨u, member, x, _, rfl⟩ starts
    exact ih (List.forall_mem_singleton.mpr first) u member ((List.prefix_append u x).trans starts)
  | allBroken head tail ih =>
    obtain ⟨first, later⟩ := List.forall_mem_cons.mp decisive
    rintro _ ⟨u, member, x, rest, rfl⟩ starts
    rw [head.passes.rest] at starts
    exact ih later x rest (first.prefixCode.split member head.mem_language starts).2
  | anyNil => exact fun word none => absurd none (Language.notMem_zero word)
  | anyNone head tail headIH tailIH =>
    obtain ⟨first, later⟩ := List.forall_mem_cons.mp decisive
    rintro word (member | member)
    · exact headIH (List.forall_mem_singleton.mpr first) word member
    · exact tailIH later word member

namespace Element

theorem Decisive.isSuccess_iff {e : Element} (decisive : e.Decisive) (text : String) :
    (e.parse text).isSuccess = true ↔ ∃ word ∈ e.language, word <+: text.toList := by
  cases result : e.parse text with
  | success root =>
    obtain ⟨attempts, next, run⟩ := parse_eq_success_iff.mp result
    exact iff_of_true rfl ⟨_, run.starts_with_word⟩
  | failure failing errors =>
    obtain ⟨rfl, attempts, run⟩ := parse_eq_failure_iff.mp result
    have none := run.no_word (List.forall_mem_singleton.mpr decisive)
    refine iff_of_false Bool.false_ne_true ?_
    rintro ⟨word, member, starts⟩
    exact none word member starts

/-- A decisive element matches exactly where one of its words begins the text. There is only one such word,
and it is what the match uses. Where words of a choice begin one another, the choice may be made too early. -/
theorem parse_exact_of_prefixFree (e : Element) (decisive : e.Decisive) (text : String) :
    ((e.parse text).isSuccess = true ↔ ∃ word ∈ e.language, word <+: text.toList) ∧
      ∀ root, e.parse text = .success root →
        root.byteLength = Text.byteLength root.text.toList ∧
          ∀ word, word ∈ e.language ∧ word <+: text.toList ↔ word = root.text.toList := by
  refine ⟨decisive.isSuccess_iff text, ?_⟩
  intro root success
  obtain ⟨attempts, next, run⟩ := parse_eq_success_iff.mp success
  obtain ⟨member, starts⟩ := run.starts_with_word
  refine ⟨?_, ?_⟩
  · rw [root.byteLength_eq_utf8ByteSize, Text.byteLength_toList]
  · intro word
    constructor
    · rintro ⟨other, begins⟩
      exact decisive.prefixCode.unique other member begins starts
    · rintro rfl
      exact ⟨member, starts⟩

example : ((concatenation [alternation ["a", "ab"], "c"]).parse "abc").isFailure = true := by decide

theorem parse_exact_of_prefixFree_of_committed_branch :
    (concatenation [alternation ["ab", concatenation ["a", "ä"]], "c"]).Decisive ∧
      (concatenation [alternation ["ab", concatenation ["a", "ä"]], "c"]).parse "aäcc" =
        .success (.concatenation (concatenation [alternation ["ab", concatenation ["a", "ä"]], "c"])
          [.alternation (alternation ["ab", concatenation ["a", "ä"]])
              (.concatenation (concatenation ["a", "ä"]) [.terminal "a" "a", .terminal "ä" "ä"]),
            .terminal "c" "c"]) ∧
      ∀ word, word ∈ (concatenation [alternation ["ab", concatenation ["a", "ä"]], "c"]).language ∧
        word <+: "aäcc".toList ↔ word = "aäc".toList := by
  have two : ∀ word ∈ languageAny ["ab", concatenation ["a", "ä"]], word.length = 2 := by
    rintro word (rfl | ⟨_, rfl, _, ⟨_, rfl, _, rfl, rfl⟩, rfl⟩ | none)
    · decide
    · decide
    · cases none
  have branch : (concatenation ["a", "ä"]).Decisive :=
    .concatenation (List.forall_mem_cons.mpr ⟨.terminal "a", List.forall_mem_singleton.mpr (.terminal "ä")⟩)
  have choice : (alternation ["ab", concatenation ["a", "ä"]]).Decisive :=
    .alternation (List.forall_mem_cons.mpr ⟨.terminal "ab", List.forall_mem_singleton.mpr branch⟩) (.of_length two)
  have decisive : (concatenation [alternation ["ab", concatenation ["a", "ä"]], "c"]).Decisive :=
    .concatenation (List.forall_mem_cons.mpr ⟨choice, List.forall_mem_singleton.mpr (.terminal "c")⟩)
  have parsed : (concatenation [alternation ["ab", concatenation ["a", "ä"]], "c"]).parse "aäcc" =
      .success (.concatenation (concatenation [alternation ["ab", concatenation ["a", "ä"]], "c"])
        [.alternation (alternation ["ab", concatenation ["a", "ä"]])
            (.concatenation (concatenation ["a", "ä"]) [.terminal "a" "a", .terminal "ä" "ä"]),
          .terminal "c" "c"]) := by decide
  exact ⟨decisive, parsed, ((parse_exact_of_prefixFree _ decisive "aäcc").2 _ parsed).2⟩

end Element
end Ebnf
