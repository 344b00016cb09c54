import Ebnf.Node.Placement

/-! What a tree says about its text. Length and text are taken from the children by two separate recursions, and a
tree made by hand need not have the children that its element asks for. On every tree the two agree all the
same, as both depend on nothing but its terminal nodes and their order. -/
namespace Ebnf

theorem Text.join_eq_empty_iff {texts : List String} : String.join texts = "" ↔ ∀ text ∈ texts, text = "" := by
  induction texts with
  | nil => exact iff_of_true rfl (List.forall_mem_nil _)
  | cons text texts ih => rw [String.join_cons, String.append_eq_empty_iff, ih, List.forall_mem_cons]

namespace Node

def terminalTexts (lines : List (Nat × Node)) : List String := lines.filterMap fun line => line.2.terminalText?

theorem terminalTexts_append (lines more : List (Nat × Node)) :
    terminalTexts (lines ++ more) = terminalTexts lines ++ terminalTexts more := List.filterMap_append

theorem terminalText?_eq_some_iff {n : Node} {text : String} :
    n.terminalText? = some text ↔ ∃ element, n = .terminal element text := by
  cases n <;> simp [terminalText?]

theorem forall_terminalTexts_iff {lines : List (Nat × Node)} {P : String → Prop} :
    (∀ text ∈ terminalTexts lines, P text) ↔
      ∀ depth element text, (depth, .terminal element text) ∈ lines → P text := by
  unfold terminalTexts
  rw [List.forall_mem_filterMap]
  constructor
  · intro all depth element text member
    exact all _ member text rfl
  · rintro all ⟨depth, n⟩ member text found
    obtain ⟨element, rfl⟩ := terminalText?_eq_some_iff.mp found
    exact all depth element text member

theorem join_terminalTexts_preorderAll {ns : List Node}
    (each : ∀ n ∈ ns, ∀ depth, String.join (terminalTexts (n.preorder depth)) = n.text) (depth : Nat) :
    String.join (terminalTexts (preorderAll depth ns)) = textAll ns := by
  induction ns with
  | nil => rfl
  | cons n ns ih =>
    obtain ⟨head, tail⟩ := List.forall_mem_cons.mp each
    rw [preorderAll, terminalTexts_append, String.join_append, head depth, ih tail, textAll]

theorem join_terminalTexts_preorder (depth : Nat) (n : Node) :
    String.join (terminalTexts (n.preorder depth)) = n.text := by
  induction n generalizing depth with
  | terminal element text => rfl
  | concatenation element children each | repetition element children each =>
    exact join_terminalTexts_preorderAll each (depth + 1)
  | alternation element child ih => exact ih (depth + 1)

theorem isEmpty_iff {n : Node} : n.isEmpty = true ↔ n.text = "" := by
  rw [isEmpty, beq_iff_eq, byteLength_eq_utf8ByteSize, String.utf8ByteSize_eq_zero_iff]

/-- The length of a tree is the length of its text, and its text is that of its terminal nodes, one behind the other
as they come in the tree. So a tree is empty exactly if it has no text, that is, if no terminal node in it has
any. -/
theorem length_and_text_agree (n : Node) :
    n.byteLength = n.text.utf8ByteSize ∧ n.text = String.join (terminalTexts n.outline) ∧
      (n.isEmpty = true ↔ n.text = "") ∧
      (n.isEmpty = true ↔ ∀ depth element text, (depth, .terminal element text) ∈ n.outline → text = "") := by
  have whole : String.join (terminalTexts n.outline) = n.text := join_terminalTexts_preorder 0 n
  refine ⟨n.byteLength_eq_utf8ByteSize, whole.symm, isEmpty_iff, ?_⟩
  rw [isEmpty_iff, ← whole, Text.join_eq_empty_iff]
  exact forall_terminalTexts_iff

theorem length_and_text_agree_of_unfit_trees :
    (alternation "a" (repetition "ä" [terminal (.repetition "a") "äb", concatenation "" [],
        terminal "" "c"])).text = "äbc" ∧
      (alternation "a" (repetition "ä" [terminal (.repetition "a") "äb", concatenation "" [],
        terminal "" "c"])).byteLength = 4 ∧
      (∀ depth element text,
        (depth, terminal element text) ∈ (concatenation "x" [terminal "a" "", repetition "b" []]).outline →
          text = "") ∧
      (concatenation "x" [terminal "a" "", repetition "b" []]).isEmpty = true := by
  obtain ⟨length, joined, _⟩ := length_and_text_agree
    (alternation "a" (repetition "ä" [terminal (.repetition "a") "äb", concatenation "" [], terminal "" "c"]))
  obtain ⟨_, _, _, empty⟩ := length_and_text_agree (concatenation "x" [terminal "a" "", repetition "b" []])
  have spelled := joined.trans (by decide : _ = "äbc")
  have silent : ∀ depth element text,
      (depth, terminal element text) ∈ (concatenation "x" [terminal "a" "", repetition "b" []]).outline →
        text = "" := forall_terminalTexts_iff.mp (by decide)
  rw [spelled] at length
  exact ⟨spelled, length.trans (by decide), silent, empty.mpr silent⟩

end Node
end Ebnf
