import Ebnf.Proofs.Diagnostics
import Ebnf.Proofs.Grouping
import Ebnf.Proofs.Opened
import Ebnf.Proofs.Parts

/-! What building guarantees to a match. At every depth a built group holds something and no direct part of
its own kind, splicing keeps all literals in their order, and nothing that is tried inside a match fails
without a diagnostic. -/
namespace Ebnf

namespace Group
variable {group : Group}

theorem ofList_eq_error_iff {operands : List Element} {error : BuildError}
    (formed : ∀ e ∈ operands, e.wellFormed = true) :
    group.ofList operands = .error error ↔ operands = [] ∧ error = .emptyOperands group := by
  constructor
  · intro refused
    by_cases present : operands = []
    · subst present
      cases refused
      exact ⟨rfl, rfl⟩
    · rw [group.ofList_of_wellFormed present formed] at refused
      cases refused
  · rintro ⟨rfl, rfl⟩
    rfl

theorem terminals_ofParts (group : Group) (parts : List Element) :
    (group.ofParts parts).terminals = parts.flatMap Element.terminals := by
  cases group <;> exact Element.terminalsAll_eq_flatMap parts

theorem terminals_contribution (group : Group) (operand : Element) :
    (group.contribution operand).flatMap Element.terminals = operand.terminals := by
  cases own : group.owns operand with
  | true =>
    obtain ⟨parts, rfl⟩ := eq_ofParts_of_owns own
    rw [contribution_ofParts, terminals_ofParts]
  | false => rw [contribution_eq_singleton own, List.flatMap_singleton]

/-- Splicing loses no literal, takes none twice and leaves them in their order. -/
theorem terminals_ofParts_splice (group : Group) (operands : List Element) :
    (group.ofParts (group.splice operands)).terminals = operands.flatMap Element.terminals := by
  rw [terminals_ofParts]
  induction operands with
  | nil => rfl
  | cons e es ih => rw [splice_cons, List.flatMap_append, terminals_contribution, ih, List.flatMap_cons]

theorem Makes.terminals {operands : List Element} {whole : Element} (made : group.Makes operands (.ok whole)) :
    whole.terminals = operands.flatMap Element.terminals := by
  generalize result : Except.ok whole = built at made
  cases made with
  | ofList =>
    obtain ⟨_, rfl⟩ := ofList_eq_ok_iff.mp result.symm
    exact group.terminals_ofParts_splice operands
  | ofCons first rest =>
    cases result
    exact group.terminals_ofParts_splice (first :: rest)
  | pair left right =>
    cases result
    exact group.terminals_ofParts_splice [left, right]

end Group

namespace Element

def Flat (e : Element) : Prop :=
  ∀ group : Group, group.owns e = true → e.children ≠ [] ∧ ∀ child ∈ e.children, group.owns child = false

namespace Buildable
variable {e : Element}

theorem flat (built : Buildable e) : e.Flat := by
  intro group own
  obtain ⟨parts, rfl⟩ := Group.eq_ofParts_of_owns own
  obtain ⟨present, apart, _⟩ := wellFormed_ofParts_iff.mp built.wellFormed
  rw [Group.children_ofParts]
  exact ⟨present, apart⟩

theorem everywhere {P : Element → Prop} (all : ∀ {e}, Buildable e → P e) (built : Buildable e) :
    e.Everywhere P := by
  induction e using children_induction with
  | step e each => exact everywhere_iff.mpr ⟨all built, fun child member => each child member (.part built member)⟩

theorem errors_ne_nil (built : Buildable e) {c : Cursor} {a : Attempt} (opened : a ∈ (e.attempt c).opened)
    {errors : List Mismatch} (failed : a.verdict = .mismatched errors) : errors ≠ [] := by
  obtain ⟨⟨whole, among, inside⟩, _, own⟩ := belongs_of_opened opened
  cases List.mem_singleton.mp among
  have run := a.element.attempt_run a.start
  rw [← own, failed] at run
  exact run.errors_ne_nil (built.within inside).wellFormed

end Buildable

/-- Whatever is built is flat at every depth, refused only without operands, and spelled with the literals of
its operands; and whatever is tried in matching it fails for a reason, which an empty choice need not. -/
theorem buildable_invariant {e : Element} (built : Buildable e) (group : Group) {operands : List Element}
    (each : ∀ x ∈ operands, Buildable x) :
    e.Everywhere Flat ∧
      (∀ error, group.ofList operands = .error error ↔ operands = [] ∧ error = .emptyOperands group) ∧
      (∀ whole, group.Makes operands (.ok whole) → whole.terminals = operands.flatMap terminals) ∧
      ∀ text, ∀ a ∈ (e.attempt (.start text)).opened, ∀ errors, a.verdict = .mismatched errors →
        errors ≠ [] := by
  refine ⟨built.everywhere Buildable.flat, ?_, ?_, ?_⟩
  · intro error
    exact Group.ofList_eq_error_iff fun x member => (each x member).wellFormed
  · intro whole made
    exact made.terminals
  · intro text a opened errors failed
    exact built.errors_ne_nil opened failed

example : (alternation []).parse "a" = .failure (alternation []) [] := by decide

theorem buildable_invariant_of_nested_groups :
    (∀ x ∈ [concatenation ["a", "b"], alternation ["c", concatenation ["d", "a"]]], Buildable x) ∧
      Buildable (repetition (concatenation ["a", "b", alternation ["c", concatenation ["d", "a"]]])) ∧
      (repetition (concatenation ["a", "b", alternation ["c", concatenation ["d", "a"]]])).Everywhere Flat ∧
      (concatenation ["a", "b", alternation ["c", concatenation ["d", "a"]]]).terminals =
        ["a", "b", "c", "d", "a"] ∧
      ∀ errors, (attempt (alternation ["c", concatenation ["d", "a"]]) ⟨['d'], 2⟩).verdict = .mismatched errors →
        errors ≠ [] := by
  have choice : Buildable (alternation ["c", concatenation ["d", "a"]]) :=
    .pair (.terminal "c") (.pair (.terminal "d") (.terminal "a") .sequence) .choice
  have operands : ∀ x ∈ [concatenation ["a", "b"], alternation ["c", concatenation ["d", "a"]]], Buildable x := by
    simp only [List.forall_mem_cons]
    exact ⟨.pair (.terminal "a") (.terminal "b") .sequence, choice, List.forall_mem_nil _⟩
  have whole : Group.sequence.Makes [concatenation ["a", "b"], alternation ["c", concatenation ["d", "a"]]]
      (.ok (concatenation ["a", "b", alternation ["c", concatenation ["d", "a"]]])) := .pair _ _
  have sequence : Buildable
      (Group.sequence.ofCons (concatenation ["a", "b"]) [alternation ["c", concatenation ["d", "a"]]]) :=
    .ofCons operands
  have built : Buildable (repetition (concatenation ["a", "b", alternation ["c", concatenation ["d", "a"]]])) :=
    .repetition sequence
  obtain ⟨flat, _, spelled, grounded⟩ := buildable_invariant built .sequence operands
  have tried : ((repetition (concatenation ["a", "b", alternation ["c", concatenation ["d", "a"]]])).attempt
      (.start "abd")).opened[4]? = some (attempt (alternation ["c", concatenation ["d", "a"]]) ⟨['d'], 2⟩) := rfl
  exact ⟨operands, built, flat, spelled _ whole, grounded "abd" _ (List.mem_of_getElem? tried)⟩

end Element
end Ebnf
