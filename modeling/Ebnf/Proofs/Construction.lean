import Ebnf.Element.WellFormed

/-! Building keeps its promise: whatever is built, and every part of it, is well formed. -/
namespace Ebnf

def Group.owns : Group → Element → Bool
  | .sequence => Element.isConcatenation
  | .choice => Element.isAlternation

theorem Group.eq_ofParts_of_owns {group : Group} {e : Element} (own : group.owns e = true) :
    ∃ parts, e = group.ofParts parts := by
  cases group <;> cases e <;> simp_all [owns, ofParts, Element.isConcatenation, Element.isAlternation]

theorem Group.children_ofParts (group : Group) (parts : List Element) :
    (group.ofParts parts).children = parts := by
  cases group <;> rfl

theorem Group.contribution_eq_children {group : Group} {e : Element} (own : group.owns e = true) :
    group.contribution e = e.children := by
  obtain ⟨parts, rfl⟩ := eq_ofParts_of_owns own
  rw [contribution_ofParts, children_ofParts]

theorem Group.contribution_eq_singleton {group : Group} {operand : Element}
    (apart : group.owns operand = false) : group.contribution operand = [operand] := by
  cases group <;> cases operand <;> simp_all [owns, contribution, Element.isConcatenation, Element.isAlternation]

theorem Group.splice_eq_self {group : Group} {operands : List Element}
    (apart : ∀ e ∈ operands, group.owns e = false) : group.splice operands = operands := by
  induction operands with
  | nil => rfl
  | cons e es ih =>
    obtain ⟨head, tail⟩ := List.forall_mem_cons.mp apart
    rw [splice_cons, contribution_eq_singleton head, ih tail, List.singleton_append]

namespace Element

theorem wellFormedAll_iff {es : List Element} : wellFormedAll es = true ↔ ∀ e ∈ es, e.wellFormed = true := by
  rw [wellFormedAll_eq_all, List.all_eq_true]

theorem wellFormed_ofParts_iff {group : Group} {parts : List Element} :
    (group.ofParts parts).wellFormed = true ↔
      parts ≠ [] ∧ (∀ e ∈ parts, group.owns e = false) ∧ ∀ e ∈ parts, e.wellFormed = true := by
  rw [← wellFormedAll_iff]
  cases group <;> simp [Group.ofParts, wellFormed, Group.owns, and_assoc]

theorem wellFormed_contribution {group : Group} {operand : Element} (formed : operand.wellFormed = true) :
    group.contribution operand ≠ [] ∧
      ∀ e ∈ group.contribution operand, group.owns e = false ∧ e.wellFormed = true := by
  cases own : group.owns operand with
  | true =>
    obtain ⟨parts, rfl⟩ := Group.eq_ofParts_of_owns own
    obtain ⟨present, apart, each⟩ := wellFormed_ofParts_iff.mp formed
    rw [Group.contribution_ofParts]
    exact ⟨present, fun e member => ⟨apart e member, each e member⟩⟩
  | false =>
    rw [Group.contribution_eq_singleton own]
    exact ⟨List.cons_ne_nil _ _, List.forall_mem_singleton.mpr ⟨own, formed⟩⟩

theorem wellFormed_ofParts_splice {group : Group} {operands : List Element} (present : operands ≠ [])
    (formed : ∀ e ∈ operands, e.wellFormed = true) :
    (group.ofParts (group.splice operands)).wellFormed = true := by
  have inside : ∀ e ∈ group.splice operands, group.owns e = false ∧ e.wellFormed = true := by
    intro e member
    obtain ⟨operand, given, inside⟩ := List.mem_flatMap.mp member
    exact (wellFormed_contribution (formed operand given)).2 e inside
  have apart : ∀ e ∈ group.splice operands, group.owns e = false := fun e member => (inside e member).1
  have each : ∀ e ∈ group.splice operands, e.wellFormed = true := fun e member => (inside e member).2
  refine wellFormed_ofParts_iff.mpr ⟨?_, apart, each⟩
  obtain ⟨first, rest, rfl⟩ := List.exists_cons_of_ne_nil present
  intro nothing
  have head := (List.append_eq_nil_iff.mp nothing).1
  exact (wellFormed_contribution (formed first (by simp))).1 head

theorem wellFormed_child {whole part : Element} (formed : whole.wellFormed = true)
    (child : part ∈ whole.children) : part.wellFormed = true := by
  cases whole with
  | terminal value => cases child
  | concatenation parts =>
    have parted : (Group.sequence.ofParts parts).wellFormed = true := formed
    exact (wellFormed_ofParts_iff.mp parted).2.2 part child
  | alternation branches =>
    have branched : (Group.choice.ofParts branches).wellFormed = true := formed
    exact (wellFormed_ofParts_iff.mp branched).2.2 part child
  | repetition inner =>
    rw [List.mem_singleton.mp child]
    exact formed

theorem Buildable.pair {left right : Element} (first : Buildable left) (second : Buildable right)
    (group : Group) : Buildable (group.pair left right) := by
  apply Buildable.ofCons
  intro e member
  rcases List.mem_cons.mp member with rfl | member
  · exact first
  · rw [List.mem_singleton.mp member]
    exact second

theorem Buildable.wellFormed {e : Element} (built : Buildable e) : e.wellFormed = true := by
  induction built with
  | terminal value => rfl
  | repetition inner ih => exact ih
  | @ofList group operands whole each made ih =>
    obtain ⟨present, rfl⟩ := Group.ofList_eq_ok_iff.mp made
    apply wellFormed_ofParts_splice _ ih
    rintro rfl
    exact present rfl
  | ofCons each ih => exact wellFormed_ofParts_splice (List.cons_ne_nil _ _) ih
  | part whole child ih => exact wellFormed_child ih child

end Element
end Ebnf
