import Ebnf.Proofs.Parts
import Ebnf.Proofs.Readability

/-! The written form determines the element, if no literal holds a quote and every group has several parts.
Elements that are written alike differ at most in groups of a single operand, and here there are none. -/
namespace Ebnf

theorem Group.forall_iff {P : Group → Prop} : (∀ group, P group) ↔ P .sequence ∧ P .choice := by
  constructor
  · intro all
    exact ⟨all .sequence, all .choice⟩
  · rintro ⟨sequence, choice⟩ group
    cases group with
    | sequence => exact sequence
    | choice => exact choice

namespace Element

def Several (e : Element) : Prop := ∀ group : Group, group.owns e = true → 2 ≤ e.children.length

instance (e : Element) : Decidable e.Several := decidable_of_iff' _ Group.forall_iff

variable {x y : Element}

theorem Everywhere.contribution {P : Element → Prop} (all : x.Everywhere P) (group : Group) :
    ∀ operand ∈ group.contribution x, operand.Everywhere P := by
  intro operand member
  rcases Group.mem_contribution member with rfl | child
  · exact all
  · exact all.child child

theorem owns_of_contribution_eq {group : Group} (several : x.Several) (own : group.owns x = true)
    (same : group.contribution x = group.contribution y) : group.owns y = true := by
  have long := several group own
  rw [← Group.contribution_eq_children own, same] at long
  cases other : group.owns y with
  | true => rfl
  | false =>
    rw [Group.contribution_eq_singleton other] at long
    cases Nat.le_of_succ_le_succ long

/-- What an element contributes to a group tells which element it is, unless it is a group of one part. -/
theorem eq_of_contribution_eq (group : Group) (severalX : x.Several) (severalY : y.Several)
    (same : group.contribution x = group.contribution y) : x = y := by
  cases own : group.owns x with
  | true =>
    obtain ⟨others, rfl⟩ := Group.eq_ofParts_of_owns (owns_of_contribution_eq severalX own same)
    obtain ⟨parts, rfl⟩ := Group.eq_ofParts_of_owns own
    rw [Group.contribution_ofParts, Group.contribution_ofParts] at same
    rw [same]
  | false =>
    have apart : group.owns y = false := by
      rw [Bool.eq_false_iff]
      intro other
      rw [owns_of_contribution_eq severalY other same.symm] at own
      cases own
    rw [Group.contribution_eq_singleton own, Group.contribution_eq_singleton apart] at same
    exact List.singleton_inj.mp same

theorem Resembles.eq (resembles : x.Resembles y) (severalX : x.Everywhere Several)
    (severalY : y.Everywhere Several) : x = y := by
  induction resembles using Resembles.induction with
  | terminal value => rfl
  | repetition inner ih =>
    have child (e : Element) : e ∈ (Element.repetition e).children := List.mem_singleton_self e
    rw [ih (severalX.child (child _)) (severalY.child (child _))]
  | @group kind x y operands each =>
    have same : List.Forall₂ (fun x y => x = y) (kind.contribution x) (kind.contribution y) := by
      obtain ⟨length, pairs⟩ := List.forall₂_iff_zip.mp each
      refine List.forall₂_iff_zip.mpr ⟨length, ?_⟩
      intro operand other listed
      obtain ⟨inX, inY⟩ := List.of_mem_zip listed
      obtain ⟨_, equal⟩ := pairs listed
      exact equal (severalX.contribution kind operand inX) (severalY.contribution kind other inY)
    rw [List.forall₂_eq_eq_eq] at same
    exact eq_of_contribution_eq kind severalX.here severalY.here same

/-- Elements that are written alike are equal, if no literal in them holds a quote and every group in them has
at least two parts; a group of one part is written as this part. -/
theorem eq_of_display_eq (builtX : x.Buildable) (builtY : y.Buildable)
    (plainX : ∀ value ∈ x.terminals, '\'' ∉ value.toList) (plainY : ∀ value ∈ y.terminals, '\'' ∉ value.toList)
    (severalX : x.Everywhere Several) (severalY : y.Everywhere Several) (same : x.display = y.display) : x = y :=
  (resembles_of_display_eq ⟨builtX.wellFormed, plainX⟩ ⟨builtY.wellFormed, plainY⟩ same).eq severalX severalY

example : (concatenation ["a"]).display = (terminal "a").display := by decide

theorem eq_of_display_eq_of_other_grouping :
    (Group.sequence.pair (Group.sequence.pair "a" (Group.choice.pair "b | (" (repetition "c"))) "] + d").display =
        "'a' + ('b | (' | ['c']) + '] + d'" ∧
      Group.sequence.pair (Group.sequence.pair "a" (Group.choice.pair "b | (" (repetition "c"))) "] + d" =
        Group.sequence.pair "a" (Group.sequence.pair (Group.choice.pair "b | (" (repetition "c")) "] + d") := by
  have choice : Buildable (Group.choice.pair "b | (" (repetition "c")) :=
    .pair (.terminal _) (.repetition (.terminal _)) .choice
  have fromLeft : Buildable
      (Group.sequence.pair (Group.sequence.pair "a" (Group.choice.pair "b | (" (repetition "c"))) "] + d") :=
    .pair (.pair (.terminal _) choice .sequence) (.terminal _) .sequence
  have fromRight : Buildable
      (Group.sequence.pair "a" (Group.sequence.pair (Group.choice.pair "b | (" (repetition "c")) "] + d")) :=
    .pair (.terminal _) (.pair choice (.terminal _) .sequence) .sequence
  refine ⟨by decide, ?_⟩
  exact eq_of_display_eq fromLeft fromRight (by decide) (by decide) (by decide) (by decide) (by decide)

end Element
end Ebnf
