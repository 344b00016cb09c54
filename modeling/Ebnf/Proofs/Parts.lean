import Mathlib.Logic.Basic
import Ebnf.Element.Basic

/-! What holds at every depth of an element. The outline of an element lists the element and the outlines of
its children, so a property of all its lines is a property of the element and, again at every depth, of each
child. -/
namespace Ebnf.Element

theorem children_induction {motive : Element → Prop}
    (step : ∀ e, (∀ child ∈ e.children, motive child) → motive e) (e : Element) : motive e := by
  induction e with
  | terminal value => exact step _ (List.forall_mem_nil _)
  | concatenation parts each => exact step _ each
  | alternation branches each => exact step _ each
  | repetition inner ih => exact step _ (List.forall_mem_singleton.mpr ih)

theorem preorderAll_eq_flatMap (depth : Nat) (es : List Element) :
    preorderAll depth es = es.flatMap (preorder depth) := by
  induction es with
  | nil => rfl
  | cons e es ih => rw [preorderAll, ih, List.flatMap_cons]

theorem preorder_eq (depth : Nat) (e : Element) :
    e.preorder depth = (depth, e) :: e.children.flatMap (preorder (depth + 1)) := by
  rw [← preorderAll_eq_flatMap]
  cases e with
  | terminal | concatenation | alternation => rfl
  | repetition inner => rw [preorder, children, preorderAll, preorderAll, List.append_nil]

def Everywhere (P : Element → Prop) (e : Element) : Prop :=
  ∀ depth part, (depth, part) ∈ e.outline → P part

variable {P : Element → Prop} {e : Element}

theorem everywhere_iff_lines : e.Everywhere P ↔ ∀ line ∈ e.preorder 0, P line.2 := by
  constructor
  · intro all line member
    exact all line.1 line.2 member
  · intro all depth part member
    exact all (depth, part) member

instance [DecidablePred P] : Decidable (e.Everywhere P) := decidable_of_iff' _ everywhere_iff_lines

theorem forall_preorder_iff (depth : Nat) :
    (∀ line ∈ e.preorder depth, P line.2) ↔ P e ∧ ∀ child ∈ e.children, child.Everywhere P := by
  induction e using children_induction generalizing depth with
  | step e each =>
    have inside : ∀ child ∈ e.children,
        (∀ line ∈ child.preorder (depth + 1), P line.2) ↔ child.Everywhere P := by
      intro child member
      rw [everywhere_iff_lines, each child member, each child member]
    rw [preorder_eq, List.forall_mem_cons, List.forall_mem_flatMap]
    exact and_congr_right fun _ => forall₂_congr inside

theorem everywhere_iff : e.Everywhere P ↔ P e ∧ ∀ child ∈ e.children, child.Everywhere P := by
  rw [everywhere_iff_lines, forall_preorder_iff]

theorem Everywhere.here (all : e.Everywhere P) : P e := (everywhere_iff.mp all).1

theorem Everywhere.child {child : Element} (all : e.Everywhere P) (member : child ∈ e.children) :
    child.Everywhere P :=
  (everywhere_iff.mp all).2 child member

end Ebnf.Element
