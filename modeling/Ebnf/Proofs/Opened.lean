import Ebnf.Attempt.Nesting
import Ebnf.Element.WellFormed
import Ebnf.Proofs.Adequacy

/-! Nothing is tried by accident: every attempt inside a match, also one that was given up, is the attempt of
a part of the element, made at a place that lies behind the start. -/
namespace Ebnf

inductive Element.Within : Element → Element → Prop
  | refl (e : Element) : Within e e
  | child {part child whole : Element} (member : child ∈ whole.children) (deeper : Within part child) :
      Within part whole

theorem Element.Buildable.within {part whole : Element} (built : Buildable whole)
    (inside : part.Within whole) : Buildable part := by
  induction inside with
  | refl => exact built
  | child member deeper ih => exact ih (.part built member)

def Task.elements : Task → List Element
  | .one e | .rounds e => [e]
  | .all parts => parts
  | .any branches => branches

namespace Attempt

@[elab_as_elim, induction_eliminator]
protected theorem induction {motive : Attempt → Prop}
    (mk : ∀ element start inner verdict, (∀ a ∈ inner, motive a) → motive ⟨element, start, inner, verdict⟩)
    (a : Attempt) : motive a :=
  @Attempt.rec motive (fun as => ∀ a ∈ as, motive a) mk (fun _ none => nomatch none)
    (fun _ _ head tail _ => fun | .head _ => head | .tail _ member => tail _ member) a

theorem opened_eq (a : Attempt) : a.opened = a :: openedAll a.inner := by
  obtain ⟨element, start, inner, verdict⟩ := a
  rw [opened]

theorem openedAll_singleton (a : Attempt) : openedAll [a] = a.opened := by
  rw [openedAll, openedAll, List.append_nil]

theorem mem_opened (a : Attempt) : a ∈ a.opened := by
  rw [opened_eq]
  exact List.mem_cons_self

end Attempt

/-- The attempt is one of matching the task from the cursor on: a part of the task is tried, at a place that
is reached from there. -/
structure Attempt.BelongsTo (task : Task) (c : Cursor) (a : Attempt) : Prop where
  part : ∃ e ∈ task.elements, a.element.Within e
  place : c.Reaches a.start
  own : a = a.element.attempt a.start

def Task.Opens (task : Task) (c : Cursor) (attempts : List Attempt) : Prop :=
  ∀ a ∈ Attempt.openedAll attempts, a.BelongsTo task c

namespace Task.Opens
variable {task whole : Task} {e : Element} {c next : Cursor} {attempts : List Attempt}

theorem nil (task : Task) (c : Cursor) : task.Opens c [] := nofun

theorem later (opens : task.Opens next attempts) (reached : c.Reaches next)
    (listed : task.elements ⊆ whole.elements) : whole.Opens c attempts := by
  intro a member
  obtain ⟨⟨e, among, inside⟩, place, own⟩ := opens a member
  exact ⟨⟨e, listed among, inside⟩, reached.trans place, own⟩

theorem head (opens : (Task.one e).Opens c attempts) (listed : e ∈ whole.elements) :
    whole.Opens c attempts :=
  opens.later (.refl c) fun _ member => List.mem_singleton.mp member ▸ listed

theorem cons {first : Attempt} {others : List Attempt} (head : task.Opens c [first])
    (tail : task.Opens c others) : task.Opens c (first :: others) := by
  intro a member
  rw [Attempt.openedAll] at member
  rcases List.mem_append.mp member with inHead | inTail
  · rw [← Attempt.openedAll_singleton] at inHead
    exact head a inHead
  · exact tail a inTail

theorem one {a : Attempt} {verdict : Verdict (List Node)} (run : Run (.one e) c [a] verdict)
    (opens : task.Opens c a.inner) (listed : task.elements ⊆ e.children) : (Task.one e).Opens c [a] := by
  intro b member
  rw [Attempt.openedAll_singleton, Attempt.opened_eq] at member
  rcases List.mem_cons.mp member with rfl | below
  · obtain ⟨same, _⟩ := Element.run_iff.mp run
    cases same
    refine ⟨⟨e, List.mem_singleton_self e, ?_⟩, ?_, ?_⟩
    · rw [Element.attempt_element]
      exact .refl e
    · rw [Element.attempt_start]
      exact .refl c
    · rw [Element.attempt_element, Element.attempt_start]
  · obtain ⟨⟨child, among, inside⟩, place, own⟩ := opens b below
    exact ⟨⟨e, List.mem_singleton_self e, .child (listed among) inside⟩, place, own⟩

end Task.Opens

theorem Run.opens {task : Task} {c : Cursor} {attempts : List Attempt} {verdict : Verdict (List Node)}
    (run : Run task c attempts verdict) : task.Opens c attempts := by
  -- Mismatches are runs as well: what a choice gives up is tried like the rest.
  induction run with
  | found here => exact .one (.found here) (.nil (.all []) _) (List.nil_subset _)
  | missing absent => exact .one (.missing absent) (.nil (.all []) _) (List.nil_subset _)
  | sequence parted ih => exact .one (.sequence parted) ih (List.Subset.refl _)
  | brokenSequence parted ih => exact .one (.brokenSequence parted) ih (List.Subset.refl _)
  | choice chosen ih => exact .one (.choice chosen) ih (List.Subset.refl _)
  | exhaustedChoice chosen ih => exact .one (.exhaustedChoice chosen) ih (List.Subset.refl _)
  | repetition looped ih => exact .one (.repetition looped) ih (List.Subset.refl _)
  | allNil | anyNil | usedUp => exact .nil _ _
  | allStop head ih | anyFirst head ih => exact ih.head List.mem_cons_self
  | blocked more round ih | idle more round still ih => exact ih.head List.mem_cons_self
  | allCons head tail headIH tailIH | allBroken head tail headIH tailIH =>
    exact (headIH.head List.mem_cons_self).cons (tailIH.later head.reaches (List.subset_cons_self _ _))
  | anyLater head tail headIH tailIH | anyNone head tail headIH tailIH =>
    exact (headIH.head List.mem_cons_self).cons (tailIH.later (.refl _) (List.subset_cons_self _ _))
  | again more round moved further roundIH furtherIH =>
    exact (roundIH.head List.mem_cons_self).cons (furtherIH.later round.reaches (List.Subset.refl _))

theorem Element.belongs_of_opened {e : Element} {c : Cursor} {a : Attempt}
    (opened : a ∈ (e.attempt c).opened) : a.BelongsTo (.one e) c := by
  apply (e.attempt_run c).opens
  rw [Attempt.openedAll_singleton]
  exact opened

end Ebnf
