import Mathlib.Data.List.Forall2
import Mathlib.Data.List.Nodup
import Ebnf.Element.Analysis
import Ebnf.Proofs.SearchLog

/-! Which part of an element each attempt tries. A sequence and a choice try their parts in order, so without a
repetition no part is tried a second time. -/
namespace Ebnf

namespace Attempt

mutual
/-- Where in the element the opened attempts belong, as positions that lead down from it: what is tried inside
a sequence or a choice are its parts, one after the other, inside a repetition it is always its only part. -/
def paths : Attempt → List (List Nat)
  | ⟨element, _, inner, _⟩ => [] :: pathsAll element.isRepetition 0 inner

def pathsAll (repeating : Bool) (i : Nat) : List Attempt → List (List Nat)
  | [] => []
  | a :: as => a.paths.map (i :: ·) ++ pathsAll repeating (if repeating then i else i + 1) as
end

def FollowsParts (a : Attempt) : Prop :=
  ∀ i b, a.inner[i]? = some b →
    a.element.children[if a.element.isRepetition then 0 else i]? = some b.element

theorem openedAll_eq_flatMap (as : List Attempt) : openedAll as = as.flatMap opened := by
  induction as with
  | nil => rfl
  | cons a as ih => rw [openedAll, ih, List.flatMap_cons]

theorem forall_opened_iff {P : Attempt → Prop} {a : Attempt} :
    (∀ b ∈ a.opened, P b) ↔ P a ∧ ∀ b ∈ a.inner, ∀ d ∈ b.opened, P d := by
  rw [opened_eq, List.forall_mem_cons, openedAll_eq_flatMap, List.forall_mem_flatMap]

def At (e : Element) (path : List Nat) (a : Attempt) : Prop := e.descend path = .ok a.element

theorem at_pathsAll {e : Element} {repeating : Bool} {as : List Attempt}
    (each : ∀ a ∈ as, List.Forall₂ (At a.element) a.paths a.opened) (i : Nat)
    (placed : ∀ k a, as[k]? = some a → e.children[if repeating then i else i + k]? = some a.element) :
    List.Forall₂ (At e) (pathsAll repeating i as) (openedAll as) := by
  induction as generalizing i with
  | nil => exact .nil
  | cons a as ih =>
    have here : e.children[i]? = some a.element := by
      have first := placed 0 a rfl
      rwa [Nat.add_zero, ite_self] at first
    have head : List.Forall₂ (At e) (a.paths.map (i :: ·)) a.opened := by
      apply List.forall₂_map_left_iff.mpr
      refine (each a List.mem_cons_self).imp ?_
      intro path b leads
      unfold At
      rw [Element.descend, here]
      exact leads
    have tail := ih (fun b member => each b (List.mem_cons_of_mem _ member)) (if repeating then i else i + 1)
    refine List.rel_append head (tail ?_)
    intro k b found
    have later := placed (k + 1) b found
    cases repeating with
    | true => exact later
    | false =>
      rw [if_neg Bool.false_ne_true, if_neg Bool.false_ne_true, Nat.add_right_comm]
      exact later

theorem at_paths {a : Attempt} (follows : ∀ b ∈ a.opened, b.FollowsParts) :
    List.Forall₂ (At a.element) a.paths a.opened := by
  induction a with
  | mk element start inner verdict ih =>
    obtain ⟨own, inside⟩ := forall_opened_iff.mp follows
    rw [paths, opened]
    refine .cons rfl (at_pathsAll (fun b member => ih b member (inside b member)) 0 ?_)
    intro k b found
    rw [Nat.zero_add]
    exact own k b found

theorem exists_cons_of_mem_pathsAll {as : List Attempt} {i : Nat} {path : List Nat}
    (member : path ∈ pathsAll false i as) : ∃ j rest, path = j :: rest ∧ i ≤ j := by
  induction as generalizing i with
  | nil => cases member
  | cons a as ih =>
    rcases List.mem_append.mp member with inHead | inTail
    · obtain ⟨rest, _, rfl⟩ := List.mem_map.mp inHead
      exact ⟨i, rest, rfl, Nat.le.refl⟩
    · obtain ⟨j, rest, same, later⟩ := ih inTail
      exact ⟨j, rest, same, Nat.le_of_succ_le later⟩

theorem nodup_pathsAll {as : List Attempt} (each : ∀ a ∈ as, a.paths.Nodup) (i : Nat) :
    (pathsAll false i as).Nodup := by
  induction as generalizing i with
  | nil => exact List.nodup_nil
  | cons a as ih =>
    have tail := ih (fun b member => each b (List.mem_cons_of_mem _ member)) (i + 1)
    refine List.nodup_append.mpr ⟨(each a List.mem_cons_self).map List.cons_injective, tail, ?_⟩
    rintro path inHead _ inTail rfl
    obtain ⟨rest, _, rfl⟩ := List.mem_map.mp inHead
    obtain ⟨j, others, same, later⟩ := exists_cons_of_mem_pathsAll inTail
    cases same
    exact Nat.not_succ_le_self _ later

theorem nodup_paths {a : Attempt} (plain : ∀ b ∈ a.opened, b.element.isRepetition = false) : a.paths.Nodup := by
  induction a with
  | mk element start inner verdict ih =>
    obtain ⟨own, inside⟩ := forall_opened_iff.mp plain
    have each : ∀ b ∈ inner, b.paths.Nodup := fun b member => ih b member (inside b member)
    rw [paths, show element.isRepetition = false from own]
    refine List.nodup_cons.mpr ⟨?_, nodup_pathsAll each 0⟩
    intro member
    obtain ⟨j, rest, same, _⟩ := exists_cons_of_mem_pathsAll member
    cases same

end Attempt

namespace Run
variable {inner : Element} {es : List Element} {c stop : Cursor} {attempts : List Attempt} {nodes : List Node}
  {verdict : Verdict (List Node)}

theorem tried_in_order (listed : (attempts.map Attempt.bracket).map Bracket.element <+: es) {i : Nat}
    {a : Attempt} (found : attempts[i]? = some a) : es[i]? = some a.element := by
  obtain ⟨untried, rfl⟩ := listed
  have inside := (List.getElem?_eq_some_iff.mp found).1
  rw [List.getElem?_append_left (by simpa using inside), List.map_map, List.getElem?_map, found]
  rfl

theorem tried_of_rounds (run : Run (.rounds inner) c attempts (.matched nodes stop)) :
    ∀ a ∈ attempts, a.element = inner := by
  obtain ⟨_, _, _, rule⟩ := run.inRepetition rfl
  exact List.forall_mem_map.mp rule.same

theorem followsParts {e : Element} {a : Attempt} (run : Run (.one e) c [a] verdict) : a.FollowsParts := by
  intro i b found
  cases run with
  | found | missing => cases found
  | sequence parted | brokenSequence parted => exact tried_in_order parted.inSequence.inOrder found
  | choice chosen | exhaustedChoice chosen => exact tried_in_order chosen.inChoice.inOrder found
  | repetition looped =>
    rw [looped.tried_of_rounds b (List.mem_of_getElem? found)]
    rfl

end Run

namespace Element

theorem run_of_opened {e : Element} {c : Cursor} {a : Attempt} (opened : a ∈ (e.attempt c).opened) :
    Run (.one a.element) a.start [a] a.verdict.single := by
  have run := a.element.attempt_run a.start
  rw [← (belongs_of_opened opened).own] at run
  exact run

theorem repetitionDepth_le_all {part : Element} {es : List Element} (member : part ∈ es) :
    part.repetitionDepth ≤ repetitionDepthAll es := by
  induction es with
  | nil => cases member
  | cons e es ih =>
    rcases List.mem_cons.mp member with rfl | later
    · exact Nat.le_max_left _ _
    · exact Nat.le_trans (ih later) (Nat.le_max_right _ _)

theorem repetitionDepth_le_of_within {part whole : Element} (inside : part.Within whole) :
    part.repetitionDepth ≤ whole.repetitionDepth := by
  induction inside with
  | refl => exact Nat.le.refl
  | @child child whole member deeper ih =>
    refine Nat.le_trans ih ?_
    cases whole with
    | terminal value => cases member
    | concatenation es | alternation es => exact repetitionDepth_le_all member
    | repetition inner =>
      rw [List.mem_singleton.mp member]
      exact Nat.le_succ _

theorem isRepetition_of_flat {e : Element} (flat : e.repetitionDepth = 0) : e.isRepetition = false := by
  cases e with
  | repetition inner => cases flat
  | terminal | concatenation | alternation => rfl

end Element
end Ebnf
