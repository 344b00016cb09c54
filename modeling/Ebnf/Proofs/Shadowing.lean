import Ebnf.Proofs.Grouping
import Ebnf.Proofs.Nullability

/-! A choice is a scan for the first of its branches that matches. A branch behind one that matches wherever it
does can never be the first, so the choice does the same without it. -/
namespace Ebnf

namespace Verdict

def value? : Verdict α → Option α
  | .matched value _ => some value
  | .mismatched _ => none

theorem value?_map (f : α → β) (verdict : Verdict α) : (verdict.map f).value? = verdict.value?.map f := by
  cases verdict <;> rfl

theorem value?_blaming (errors : List Mismatch) (verdict : Verdict α) :
    (verdict.blaming errors).value? = verdict.value? := by
  cases verdict <;> rfl

end Verdict

theorem Attempt.root?_outcome (a : Attempt) : a.outcome.root? = a.verdict.value? := by
  unfold outcome
  cases a.verdict <;> rfl

namespace Outcome

def children? (o : Outcome) : Option (List Node) := o.root?.map Node.children

theorem isSome_root? (o : Outcome) : o.root?.isSome = o.isSuccess := by
  cases o <;> rfl

theorem isFailure_of_root?_eq_none {o : Outcome} (rootless : o.root? = none) : o.isFailure = true := by
  cases o with
  | success root => cases rootless
  | failure element errors => rfl

theorem eq_success_of_root?_eq_some {o : Outcome} {root : Node} (found : o.root? = some root) :
    o = .success root := by
  cases o with
  | success other => rw [Option.some.inj found]
  | failure element errors => cases found

end Outcome

private theorem mem_take_of_getElem? {xs : List α} {i n : Nat} {x : α} (here : xs[i]? = some x) (inFront : i < n) :
    x ∈ xs.take n := by
  apply List.mem_of_getElem? (i := i)
  rw [List.getElem?_take_of_lt inFront, here]

private theorem findSome?_eraseIdx {f : α → Option β} {xs : List α} {i j : Nat} {x y : α} (earlier : i < j)
    (here : xs[i]? = some x) (there : xs[j]? = some y) (shadowed : (f y).isSome = true → (f x).isSome = true) :
    (xs.eraseIdx j).findSome? f = xs.findSome? f := by
  have whole : xs.take j ++ y :: xs.drop (j + 1) = xs := by
    obtain ⟨bound, rfl⟩ := List.getElem?_eq_some_iff.mp there
    rw [← List.drop_eq_getElem_cons bound, List.take_append_drop]
  rw [List.eraseIdx_eq_take_drop_succ]
  conv => rhs; rw [← whole]
  rw [List.findSome?_append, List.findSome?_append, List.findSome?_cons]
  cases found : f y with
  | none => rfl
  | some value =>
    have first : ((xs.take j).findSome? f).isSome = true :=
      List.findSome?_isSome_iff.mpr ⟨x, mem_take_of_getElem? here earlier, shadowed (by rw [found]; rfl)⟩
    obtain ⟨taken, first⟩ := Option.isSome_iff_exists.mp first
    rw [first]
    rfl

namespace Element
variable {branches : List Element} {i j : Nat} {first second : Element} {text : String}

theorem value?_attemptAny (branches : List Element) (c : Cursor) :
    (attemptAny branches c).verdict.value? = branches.findSome? fun b => (b.attempt c).verdict.value? := by
  induction branches with
  | nil => rfl
  | cons b bs ih =>
    rw [attemptAny, List.findSome?_cons, ← ih]
    cases (b.attempt c).verdict with
    | matched node next => rfl
    | mismatched errors => exact Verdict.value?_blaming errors _

/-- Below the root of a choice stands the tree of the first branch that matches. -/
theorem root?_parse_alternation (branches : List Element) (text : String) :
    ((alternation branches).parse text).root? =
      (branches.findSome? fun b => (b.parse text).root?).map (.alternation (.alternation branches)) := by
  simp only [parse, Attempt.root?_outcome, attempt, Verdict.value?_map, value?_attemptAny]

theorem children?_parse_alternation (branches : List Element) (text : String) :
    ((alternation branches).parse text).children? =
      (branches.findSome? fun b => (b.parse text).root?).map fun child => [child] := by
  rw [Outcome.children?, root?_parse_alternation, Option.map_map]
  rfl

def Shadows (first second : Element) : Prop :=
  ∀ text, (second.parse text).isSuccess = true → (first.parse text).isSuccess = true

def Takes (branches : List Element) (position : Nat) (text : String) : Prop :=
  ∃ before branch after child, branches = before ++ branch :: after ∧ before.length = position ∧
    (∀ other ∈ before, (other.parse text).isFailure = true) ∧ branch.parse text = .success child ∧
    (alternation branches).parse text = .success (.alternation (alternation branches) child)

/-- The branch at this position is never taken, and the choice can do without it: it fails on the same texts then,
and on the others it has the same tree below its root. -/
structure Dead (branches : List Element) (position : Nat) : Prop where
  untaken : ∀ text, ¬ Takes branches position text
  dispensable : ∀ text, ((alternation (branches.eraseIdx position)).parse text).children? =
    ((alternation branches).parse text).children?

theorem Shadows.refl (e : Element) : e.Shadows e := fun _ success => success

theorem Shadows.of_success_empty (success : (first.parse "").isSuccess = true) : first.Shadows second :=
  fun text _ => isSuccess_of_nullable (isSuccess_empty_iff.mp success) text

theorem isSuccess_terminal_iff {value : String} :
    ((terminal value).parse text).isSuccess = true ↔ value.toList <+: text.toList := by
  cases here : (Cursor.start text).skip? value with
  | none =>
    have absent : ¬ value.toList <+: text.toList := Cursor.skip?_eq_none_iff.mp here
    rw [parse_eq_failure_iff.mpr ⟨rfl, _, .missing here⟩]
    exact iff_of_false Bool.false_ne_true absent
  | some next =>
    have whole : text.toList = value.toList ++ next.rest := (Cursor.skip?_eq_some_iff.mp here).1
    rw [parse_eq_success_iff.mpr ⟨_, next, .found here⟩]
    exact iff_of_true rfl ⟨next.rest, whole.symm⟩

theorem Shadows.terminal {value longer : String} (starts : value.toList <+: longer.toList) :
    (terminal value).Shadows (terminal longer) := by
  intro text success
  exact isSuccess_terminal_iff.mpr (starts.trans (isSuccess_terminal_iff.mp success))

theorem Shadows.not_takes (shadows : first.Shadows second) (earlier : i < j) (here : branches[i]? = some first)
    (there : branches[j]? = some second) : ¬ Takes branches j text := by
  rintro ⟨before, branch, after, child, rfl, rfl, missed, matched, _⟩
  have member := mem_take_of_getElem? here earlier
  rw [List.take_left] at member
  rw [List.getElem?_append_right (Nat.le_refl _), Nat.sub_self, List.getElem?_cons_zero] at there
  cases there
  have failure := missed first member
  rw [Outcome.isFailure, shadows text (Outcome.isSuccess_iff.mpr ⟨child, matched⟩)] at failure
  cases failure

theorem Shadows.dead (shadows : first.Shadows second) (earlier : i < j) (here : branches[i]? = some first)
    (there : branches[j]? = some second) : Dead branches j := by
  refine ⟨fun text => shadows.not_takes earlier here there, ?_⟩
  intro text
  have reached : (second.parse text).root?.isSome = true → (first.parse text).root?.isSome = true := by
    rw [Outcome.isSome_root?, Outcome.isSome_root?]
    exact shadows text
  rw [children?_parse_alternation, children?_parse_alternation, findSome?_eraseIdx earlier here there reached]

theorem exists_takes (here : branches[i]? = some first) (success : (first.parse text).isSuccess = true) :
    ∃ position ≤ i, Takes branches position text := by
  have member := mem_take_of_getElem? here (Nat.lt_succ_self i)
  have hit : ((branches.take (i + 1)).findSome? fun b => (b.parse text).root?).isSome = true :=
    List.findSome?_isSome_iff.mpr ⟨first, member, by rw [Outcome.isSome_root?, success]⟩
  obtain ⟨child, found⟩ := Option.isSome_iff_exists.mp hit
  obtain ⟨before, branch, after, split, matched, missed⟩ := List.findSome?_eq_some_iff.mp found
  have whole : branches = before ++ branch :: (after ++ branches.drop (i + 1)) := by
    rw [← List.cons_append, ← List.append_assoc, ← split, List.take_append_drop]
  have chosen : (branches.findSome? fun b => (b.parse text).root?) = some child :=
    List.findSome?_eq_some_iff.mpr ⟨before, branch, _, whole, matched, missed⟩
  have root := root?_parse_alternation branches text
  rw [chosen] at root
  have size := congrArg List.length split
  rw [List.length_take, List.length_append, List.length_cons] at size
  refine ⟨before.length, by omega, before, branch, _, child, whole, rfl, ?_, ?_, ?_⟩
  · intro other inFront
    exact Outcome.isFailure_of_root?_eq_none (missed other inFront)
  · exact Outcome.eq_success_of_root?_eq_some matched
  · exact Outcome.eq_success_of_root?_eq_some root

theorem ofList_eraseIdx (built : Buildable (alternation branches)) (more : branches.eraseIdx j ≠ []) :
    Group.choice.ofList (branches.eraseIdx j) = .ok (alternation (branches.eraseIdx j)) := by
  have formed : (Group.choice.ofParts branches).wellFormed = true := built.wellFormed
  have apart : ∀ e ∈ branches.eraseIdx j, Group.choice.owns e = false := by
    intro e member
    exact (wellFormed_ofParts_iff.mp formed).2.1 e (List.mem_of_mem_eraseIdx member)
  rw [Group.ofList_eq_ok_iff, Group.splice_eq_self apart]
  exact ⟨more, rfl⟩

/-- Shadowed branches are dead: a choice never takes a branch, and can do without it, if one before it matches
wherever that branch does. Such a one is a branch that matches the empty text, and what the choice takes never
stands behind it; another is a literal that begins the literal of the branch, or the branch itself. Where nothing
matches, a dead branch still has diagnostics of its own. -/
theorem shadowed_branch_dead (branches : List Element) (i j : Nat) (first second : Element) (earlier : i < j)
    (here : branches[i]? = some first) (there : branches[j]? = some second) :
    (first.Shadows second → Dead branches j) ∧
      ((first.parse "").isSuccess = true →
        Dead branches j ∧ ∀ text, ∃ position ≤ i, Takes branches position text) ∧
      (∀ value longer, first = .terminal value → second = .terminal longer → value.toList <+: longer.toList →
        Dead branches j) ∧
      (first = second → Dead branches j) ∧
      (Buildable (alternation branches) →
        Group.choice.ofList (branches.eraseIdx j) = .ok (alternation (branches.eraseIdx j))) := by
  have dead (shadows : first.Shadows second) : Dead branches j := shadows.dead earlier here there
  refine ⟨dead, ?_, ?_, ?_, ?_⟩
  · intro empty
    refine ⟨dead (.of_success_empty empty), ?_⟩
    intro text
    exact exists_takes here (isSuccess_of_nullable (isSuccess_empty_iff.mp empty) text)
  · rintro value longer rfl rfl starts
    exact dead (.terminal starts)
  · rintro rfl
    exact dead (.refl first)
  · intro built
    apply ofList_eraseIdx built
    rw [List.eraseIdx_eq_take_drop_succ]
    exact List.ne_nil_of_mem (List.mem_append_left _ (mem_take_of_getElem? here earlier))

theorem shadowed_branch_dead_of_literal_and_optional :
    ([terminal "x", "a", concatenation ["b", "c"], "aä"][1]? = some (terminal "a") ∧
      [terminal "x", "a", concatenation ["b", "c"], "aä"][3]? = some (terminal "aä") ∧
      ¬ Takes ["x", "a", concatenation ["b", "c"], "aä"] 3 "aäb" ∧
      ((alternation ["x", "a", concatenation ["b", "c"]]).parse "aäb").children? =
        ((alternation ["x", "a", concatenation ["b", "c"], "aä"]).parse "aäb").children?) ∧
    [terminal "x", repetition "a", "ab", "b"][1]? = some (repetition "a") ∧
      [terminal "x", repetition "a", "ab", "b"][3]? = some (terminal "b") ∧
      ((repetition "a").parse "").isSuccess = true ∧ Dead ["x", repetition "a", "ab", "b"] 3 ∧
      ∃ position ≤ 1, Takes ["x", repetition "a", "ab", "b"] position "bc" := by
  obtain ⟨_, _, literal, _, _⟩ := shadowed_branch_dead [terminal "x", "a", concatenation ["b", "c"], "aä"]
    1 3 "a" "aä" (by decide) rfl rfl
  have dead := literal "a" "aä" rfl rfl (by decide)
  have optional : ((repetition "a").parse "").isSuccess = true := by decide
  obtain ⟨_, nullable, _⟩ := shadowed_branch_dead [terminal "x", repetition "a", "ab", "b"]
    1 3 (repetition "a") "b" (by decide) rfl rfl
  obtain ⟨alsoDead, taken⟩ := nullable optional
  exact ⟨⟨rfl, rfl, dead.untaken "aäb", dead.dispensable "aäb"⟩, rfl, rfl, optional, alsoDead, taken "bc"⟩

example : ((alternation ["a", "ab"]).parse "b").errors.length = 2 ∧
    ((alternation ["a"]).parse "b").errors.length = 1 := by decide

end Element
end Ebnf
