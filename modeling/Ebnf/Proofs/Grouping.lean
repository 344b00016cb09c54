import Mathlib.Data.List.Forall2
import Ebnf.Element.Grouping
import Ebnf.Proofs.Construction

/-! However operands are put together to groups of one kind, the same flat group comes of it: by which
constructor, one by one from either end, or with any brackets. -/
namespace Ebnf

namespace Group

theorem ofList_of_wellFormed (group : Group) {operands : List Element} (present : operands ≠ [])
    (formed : ∀ e ∈ operands, e.wellFormed = true) :
    group.ofList operands = .ok (group.ofParts (group.splice operands)) := by
  have whole : (group.ofParts (group.splice operands)).wellFormed = true :=
    Element.wellFormed_ofParts_splice present formed
  exact ofList_eq_ok_iff.mpr ⟨(Element.wellFormed_ofParts_iff.mp whole).1, rfl⟩

theorem ofList_ofList (group : Group) (operands : List Element) :
    (group.ofList operands >>= fun whole => group.ofList [whole]) = group.ofList operands := by
  cases made : group.ofList operands with
  | error refused => rfl
  | ok whole =>
    obtain ⟨present, rfl⟩ := ofList_eq_ok_iff.mp made
    apply ofList_eq_ok_iff.mpr
    rw [splice_singleton, contribution_ofParts]
    exact ⟨present, rfl⟩

theorem pair_eq (group : Group) (left right : Element) :
    group.pair left right = group.ofParts (group.contribution left ++ group.contribution right) := by
  rw [pair, ofCons, splice_cons, splice_singleton]

theorem pair_assoc (group : Group) (a b c : Element) :
    group.pair (group.pair a b) c = group.pair a (group.pair b c) := by
  simp only [pair_eq, contribution_ofParts, List.append_assoc]

theorem foldl_pair_ofParts (group : Group) (parts operands : List Element) :
    operands.foldl group.pair (group.ofParts parts) = group.ofParts (parts ++ group.splice operands) := by
  induction operands generalizing parts with
  | nil => exact congrArg group.ofParts (List.append_nil parts).symm
  | cons e es ih => rw [List.foldl_cons, pair_eq, contribution_ofParts, ih, splice_cons, List.append_assoc]

theorem foldl_pair (group : Group) (first second : Element) (rest : List Element) :
    (second :: rest).foldl group.pair first = group.ofCons first (second :: rest) := by
  rw [List.foldl_cons, pair_eq, foldl_pair_ofParts, ofCons, splice_cons, splice_cons, List.append_assoc]

theorem foldr_pair (group : Group) (first : Element) (rest : List Element) (last : Element) :
    (first :: rest).foldr group.pair last = group.ofParts (group.splice (first :: rest ++ [last])) := by
  induction rest generalizing first with
  | nil => rfl
  | cons e es ih =>
    rw [List.foldr_cons, ih, pair_eq, contribution_ofParts]
    rfl

theorem foldr_pair_dropLast (group : Group) (first second : Element) (rest : List Element) :
    (first :: second :: rest).dropLast.foldr group.pair
        ((first :: second :: rest).getLast (List.cons_ne_nil _ _)) = group.ofCons first (second :: rest) := by
  have whole := List.dropLast_append_getLast (List.cons_ne_nil first (second :: rest))
  rw [List.dropLast_cons_cons] at whole ⊢
  rw [foldr_pair, whole]
  rfl

inductive Makes (group : Group) : List Element → Except BuildError Element → Prop
  | ofList (operands : List Element) : Makes group operands (group.ofList operands)
  | ofCons (first : Element) (rest : List Element) : Makes group (first :: rest) (.ok (group.ofCons first rest))
  | pair (left right : Element) : Makes group [left, right] (.ok (group.pair left right))

theorem Makes.eq {group : Group} {operands : List Element} {result : Except BuildError Element}
    (made : group.Makes operands result) (present : operands ≠ [])
    (formed : ∀ e ∈ operands, e.wellFormed = true) :
    result = .ok (group.ofParts (group.splice operands)) := by
  cases made with
  | ofList => exact group.ofList_of_wellFormed present formed
  | ofCons first rest => rfl
  | pair left right => rfl

end Group

namespace Grouping

/-- Building from the inside out, with any constructor for each pair of brackets, can come to this result.
A failure inside is a failure of the whole. -/
inductive Builds (kind : Group) : Grouping → Except BuildError Element → Prop
  | operand (e : Element) : Builds kind (.operand e) (.ok e)
  | group {first : Grouping} {rest : List Grouping} {parts : List Element} {result : Except BuildError Element}
      (inner : List.Forall₂ (fun g part => Builds kind g (.ok part)) (first :: rest) parts)
      (made : kind.Makes parts result) : Builds kind (.group first rest) result
  | broken {first : Grouping} {rest : List Grouping} {g : Grouping} {error : BuildError}
      (member : g ∈ first :: rest) (failed : Builds kind g (.error error)) :
      Builds kind (.group first rest) (.error error)

theorem builds_build (kind : Group) (g : Grouping) : g.Builds kind (.ok (g.build kind)) := by
  induction g with
  | operand e => exact .operand e
  | group first rest firstIH restIH =>
    have others : List.Forall₂ (fun g part => Builds kind g (.ok part)) rest (buildAll kind rest) := by
      induction rest with
      | nil => exact .nil
      | cons g gs ih => exact .cons (restIH g (by simp)) (ih fun h member => restIH h (by simp [member]))
    exact .group (.cons firstIH others) (.ofCons _ _)

structure Spliced (kind : Group) (g : Grouping) (e : Element) : Prop where
  formed : e.wellFormed = true
  parts : kind.contribution e = kind.splice g.operands

def Settled (kind : Group) (g : Grouping) : Prop :=
  (∀ e ∈ g.operands, e.wellFormed = true) → ∀ result, g.Builds kind result →
    ∃ e, result = .ok e ∧ g.Spliced kind e

private theorem spliced_parts {kind : Group} {gs : List Grouping} {parts : List Element}
    (each : ∀ g ∈ gs, g.Settled kind) (formed : ∀ e ∈ operandsAll gs, e.wellFormed = true)
    (inner : List.Forall₂ (fun g part => Builds kind g (.ok part)) gs parts) :
    (∀ e ∈ parts, e.wellFormed = true) ∧ kind.splice parts = kind.splice (operandsAll gs) := by
  induction inner with
  | nil => exact ⟨List.forall_mem_nil _, rfl⟩
  | @cons g part gs parts head tail ih =>
    obtain ⟨here, later⟩ := List.forall_mem_append.mp formed
    obtain ⟨first, rest⟩ := List.forall_mem_cons.mp each
    obtain ⟨e, same, spliced⟩ := first here _ head
    cases same
    obtain ⟨others, further⟩ := ih rest later
    refine ⟨List.forall_mem_cons.mpr ⟨spliced.formed, others⟩, ?_⟩
    rw [Group.splice_cons, spliced.parts, further, operandsAll, Group.splice_append]

theorem result_of_group {kind : Group} {first : Grouping} {rest : List Grouping}
    {result : Except BuildError Element} (each : ∀ g ∈ first :: rest, g.Settled kind)
    (formed : ∀ e ∈ (group first rest).operands, e.wellFormed = true)
    (builds : (group first rest).Builds kind result) :
    result = .ok (kind.ofParts (kind.splice (group first rest).operands)) ∧
      (kind.ofParts (kind.splice (group first rest).operands)).wellFormed = true := by
  cases builds with
  | @group _ _ parts _ inner made =>
    obtain ⟨well, same⟩ := spliced_parts each formed inner
    change _ = kind.splice (group first rest).operands at same
    have present : parts ≠ [] := by
      rintro rfl
      cases inner
    rw [← same]
    exact ⟨made.eq present well, Element.wellFormed_ofParts_splice present well⟩
  | @broken _ _ g error member failed =>
    have own : ∀ e ∈ g.operands, e.wellFormed = true := by
      intro e inside
      apply formed
      change e ∈ operandsAll (first :: rest)
      rw [operandsAll_eq_flatMap]
      exact List.mem_flatMap.mpr ⟨g, member, inside⟩
    obtain ⟨e, same, _⟩ := each g member own _ failed
    cases same

theorem settled (kind : Group) (g : Grouping) : g.Settled kind := by
  induction g with
  | operand e =>
    intro formed result builds
    cases builds
    exact ⟨e, rfl, formed e (List.mem_singleton_self e), (kind.splice_singleton e).symm⟩
  | group first rest firstIH restIH =>
    intro formed result builds
    obtain ⟨made, whole⟩ := result_of_group (List.forall_mem_cons.mpr ⟨firstIH, restIH⟩) formed builds
    exact ⟨_, made, whole, kind.contribution_ofParts _⟩

/-- There is always a result, and however the brackets are built it is the flat group of the operands. -/
theorem builds_iff {kind : Group} {first : Grouping} {rest : List Grouping} {result : Except BuildError Element}
    (formed : ∀ e ∈ (group first rest).operands, e.wellFormed = true) :
    (group first rest).Builds kind result ↔
      result = .ok (kind.ofParts (kind.splice (group first rest).operands)) := by
  have only : ∀ other, (group first rest).Builds kind other →
      other = .ok (kind.ofParts (kind.splice (group first rest).operands)) :=
    fun other builds => (result_of_group (fun g _ => g.settled kind) formed builds).1
  constructor
  · exact only result
  · rintro rfl
    have some := builds_build kind (group first rest)
    rw [only _ some] at some
    exact some

end Grouping

/-- All constructors of a kind of group agree, and brackets among the operands make no difference. -/
theorem Group.constructions_agree (group : Group) (first : Element) (rest : List Element)
    (built : ∀ e ∈ first :: rest, e.Buildable) :
    group.ofList (first :: rest) = .ok (group.ofCons first rest) ∧
      (rest ≠ [] → rest.foldl group.pair first = group.ofCons first rest ∧
        (first :: rest).dropLast.foldr group.pair ((first :: rest).getLast (List.cons_ne_nil _ _)) =
          group.ofCons first rest) ∧
      (∀ g gs, (Grouping.group g gs).operands = first :: rest →
        ∀ result, (Grouping.group g gs).Builds group result ↔ result = .ok (group.ofCons first rest)) ∧
      (group.ofList (first :: rest) >>= fun whole => group.ofList [whole]) = group.ofList (first :: rest) ∧
      ∀ a b c, group.pair (group.pair a b) c = group.pair a (group.pair b c) := by
  have formed : ∀ e ∈ first :: rest, e.wellFormed = true := fun e member => (built e member).wellFormed
  have checked := group.ofList_of_wellFormed (List.cons_ne_nil first rest) formed
  refine ⟨checked, ?_, ?_, group.ofList_ofList _, group.pair_assoc⟩
  · intro several
    obtain ⟨second, more, rfl⟩ := List.exists_cons_of_ne_nil several
    exact ⟨group.foldl_pair first second more, group.foldr_pair_dropLast first second more⟩
  · intro g gs same result
    rw [← same] at formed
    rw [Grouping.builds_iff formed, same]
    rfl

theorem Group.constructions_agree_of_mixed_operands :
    (∀ e ∈ [Element.terminal "a", .alternation ["b", "c"], .concatenation ["d", "e"]], Element.Buildable e) ∧
      Group.sequence.ofList ["a", .alternation ["b", "c"], .concatenation ["d", "e"]] =
        .ok (.concatenation ["a", .alternation ["b", "c"], "d", "e"]) ∧
      ∀ result, (Grouping.group (.group (.operand "a") [.operand (.alternation ["b", "c"])])
          [.group (.operand (.concatenation ["d", "e"])) []]).Builds .sequence result ↔
        result = .ok (.concatenation ["a", .alternation ["b", "c"], "d", "e"]) := by
  have choice : Element.Buildable (.alternation ["b", "c"]) := .pair (.terminal "b") (.terminal "c") .choice
  have sequence : Element.Buildable (.concatenation ["d", "e"]) := .pair (.terminal "d") (.terminal "e") .sequence
  have built : ∀ e ∈ [Element.terminal "a", .alternation ["b", "c"], .concatenation ["d", "e"]], Element.Buildable e := by
    simp only [List.forall_mem_cons]
    exact ⟨.terminal "a", choice, sequence, List.forall_mem_nil _⟩
  obtain ⟨checked, _, bracketed, _⟩ := constructions_agree .sequence "a" _ built
  exact ⟨built, checked, bracketed _ _ rfl⟩

end Ebnf
