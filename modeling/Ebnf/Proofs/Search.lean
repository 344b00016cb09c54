import Mathlib.Algebra.GroupWithZero.Nat
import Ebnf.Proofs.Brackets

/-! The log of a match is an exact record of its search. What stands directly in a bracket follows from the
element of the bracket: a sequence tries its parts one behind the other up to a failure, a choice its branches
at one place up to a match, a repetition its element again and again until one of three things ends it. -/
namespace Ebnf

def Ending.bytes : Ending → Nat
  | .matched bytes => bytes
  | .unmatched _ => 0

def Ending.errors : Ending → Nat
  | .matched _ => 0
  | .unmatched errors => errors

def Event.isNote : Event → Bool
  | .stalled _ _ => true
  | _ => false

namespace Bracket

def Matched (b : Bracket) : Prop := ∃ bytes, b.ending = .matched bytes

def Unmatched (b : Bracket) : Prop := ∃ errors, b.ending = .unmatched errors

def totalBytes (bs : List Bracket) : Nat := (bs.map fun b => b.ending.bytes).sum

def totalErrors (bs : List Bracket) : Nat := (bs.map fun b => b.ending.errors).sum

def Placed (offset : Nat) (bs : List Bracket) : Prop :=
  ∀ before b after, bs = before ++ b :: after → b.offset = offset + totalBytes before

/-- The parts are tried in order. If all of them match, so does the sequence; else the last that is tried is
the first that does not match, and its errors are those of the sequence. -/
structure InSequence (parts : List Element) (offset : Nat) (ending : Ending) (directs : List Bracket) :
    Prop where
  inOrder : directs.map element <+: parts
  placed : Placed offset directs
  outcome : match ending with
    | .matched bytes => directs.map element = parts ∧ (∀ d ∈ directs, d.Matched) ∧ bytes = totalBytes directs
    | .unmatched errors => ∃ before last, directs = before ++ [last] ∧ (∀ d ∈ before, d.Matched) ∧
        last.ending = .unmatched errors

/-- The branches are tried in order, all at one place. If one matches it is the last, and the choice matches
like it; else all of them are tried, and the errors of all are those of the choice. -/
structure InChoice (branches : List Element) (offset : Nat) (ending : Ending) (directs : List Bracket) :
    Prop where
  inOrder : directs.map element <+: branches
  placed : ∀ d ∈ directs, d.offset = offset
  outcome : match ending with
    | .matched bytes => ∃ before last, directs = before ++ [last] ∧ (∀ d ∈ before, d.Unmatched) ∧
        last.ending = .matched bytes
    | .unmatched errors => directs.map element = branches ∧ (∀ d ∈ directs, d.Unmatched) ∧
        errors = totalErrors directs

inductive Stops (size : Nat) (inner : Element) (offset : Nat) : List Bracket → List Event → Prop
  | usedUp (all : offset = size) : Stops size inner offset [] []
  | blocked {last : Bracket} (unmatched : last.Unmatched) : Stops size inner offset [last] []
  | idle {last : Bracket} (nothing : last.ending = .matched 0) :
      Stops size inner offset [last] [.stalled inner offset]

/-- The inner element is tried round after round, at ever later places inside the text. Each round but the one
that ends the repetition matches and uses text, and their bytes are those of the repetition. -/
structure InRepetition (size : Nat) (inner : Element) (offset : Nat) (ending : Ending)
    (directs : List Bracket) (noted : List Event) : Prop where
  same : ∀ d ∈ directs, d.element = inner
  placed : Placed offset directs
  increasing : (directs.map Bracket.offset).Pairwise (· < ·)
  inside : ∀ d ∈ directs, d.offset < size
  outcome : ∃ rounds last, directs = rounds ++ last ∧
    (∀ d ∈ rounds, ∃ bytes, 0 < bytes ∧ d.ending = .matched bytes) ∧
    ending = .matched (totalBytes rounds) ∧ Stops size inner (offset + totalBytes rounds) last noted

structure Contains (b : Bracket) (directs : List Bracket) (noted : List Event) : Prop where
  split : b.inside = directs.flatMap events ++ noted
  quiet : ∀ event ∈ noted, event.isNote = true

def Follows (size : Nat) (b : Bracket) (directs : List Bracket) (noted : List Event) : Prop :=
  match b.element with
  | .terminal value =>
    directs = [] ∧ noted = [] ∧ (b.ending = .matched value.utf8ByteSize ∨ b.ending = .unmatched 1)
  | .concatenation parts => directs ≠ [] ∧ noted = [] ∧ InSequence parts b.offset b.ending directs
  | .alternation branches => directs ≠ [] ∧ noted = [] ∧ InChoice branches b.offset b.ending directs
  | .repetition inner => InRepetition size inner b.offset b.ending directs noted

theorem directs_unique {directs others : List Bracket} {noted notes : List Event}
    (quiet : ∀ event ∈ noted, event.isNote = true) (alsoQuiet : ∀ event ∈ notes, event.isNote = true)
    (same : directs.flatMap events ++ noted = others.flatMap events ++ notes) :
    directs = others ∧ noted = notes := by
  have opens {b : Bracket} {bs : List Bracket} {left right : List Event}
      (silent : ∀ event ∈ right, event.isNote = true) : (b :: bs).flatMap events ++ left ≠ right := by
    rintro rfl
    cases silent (.trying b.element b.offset) (by simp [events])
  induction directs generalizing others with
  | nil =>
    cases others with
    | nil => exact ⟨rfl, same⟩
    | cons b bs => exact absurd same.symm (opens quiet)
  | cons b bs ih =>
    cases others with
    | nil => exact absurd same (opens alsoQuiet)
    | cons other others =>
      rw [List.flatMap_cons, List.flatMap_cons, List.append_assoc, List.append_assoc] at same
      obtain ⟨rfl, rest⟩ := eq_of_append same
      obtain ⟨rfl, notesSame⟩ := ih rest
      exact ⟨rfl, notesSame⟩

/-- What stands directly in a bracket is never in doubt. -/
theorem Contains.unique {b : Bracket} {directs others : List Bracket} {noted notes : List Event}
    (contains : b.Contains directs noted) (other : b.Contains others notes) :
    directs = others ∧ noted = notes :=
  directs_unique contains.quiet other.quiet (contains.split.symm.trans other.split)

theorem Placed.nil (offset : Nat) : Placed offset [] := by
  intro before b after split
  cases before <;> cases split

theorem Placed.cons {offset : Nat} {b : Bracket} {bs : List Bracket} (place : b.offset = offset)
    (later : Placed (offset + b.ending.bytes) bs) : Placed offset (b :: bs) := by
  intro before d after split
  cases before with
  | nil =>
    obtain ⟨rfl, _⟩ := List.cons.inj split
    exact place
  | cons first before =>
    obtain ⟨rfl, rest⟩ := List.cons.inj split
    rw [later before d after rest, Nat.add_assoc]
    rfl

namespace InSequence
variable {e : Element} {es : List Element} {offset : Nat} {b : Bracket} {bs : List Bracket}

theorem nil (offset : Nat) : InSequence [] offset (.matched 0) [] :=
  ⟨List.nil_prefix, .nil offset, rfl, nofun, rfl⟩

theorem stop {errors : Nat} (tried : b.element = e) (place : b.offset = offset)
    (unmatched : b.ending = .unmatched errors) : InSequence (e :: es) offset (.unmatched errors) [b] := by
  refine ⟨⟨es, ?_⟩, .cons place (.nil _), [], b, rfl, nofun, unmatched⟩
  rw [← tried]
  rfl

theorem matched {bytes more : Nat} (tried : b.element = e) (place : b.offset = offset)
    (first : b.ending = .matched bytes) (later : InSequence es (offset + bytes) (.matched more) bs) :
    InSequence (e :: es) offset (.matched (bytes + more)) (b :: bs) := by
  obtain ⟨inOrder, placed, whole, each, total⟩ := later
  have own : b.ending.bytes = bytes := by rw [first]; rfl
  rw [← own] at placed ⊢
  refine ⟨?_, .cons place placed, ?_, ?_, ?_⟩
  · rw [List.map_cons, tried]
    exact List.cons_prefix_cons.mpr ⟨rfl, inOrder⟩
  · rw [List.map_cons, tried, whole]
  · exact List.forall_mem_cons.mpr ⟨⟨bytes, first⟩, each⟩
  · rw [total]
    rfl

theorem broken {bytes errors : Nat} (tried : b.element = e) (place : b.offset = offset)
    (first : b.ending = .matched bytes) (later : InSequence es (offset + bytes) (.unmatched errors) bs) :
    InSequence (e :: es) offset (.unmatched errors) (b :: bs) := by
  obtain ⟨inOrder, placed, before, last, split, each, unmatched⟩ := later
  have own : b.ending.bytes = bytes := by rw [first]; rfl
  rw [← own] at placed
  refine ⟨?_, .cons place placed, b :: before, last, ?_, ?_, unmatched⟩
  · rw [List.map_cons, tried]
    exact List.cons_prefix_cons.mpr ⟨rfl, inOrder⟩
  · rw [split, List.cons_append]
  · exact List.forall_mem_cons.mpr ⟨⟨bytes, first⟩, each⟩

end InSequence

namespace InChoice
variable {e : Element} {es : List Element} {offset : Nat} {b : Bracket} {bs : List Bracket}

theorem nil (offset : Nat) : InChoice [] offset (.unmatched 0) [] :=
  ⟨List.nil_prefix, nofun, rfl, nofun, rfl⟩

theorem first {bytes : Nat} (tried : b.element = e) (place : b.offset = offset)
    (matched : b.ending = .matched bytes) : InChoice (e :: es) offset (.matched bytes) [b] := by
  refine ⟨⟨es, ?_⟩, ?_, [], b, rfl, nofun, matched⟩
  · rw [← tried]
    rfl
  · intro d member
    rw [List.mem_singleton.mp member]
    exact place

theorem later {errors bytes : Nat} (tried : b.element = e) (place : b.offset = offset)
    (unmatched : b.ending = .unmatched errors) (later : InChoice es offset (.matched bytes) bs) :
    InChoice (e :: es) offset (.matched bytes) (b :: bs) := by
  obtain ⟨inOrder, placed, before, last, split, each, matched⟩ := later
  refine ⟨?_, List.forall_mem_cons.mpr ⟨place, placed⟩, b :: before, last, ?_, ?_, matched⟩
  · rw [List.map_cons, tried]
    exact List.cons_prefix_cons.mpr ⟨rfl, inOrder⟩
  · rw [split, List.cons_append]
  · exact List.forall_mem_cons.mpr ⟨⟨errors, unmatched⟩, each⟩

theorem none {errors more : Nat} (tried : b.element = e) (place : b.offset = offset)
    (unmatched : b.ending = .unmatched errors) (later : InChoice es offset (.unmatched more) bs) :
    InChoice (e :: es) offset (.unmatched (errors + more)) (b :: bs) := by
  obtain ⟨inOrder, placed, whole, each, total⟩ := later
  refine ⟨?_, List.forall_mem_cons.mpr ⟨place, placed⟩, ?_, ?_, ?_⟩
  · rw [List.map_cons, tried]
    exact List.cons_prefix_cons.mpr ⟨rfl, inOrder⟩
  · rw [List.map_cons, tried, whole]
  · exact List.forall_mem_cons.mpr ⟨⟨errors, unmatched⟩, each⟩
  · have own : b.ending.errors = errors := by rw [unmatched]; rfl
    rw [total, ← own]
    rfl

end InChoice

namespace InRepetition
variable {size : Nat} {inner : Element} {offset : Nat} {b : Bracket} {bs : List Bracket} {noted : List Event}

theorem usedUp (all : offset = size) : InRepetition size inner offset (.matched 0) [] [] :=
  ⟨nofun, .nil offset, .nil, nofun, [], [], rfl, nofun, rfl, .usedUp all⟩

theorem stop (tried : b.element = inner) (place : b.offset = offset) (below : offset < size)
    (stops : Stops size inner offset [b] noted) : InRepetition size inner offset (.matched 0) [b] noted := by
  refine ⟨?_, .cons place (.nil _), List.pairwise_singleton _ _, ?_, [], [b], rfl, nofun, rfl, stops⟩
  · exact List.forall_mem_cons.mpr ⟨tried, nofun⟩
  · exact List.forall_mem_cons.mpr ⟨by omega, nofun⟩

theorem again {bytes more : Nat} (tried : b.element = inner) (place : b.offset = offset)
    (below : offset < size) (used : 0 < bytes) (matched : b.ending = .matched bytes)
    (later : InRepetition size inner (offset + bytes) (.matched more) bs noted) :
    InRepetition size inner offset (.matched (bytes + more)) (b :: bs) noted := by
  obtain ⟨same, placed, increasing, inside, rounds, last, split, each, total, stops⟩ := later
  have further : ∀ d ∈ bs, b.offset < d.offset := by
    intro d member
    obtain ⟨before, after, around⟩ := List.append_of_mem member
    have := placed before d after around
    omega
  have own : b.ending.bytes = bytes := by rw [matched]; rfl
  have sum : totalBytes (b :: rounds) = bytes + totalBytes rounds := by rw [← own]; rfl
  cases total
  rw [← own] at placed
  refine ⟨List.forall_mem_cons.mpr ⟨tried, same⟩, .cons place placed, ?_,
    List.forall_mem_cons.mpr ⟨by omega, inside⟩, b :: rounds, last, ?_,
    List.forall_mem_cons.mpr ⟨⟨bytes, used, matched⟩, each⟩, ?_, ?_⟩
  · rw [List.map_cons, List.pairwise_cons]
    exact ⟨List.forall_mem_map.mpr further, increasing⟩
  · rw [split, List.cons_append]
  · rw [sum]
  · rw [sum, ← Nat.add_assoc]
    exact stops

end InRepetition

end Bracket
end Ebnf
