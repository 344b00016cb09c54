import Ebnf.Element.Basic

/-! The two kinds of group, sequence and choice, and how they are built.
An operand that is itself a group of the same kind is spliced: its parts stand in its place. Groups of
either kind are built by one set of functions, so that a law of one kind is a law of the other. -/
namespace Ebnf

inductive Group where
  | sequence
  | choice
  deriving DecidableEq

inductive BuildError where
  | emptyOperands (group : Group)
  deriving DecidableEq

namespace Group

def name : Group → String
  | .sequence => "sequence"
  | .choice => "choice"

def ofParts : Group → List Element → Element
  | .sequence, parts => .concatenation parts
  | .choice, branches => .alternation branches

def contribution : Group → Element → List Element
  | .sequence, .concatenation parts => parts
  | .choice, .alternation branches => branches
  | _, operand => [operand]

def splice (group : Group) (operands : List Element) : List Element :=
  operands.flatMap group.contribution

def ofList (group : Group) (operands : List Element) : Except BuildError Element :=
  match group.splice operands with
  | [] => .error (.emptyOperands group)
  | parts => .ok (group.ofParts parts)

def ofCons (group : Group) (first : Element) (rest : List Element) : Element :=
  group.ofParts (group.splice (first :: rest))

def pair (group : Group) (left right : Element) : Element := group.ofCons left [right]

theorem splice_cons (group : Group) (e : Element) (es : List Element) :
    group.splice (e :: es) = group.contribution e ++ group.splice es := rfl

theorem splice_singleton (group : Group) (e : Element) : group.splice [e] = group.contribution e := by
  rw [splice_cons]
  exact List.append_nil _

theorem splice_append (group : Group) (first second : List Element) :
    group.splice (first ++ second) = group.splice first ++ group.splice second := by
  simp [splice]

@[simp] theorem contribution_ofParts (group : Group) (parts : List Element) :
    group.contribution (group.ofParts parts) = parts := by
  cases group <;> rfl

theorem mem_contribution {group : Group} {part operand : Element} (member : part ∈ group.contribution operand) :
    part = operand ∨ part ∈ operand.children := by
  cases group <;> cases operand <;> simp_all [contribution, Element.children]

theorem ofList_eq_ok_iff {group : Group} {operands : List Element} {whole : Element} :
    group.ofList operands = .ok whole ↔
      group.splice operands ≠ [] ∧ group.ofParts (group.splice operands) = whole := by
  unfold ofList
  split <;> simp_all

end Group

def BuildError.message : BuildError → String
  | .emptyOperands group => s!"a {group.name} needs at least one operand"

example : Group.sequence.pair (Group.sequence.pair "a" "b") "c" = .concatenation ["a", "b", "c"] := by decide

example : Group.choice.ofList [] = .error (.emptyOperands .choice) := rfl

end Ebnf
