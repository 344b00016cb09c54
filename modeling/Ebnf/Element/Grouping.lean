import Ebnf.Element.Group

/-! Operands put into groups of one kind, in any way and to any depth. A pair of brackets holds at least one
operand, and building goes from the inside out. -/
namespace Ebnf

inductive Grouping where
  | operand (e : Element)
  | group (first : Grouping) (rest : List Grouping)

namespace Grouping

@[elab_as_elim, induction_eliminator]
protected theorem induction {motive : Grouping → Prop} (operand : ∀ e, motive (.operand e))
    (group : ∀ first rest, motive first → (∀ g ∈ rest, motive g) → motive (.group first rest))
    (g : Grouping) : motive g :=
  @Grouping.rec motive (fun gs => ∀ g ∈ gs, motive g) operand group
    (fun _ none => nomatch none)
    (fun _ _ head tail _ => fun | .head _ => head | .tail _ member => tail _ member) g

mutual
def operands : Grouping → List Element
  | .operand e => [e]
  | .group first rest => first.operands ++ operandsAll rest

def operandsAll : List Grouping → List Element
  | [] => []
  | g :: gs => g.operands ++ operandsAll gs
end

mutual
def build (kind : Group) : Grouping → Element
  | .operand e => e
  | .group first rest => kind.ofCons (first.build kind) (buildAll kind rest)

def buildAll (kind : Group) : List Grouping → List Element
  | [] => []
  | g :: gs => g.build kind :: buildAll kind gs
end

theorem operandsAll_eq_flatMap (gs : List Grouping) : operandsAll gs = gs.flatMap operands := by
  induction gs with
  | nil => rfl
  | cons g gs ih => simp [operandsAll, ih]

example : (Grouping.group (.group (.operand "a") [.operand "b"]) [.operand "c"]).build .choice =
    .alternation ["a", "b", "c"] := by decide

end Grouping
end Ebnf
