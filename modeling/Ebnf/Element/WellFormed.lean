import Ebnf.Element.Group

/-! The shape that building gives to elements: no group is empty, and none has a direct part of its own kind. -/
namespace Ebnf.Element

mutual
def wellFormed : Element → Bool
  | .terminal _ => true
  | .concatenation parts => !parts.isEmpty && !parts.any isConcatenation && wellFormedAll parts
  | .alternation branches => !branches.isEmpty && !branches.any isAlternation && wellFormedAll branches
  | .repetition inner => inner.wellFormed

def wellFormedAll : List Element → Bool
  | [] => true
  | e :: es => e.wellFormed && wellFormedAll es
end

/-- The elements that can be had by building and by taking parts of what is built. -/
inductive Buildable : Element → Prop where
  | terminal (value : String) : Buildable (.terminal value)
  | repetition {inner : Element} (built : Buildable inner) : Buildable (.repetition inner)
  | ofList {group : Group} {operands : List Element} {whole : Element}
      (built : ∀ e ∈ operands, Buildable e) (made : group.ofList operands = .ok whole) : Buildable whole
  | ofCons {group : Group} {first : Element} {rest : List Element}
      (built : ∀ e ∈ first :: rest, Buildable e) : Buildable (group.ofCons first rest)
  | part {whole part : Element} (built : Buildable whole) (child : part ∈ whole.children) : Buildable part

theorem wellFormedAll_eq_all (es : List Element) : wellFormedAll es = es.all wellFormed := by
  induction es with
  | nil => rfl
  | cons e es ih => simp [wellFormedAll, ih]

end Ebnf.Element
