import Ebnf.Element.Basic

/-! What can be read off an element without matching it: its terminals, whether it can match nothing, and
how large it is. -/
namespace Ebnf.Element

mutual
def terminals : Element → List String
  | .terminal value => [value]
  | .concatenation parts => terminalsAll parts
  | .alternation branches => terminalsAll branches
  | .repetition inner => inner.terminals

def terminalsAll : List Element → List String
  | [] => []
  | e :: es => e.terminals ++ terminalsAll es
end

mutual
/-- The texts of the terminals that stand under no repetition, from left to right. Only these can be blamed
for a mismatch, since a repetition always matches. -/
def openTerminals : Element → List String
  | .terminal value => [value]
  | .concatenation parts => openTerminalsAll parts
  | .alternation branches => openTerminalsAll branches
  | .repetition _ => []

def openTerminalsAll : List Element → List String
  | [] => []
  | e :: es => e.openTerminals ++ openTerminalsAll es
end

mutual
def hasOpenChoice : Element → Bool
  | .terminal _ => false
  | .concatenation parts => hasOpenChoiceAny parts
  | .alternation _ => true
  | .repetition _ => false

def hasOpenChoiceAny : List Element → Bool
  | [] => false
  | e :: es => e.hasOpenChoice || hasOpenChoiceAny es
end

mutual
def nullable : Element → Bool
  | .terminal value => value.isEmpty
  | .concatenation parts => nullableAll parts
  | .alternation branches => nullableAny branches
  | .repetition _ => true

def nullableAll : List Element → Bool
  | [] => true
  | e :: es => e.nullable && nullableAll es

def nullableAny : List Element → Bool
  | [] => false
  | e :: es => e.nullable || nullableAny es
end

mutual
def size : Element → Nat
  | .terminal _ => 1
  | .concatenation parts => sizeAll parts + 1
  | .alternation branches => sizeAll branches + 1
  | .repetition inner => inner.size + 1

def sizeAll : List Element → Nat
  | [] => 0
  | e :: es => e.size + sizeAll es
end

mutual
def repetitionDepth : Element → Nat
  | .terminal _ => 0
  | .concatenation parts => repetitionDepthAll parts
  | .alternation branches => repetitionDepthAll branches
  | .repetition inner => inner.repetitionDepth + 1

def repetitionDepthAll : List Element → Nat
  | [] => 0
  | e :: es => max e.repetitionDepth (repetitionDepthAll es)
end

theorem terminalsAll_eq_flatMap (es : List Element) : terminalsAll es = es.flatMap terminals := by
  induction es with
  | nil => rfl
  | cons e es ih => simp [terminalsAll, ih]

theorem openTerminalsAll_eq_flatMap (es : List Element) : openTerminalsAll es = es.flatMap openTerminals := by
  induction es with
  | nil => rfl
  | cons e es ih => simp [openTerminalsAll, ih]

theorem nullableAll_eq_all (es : List Element) : nullableAll es = es.all nullable := by
  induction es with
  | nil => rfl
  | cons e es ih => simp [nullableAll, ih]

theorem nullableAny_eq_any (es : List Element) : nullableAny es = es.any nullable := by
  induction es with
  | nil => rfl
  | cons e es ih => simp [nullableAny, ih]

end Ebnf.Element
