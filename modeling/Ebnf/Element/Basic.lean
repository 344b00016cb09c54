/-! Grammar elements: literals, sequences, ordered choices and greedy repetitions.
The constructors take any parts; `Group` builds sequences and choices that are not empty and hold no group of
their own kind. Equality is structural and decidable, and a list of positions leads to any part. -/
namespace Ebnf

inductive Element where
  | terminal (value : String)
  | concatenation (parts : List Element)
  | alternation (branches : List Element)
  | repetition (inner : Element)

namespace Element

instance : Inhabited Element := ⟨.terminal ""⟩

instance : Coe String Element := ⟨.terminal⟩

mutual
protected def decEq (a b : Element) : Decidable (a = b) :=
  match a, b with
  | .terminal v, .terminal w => decidable_of_iff (v = w) (by simp)
  | .concatenation es, .concatenation fs =>
    haveI := Element.listDecEq es fs
    decidable_of_iff (es = fs) (by simp)
  | .alternation es, .alternation fs =>
    haveI := Element.listDecEq es fs
    decidable_of_iff (es = fs) (by simp)
  | .repetition e, .repetition f =>
    haveI := Element.decEq e f
    decidable_of_iff (e = f) (by simp)
  | .terminal _, .concatenation _ | .terminal _, .alternation _ | .terminal _, .repetition _
  | .concatenation _, .terminal _ | .concatenation _, .alternation _ | .concatenation _, .repetition _
  | .alternation _, .terminal _ | .alternation _, .concatenation _ | .alternation _, .repetition _
  | .repetition _, .terminal _ | .repetition _, .concatenation _ | .repetition _, .alternation _ =>
    isFalse (by simp)

protected def listDecEq (es fs : List Element) : Decidable (es = fs) :=
  match es, fs with
  | [], [] => isTrue rfl
  | e :: es, f :: fs =>
    haveI := Element.decEq e f
    haveI := Element.listDecEq es fs
    decidable_of_iff (e = f ∧ es = fs) (by simp)
  | [], _ :: _ | _ :: _, [] => isFalse (by simp)
end

instance : DecidableEq Element := Element.decEq

@[elab_as_elim, induction_eliminator]
protected theorem induction {motive : Element → Prop} (terminal : ∀ value, motive (.terminal value))
    (concatenation : ∀ parts, (∀ e ∈ parts, motive e) → motive (.concatenation parts))
    (alternation : ∀ branches, (∀ e ∈ branches, motive e) → motive (.alternation branches))
    (repetition : ∀ inner, motive inner → motive (.repetition inner)) (e : Element) : motive e :=
  @Element.rec motive (fun es => ∀ e ∈ es, motive e) terminal concatenation alternation repetition
    (fun _ none => nomatch none)
    (fun _ _ head tail _ => fun | .head _ => head | .tail _ member => tail _ member) e

def terminalValue? : Element → Option String
  | .terminal value => some value
  | _ => none

def isConcatenation : Element → Bool
  | .concatenation _ => true
  | _ => false

def isAlternation : Element → Bool
  | .alternation _ => true
  | _ => false

def isRepetition : Element → Bool
  | .repetition _ => true
  | _ => false

def children : Element → List Element
  | .terminal _ => []
  | .concatenation parts => parts
  | .alternation branches => branches
  | .repetition inner => [inner]

def descend : Element → List Nat → Except Nat Element
  | e, [] => .ok e
  | e, i :: path =>
    match e.children[i]? with
    | some child => child.descend path
    | none => .error i

mutual
def preorder (depth : Nat) : Element → List (Nat × Element)
  | .terminal value => [(depth, .terminal value)]
  | .concatenation parts => (depth, .concatenation parts) :: preorderAll (depth + 1) parts
  | .alternation branches => (depth, .alternation branches) :: preorderAll (depth + 1) branches
  | .repetition inner => (depth, .repetition inner) :: preorder (depth + 1) inner

def preorderAll (depth : Nat) : List Element → List (Nat × Element)
  | [] => []
  | e :: es => preorder depth e ++ preorderAll depth es
end

def outline (e : Element) : List (Nat × Element) := e.preorder 0

example : (concatenation [.terminal "a", .repetition (.terminal "b")]).outline =
    [(0, .concatenation [.terminal "a", .repetition (.terminal "b")]), (1, .terminal "a"),
      (1, .repetition (.terminal "b")), (2, .terminal "b")] := by decide

end Element
end Ebnf
