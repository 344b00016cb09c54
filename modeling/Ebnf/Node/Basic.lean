import Ebnf.Element.Basic

/-! Trees of matched text. A node keeps the element that it belongs to; nothing forces a node made by hand
to fit that element. Only terminal nodes hold text, and every other node has the text of its children. -/
namespace Ebnf

inductive Node where
  | terminal (element : Element) (text : String)
  | concatenation (element : Element) (children : List Node)
  | alternation (element : Element) (child : Node)
  | repetition (element : Element) (children : List Node)

namespace Node

instance : Inhabited Node := ⟨.terminal default ""⟩

mutual
protected def decEq (a b : Node) : Decidable (a = b) :=
  match a, b with
  | .terminal e v, .terminal f w => decidable_of_iff (e = f ∧ v = w) (by simp)
  | .concatenation e ns, .concatenation f ms =>
    haveI := Node.listDecEq ns ms
    decidable_of_iff (e = f ∧ ns = ms) (by simp)
  | .alternation e n, .alternation f m =>
    haveI := Node.decEq n m
    decidable_of_iff (e = f ∧ n = m) (by simp)
  | .repetition e ns, .repetition f ms =>
    haveI := Node.listDecEq ns ms
    decidable_of_iff (e = f ∧ ns = ms) (by simp)
  | .terminal _ _, .concatenation _ _ | .terminal _ _, .alternation _ _ | .terminal _ _, .repetition _ _
  | .concatenation _ _, .terminal _ _ | .concatenation _ _, .alternation _ _
  | .concatenation _ _, .repetition _ _ | .alternation _ _, .terminal _ _
  | .alternation _ _, .concatenation _ _ | .alternation _ _, .repetition _ _
  | .repetition _ _, .terminal _ _ | .repetition _ _, .concatenation _ _
  | .repetition _ _, .alternation _ _ => isFalse (by simp)

protected def listDecEq (ns ms : List Node) : Decidable (ns = ms) :=
  match ns, ms with
  | [], [] => isTrue rfl
  | n :: ns, m :: ms =>
    haveI := Node.decEq n m
    haveI := Node.listDecEq ns ms
    decidable_of_iff (n = m ∧ ns = ms) (by simp)
  | [], _ :: _ | _ :: _, [] => isFalse (by simp)
end

instance : DecidableEq Node := Node.decEq

@[elab_as_elim, induction_eliminator]
protected theorem induction {motive : Node → Prop} (terminal : ∀ e text, motive (.terminal e text))
    (concatenation : ∀ e children, (∀ n ∈ children, motive n) → motive (.concatenation e children))
    (alternation : ∀ e child, motive child → motive (.alternation e child))
    (repetition : ∀ e children, (∀ n ∈ children, motive n) → motive (.repetition e children))
    (n : Node) : motive n :=
  @Node.rec motive (fun ns => ∀ n ∈ ns, motive n) terminal concatenation alternation repetition
    (fun _ none => nomatch none)
    (fun _ _ head tail _ => fun | .head _ => head | .tail _ member => tail _ member) n

def element : Node → Element
  | .terminal e _ | .concatenation e _ | .alternation e _ | .repetition e _ => e

def children : Node → List Node
  | .terminal _ _ => []
  | .concatenation _ children | .repetition _ children => children
  | .alternation _ child => [child]

mutual
def byteLength : Node → Nat
  | .terminal _ text => text.utf8ByteSize
  | .concatenation _ children | .repetition _ children => byteLengthAll children
  | .alternation _ child => child.byteLength

def byteLengthAll : List Node → Nat
  | [] => 0
  | n :: ns => n.byteLength + byteLengthAll ns
end

def isEmpty (n : Node) : Bool := n.byteLength == 0

mutual
def text : Node → String
  | .terminal _ text => text
  | .concatenation _ children | .repetition _ children => textAll children
  | .alternation _ child => child.text

def textAll : List Node → String
  | [] => ""
  | n :: ns => n.text ++ textAll ns
end

instance : ToString Node := ⟨text⟩

def descend : Node → List Nat → Except Nat Node
  | n, [] => .ok n
  | n, i :: path =>
    match n.children[i]? with
    | some child => child.descend path
    | none => .error i

mutual
def preorder (depth : Nat) : Node → List (Nat × Node)
  | .terminal e text => [(depth, .terminal e text)]
  | .concatenation e children => (depth, .concatenation e children) :: preorderAll (depth + 1) children
  | .alternation e child => (depth, .alternation e child) :: child.preorder (depth + 1)
  | .repetition e children => (depth, .repetition e children) :: preorderAll (depth + 1) children

def preorderAll (depth : Nat) : List Node → List (Nat × Node)
  | [] => []
  | n :: ns => n.preorder depth ++ preorderAll depth ns
end

def outline (n : Node) : List (Nat × Node) := n.preorder 0

mutual
def size : Node → Nat
  | .terminal _ _ => 1
  | .concatenation _ children | .repetition _ children => sizeAll children + 1
  | .alternation _ child => child.size + 1

def sizeAll : List Node → Nat
  | [] => 0
  | n :: ns => n.size + sizeAll ns
end

mutual
def depth : Node → Nat
  | .terminal _ _ => 1
  | .concatenation _ children | .repetition _ children => depthAll children + 1
  | .alternation _ child => child.depth + 1

def depthAll : List Node → Nat
  | [] => 0
  | n :: ns => max n.depth (depthAll ns)
end

theorem byteLengthAll_eq_utf8ByteSize {ns : List Node}
    (each : ∀ n ∈ ns, n.byteLength = n.text.utf8ByteSize) :
    byteLengthAll ns = (textAll ns).utf8ByteSize := by
  induction ns with
  | nil => rfl
  | cons n ns ih =>
    have tail := ih fun m member => each m (by simp [member])
    simp [byteLengthAll, textAll, each n (by simp), tail]

theorem byteLength_eq_utf8ByteSize (n : Node) : n.byteLength = n.text.utf8ByteSize := by
  induction n with
  | terminal e value => simp [byteLength, text]
  | concatenation e children each | repetition e children each =>
    simpa only [byteLength, text] using byteLengthAll_eq_utf8ByteSize each
  | alternation e child ih => simpa only [byteLength, text] using ih

@[simp] theorem textAll_singleton (n : Node) : textAll [n] = n.text := by
  rw [textAll, textAll, String.append_empty]

end Node
end Ebnf
