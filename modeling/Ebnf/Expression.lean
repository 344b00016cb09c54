import Ebnf.Element.Group
import Ebnf.Verdict

/-! Construction expressions: what is written down to build an element, before any group is spliced.
An expression can be matched as it stands, by the rules of its operators, without building anything. -/
namespace Ebnf

inductive Expression where
  | literal (value : String)
  | repetition (inner : Expression)
  | group (kind : Group) (first : Expression) (rest : List Expression)

namespace Expression

@[elab_as_elim, induction_eliminator]
protected theorem induction {motive : Expression → Prop} (literal : ∀ value, motive (.literal value))
    (repetition : ∀ inner, motive inner → motive (.repetition inner))
    (group : ∀ kind first rest, motive first → (∀ x ∈ rest, motive x) → motive (.group kind first rest))
    (x : Expression) : motive x :=
  @Expression.rec motive (fun xs => ∀ x ∈ xs, motive x) literal repetition group
    (fun _ none => nomatch none)
    (fun _ _ head tail _ => fun | .head _ => head | .tail _ member => tail _ member) x

mutual
def build : Expression → Element
  | .literal value => .terminal value
  | .repetition inner => .repetition inner.build
  | .group kind first rest => kind.ofCons first.build (buildAll rest)

def buildAll : List Expression → List Element
  | [] => []
  | x :: xs => x.build :: buildAll xs
end

/-- Steps on while there is text left and the step matches and uses some of it. -/
def walkOn (step : Cursor → Verdict Unit) : List Char → Cursor → Cursor
  | [], c => c
  | _ :: bound, c =>
    if c.rest.isEmpty then c else
    match step c with
    | .mismatched _ => c
    | .matched () next => if next.offset = c.offset then c else walkOn step bound next

mutual
def walk : Expression → Cursor → Verdict Unit
  | .literal value, c =>
    match c.skip? value with
    | some next => .matched () next
    | none => .mismatched [.ofLiteral value c]
  | .repetition inner, c => .matched () (walkOn (walk inner) c.rest c)
  | .group .sequence first rest, c =>
    match walk first c with
    | .matched () next => walkAll rest next
    | .mismatched errors => .mismatched errors
  | .group .choice first rest, c =>
    match walk first c with
    | .matched () next => .matched () next
    | .mismatched errors =>
      match walkAny rest c with
      | .matched () next => .matched () next
      | .mismatched later => .mismatched (errors ++ later)

def walkAll : List Expression → Cursor → Verdict Unit
  | [], c => .matched () c
  | x :: xs, c =>
    match walk x c with
    | .matched () next => walkAll xs next
    | .mismatched errors => .mismatched errors

def walkAny : List Expression → Cursor → Verdict Unit
  | [], _ => .mismatched []
  | x :: xs, c =>
    match walk x c with
    | .matched () next => .matched () next
    | .mismatched errors =>
      match walkAny xs c with
      | .matched () next => .matched () next
      | .mismatched later => .mismatched (errors ++ later)
end

theorem buildAll_eq_map (xs : List Expression) : buildAll xs = xs.map build := by
  induction xs with
  | nil => rfl
  | cons x xs ih => simp [buildAll, ih]

end Expression
end Ebnf
