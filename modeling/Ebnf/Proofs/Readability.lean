import Mathlib.Data.List.Forall2
import Ebnf.Element.Analysis
import Ebnf.Element.Display
import Ebnf.Proofs.Construction
import Ebnf.Proofs.Interchange

/-! The written form can be read in one way only: where no literal holds a quote, elements that are written
alike differ at most in groups of a single operand, and such elements match alike. Reading goes from the
outside in: a choice ends where no further branch follows, a sequence where no further part follows, and a
part ends by itself, at its closing quote or bracket. -/
namespace Ebnf

theorem Text.intercalate_cons (separator first : List Char) (rest : List (List Char)) :
    separator.intercalate (first :: rest) = first ++ rest.flatMap fun text => separator ++ text := by
  induction rest generalizing first with
  | nil => simp
  | cons second rest ih =>
    rw [List.intercalate_cons_cons, ih, List.flatMap_cons, List.append_assoc, List.append_assoc]

theorem Text.eq_of_append_mark {mark : Char} {first second rest other : List Char} (firstLacks : mark ∉ first)
    (secondLacks : mark ∉ second) (same : first ++ mark :: rest = second ++ mark :: other) :
    first = second ∧ rest = other := by
  induction first generalizing second with
  | nil =>
    cases second with
    | nil => exact ⟨rfl, List.tail_eq_of_cons_eq same⟩
    | cons d second =>
      have head : mark = d := List.head_eq_of_cons_eq same
      exact absurd (head ▸ List.mem_cons_self) secondLacks
  | cons c first ih =>
    cases second with
    | nil =>
      have head : c = mark := List.head_eq_of_cons_eq same
      exact absurd (head ▸ List.mem_cons_self) firstLacks
    | cons d second =>
      obtain ⟨rfl, tails⟩ := List.cons.inj same
      obtain ⟨rfl, after⟩ :=
        ih (List.not_mem_of_not_mem_cons firstLacks) (List.not_mem_of_not_mem_cons secondLacks) tails
      exact ⟨rfl, after⟩

namespace Element

/-- The elements are the same but for groups of a single operand, which count as that operand. -/
inductive Resembles : Element → Element → Prop where
  | terminal (value : String) : Resembles (.terminal value) (.terminal value)
  | repetition {x y : Element} (inner : Resembles x y) : Resembles (.repetition x) (.repetition y)
  | group (kind : Group) {x y : Element}
      (operands : List.Forall₂ Resembles (kind.contribution x) (kind.contribution y)) : Resembles x y

@[elab_as_elim]
theorem Resembles.induction {motive : ∀ {x y : Element}, x.Resembles y → Prop}
    (terminal : ∀ value, motive (.terminal value))
    (repetition : ∀ {x y} (inner : Resembles x y), motive inner → motive (.repetition inner))
    (group : ∀ (kind : Group) {x y}
      (operands : List.Forall₂ Resembles (kind.contribution x) (kind.contribution y)),
      List.Forall₂ (fun x y => ∃ each : Resembles x y, motive each) (kind.contribution x) (kind.contribution y) →
        motive (.group kind operands))
    {x y : Element} (resembles : x.Resembles y) : motive resembles :=
  @Resembles.rec (fun _ _ each => motive each)
    (fun xs ys _ => List.Forall₂ (fun x y => ∃ each : Resembles x y, motive each) xs ys) terminal
    (fun inner ih => repetition inner ih) (fun kind _ _ operands ih => group kind operands ih) .nil
    (fun head _ headIH tailIH => .cons ⟨head, headIH⟩ tailIH) x y resembles

theorem Resembles.advance_eq {x y : Element} (resembles : x.Resembles y) : x.advance = y.advance := by
  induction resembles using Resembles.induction with
  | terminal value => rfl
  | repetition inner ih => exact advance_repetition_congr ih
  | @group kind x y operands each =>
    have same := each.imp fun _ _ ⟨_, same⟩ => same
    funext c
    rw [← kind.advance_contribution x, ← kind.advance_contribution y, kind.advance_congr same]

structure Readable (e : Element) : Prop where
  formed : e.wellFormed = true
  unquoted : ∀ value ∈ e.terminals, '\'' ∉ value.toList

theorem terminals_of_child {whole part : Element} (child : part ∈ whole.children) :
    part.terminals ⊆ whole.terminals := by
  intro value listed
  cases whole with
  | terminal value => cases child
  | concatenation parts | alternation branches =>
    rw [terminals, terminalsAll_eq_flatMap]
    exact List.mem_flatMap.mpr ⟨part, child, listed⟩
  | repetition inner =>
    rw [List.mem_singleton.mp child] at listed
    exact listed

theorem Readable.child {whole part : Element} (readable : whole.Readable) (child : part ∈ whole.children) :
    part.Readable where
  formed := wellFormed_child readable.formed child
  unquoted value listed := readable.unquoted value (terminals_of_child child listed)

end Element

inductive Position where
  | part
  | branch
  | alone

namespace Position

def Admits : Position → Element → Prop
  | .part, e => e.isConcatenation = false
  | .branch, e => e.isAlternation = false
  | .alone, _ => True

def write : Position → Element → String
  | .part, e => if e.isAlternation then "(" ++ e.display ++ ")" else e.display
  | .branch, e | .alone, e => e.display

def Ends : Position → List Char → Prop
  | .part, _ => True
  | .branch, text => ¬ " + ".toList <+: text
  | .alone, text => ¬ " + ".toList <+: text ∧ ¬ " | ".toList <+: text

/-- Whatever follows, the element that is written there and where it ends can be read off the text. -/
def Reads (position : Position) (x : Element) : Prop :=
  ∀ y : Element, y.Readable → position.Admits y → ∀ rest other, position.Ends rest → position.Ends other →
    (position.write x).toList ++ rest = (position.write y).toList ++ other → x.Resembles y ∧ rest = other

theorem ends_cons {c : Char} (mark : c ≠ ' ') (position : Position) (text : List Char) :
    position.Ends (c :: text) := by
  cases position <;> simp [Ends, Ne.symm mark]

end Position

namespace Group

def separator : Group → String
  | .sequence => " + "
  | .choice => " | "

def inside : Group → Position
  | .sequence => .part
  | .choice => .branch

def outside : Group → Position
  | .sequence => .branch
  | .choice => .alone

variable {group : Group} {e : Element}

theorem write_outside (admitted : group.outside.Admits e) :
    group.outside.write e = group.separator.intercalate ((group.contribution e).map group.inside.write) := by
  cases group with
  | sequence =>
    cases e with
    | concatenation parts => exact congrArg (String.intercalate " + ") (Element.displayParts_eq_map parts)
    | alternation branches => cases admitted
    | terminal | repetition => exact String.intercalate_singleton.symm
  | choice =>
    cases e with
    | alternation branches => exact congrArg (String.intercalate " | ") (Element.displayBranches_eq_map branches)
    | terminal | concatenation | repetition => exact String.intercalate_singleton.symm

theorem ends_outside_iff {text : List Char} :
    group.outside.Ends text ↔ group.inside.Ends text ∧ ¬ group.separator.toList <+: text := by
  cases group with
  | sequence => exact (and_iff_right trivial).symm
  | choice => exact Iff.rfl

theorem ends_inside_separator (text : List Char) : group.inside.Ends (group.separator.toList ++ text) := by
  cases group with
  | sequence => trivial
  | choice => simp [inside, separator, Position.Ends]

def further (group : Group) (operands : List Element) : List Char :=
  operands.flatMap fun e => group.separator.toList ++ (group.inside.write e).toList

theorem further_cons (first : Element) (rest : List Element) (text : List Char) :
    group.further (first :: rest) ++ text =
      group.separator.toList ++ ((group.inside.write first).toList ++ (group.further rest ++ text)) := by
  simp [further]

theorem write_outside_append {first : Element} {rest : List Element} (admitted : group.outside.Admits e)
    (operands : group.contribution e = first :: rest) (text : List Char) :
    (group.outside.write e).toList ++ text =
      (group.inside.write first).toList ++ (group.further rest ++ text) := by
  rw [write_outside admitted, operands, String.toList_intercalate, List.map_map, List.map_cons,
    Text.intercalate_cons, List.append_assoc, further, List.flatMap_map]
  rfl

theorem ends_inside_further (operands : List Element) {text : List Char} (ends : group.outside.Ends text) :
    group.inside.Ends (group.further operands ++ text) := by
  cases operands with
  | nil => exact (ends_outside_iff.mp ends).1
  | cons first rest =>
    rw [further_cons]
    exact ends_inside_separator _

theorem further_ne {first : Element} {rest : List Element} {text other : List Char}
    (ends : group.outside.Ends text) : text ≠ group.further (first :: rest) ++ other := by
  rintro rfl
  apply (ends_outside_iff.mp ends).2
  rw [further_cons]
  exact List.prefix_append _ _

theorem reads_further {xs ys : List Element} (each : ∀ x ∈ xs, group.inside.Reads x)
    (fit : ∀ y ∈ ys, y.Readable ∧ group.inside.Admits y) {rest other : List Char}
    (restEnds : group.outside.Ends rest) (otherEnds : group.outside.Ends other)
    (same : group.further xs ++ rest = group.further ys ++ other) :
    List.Forall₂ Element.Resembles xs ys ∧ rest = other := by
  induction xs generalizing ys with
  | nil =>
    cases ys with
    | nil => exact ⟨.nil, same⟩
    | cons y ys => exact absurd same (further_ne restEnds)
  | cons x xs ih =>
    cases ys with
    | nil => exact absurd same.symm (further_ne otherEnds)
    | cons y ys =>
      obtain ⟨reads, later⟩ := List.forall_mem_cons.mp each
      obtain ⟨⟨readable, admitted⟩, others⟩ := List.forall_mem_cons.mp fit
      rw [further_cons, further_cons, List.append_cancel_left_eq] at same
      obtain ⟨head, same⟩ :=
        reads y readable admitted _ _ (ends_inside_further xs restEnds) (ends_inside_further ys otherEnds) same
      obtain ⟨tail, same⟩ := ih later others same
      exact ⟨.cons head tail, same⟩

theorem fit_of_readable (group : Group) (readable : e.Readable) :
    ∀ operand ∈ group.contribution e, operand.Readable ∧ group.inside.Admits operand := by
  intro operand member
  have apart := ((Element.wellFormed_contribution readable.formed).2 operand member).1
  have admitted : group.inside.Admits operand := by
    cases group <;> exact apart
  rcases mem_contribution member with rfl | child
  · exact ⟨readable, admitted⟩
  · exact ⟨readable.child child, admitted⟩

theorem reads_outside (group : Group) {x : Element} (readable : x.Readable) (admitted : group.outside.Admits x)
    (each : ∀ e ∈ group.contribution x, group.inside.Reads e) : group.outside.Reads x := by
  intro y readable' admitted' rest other restEnds otherEnds same
  have present : group.contribution x ≠ [] := (Element.wellFormed_contribution readable.formed).1
  have present' : group.contribution y ≠ [] := (Element.wellFormed_contribution readable'.formed).1
  obtain ⟨first, more, operands⟩ := List.exists_cons_of_ne_nil present
  obtain ⟨second, further, operands'⟩ := List.exists_cons_of_ne_nil present'
  have fit := group.fit_of_readable readable'
  rw [operands] at each
  rw [operands'] at fit
  obtain ⟨reads, later⟩ := List.forall_mem_cons.mp each
  obtain ⟨⟨whole, place⟩, others⟩ := List.forall_mem_cons.mp fit
  rw [write_outside_append admitted operands, write_outside_append admitted' operands'] at same
  obtain ⟨head, same⟩ :=
    reads second whole place _ _ (ends_inside_further more restEnds) (ends_inside_further further otherEnds) same
  obtain ⟨tail, same⟩ := reads_further later others restEnds otherEnds same
  refine ⟨.group group ?_, same⟩
  rw [operands, operands']
  exact .cons head tail

end Group

namespace Position
open Element

theorem write_terminal (value : String) (text : List Char) :
    (Position.part.write (.terminal value)).toList ++ text = '\'' :: (value.toList ++ '\'' :: text) := by
  simp [write, isAlternation, display]

theorem write_repetition (inner : Element) (text : List Char) :
    (Position.part.write (.repetition inner)).toList ++ text =
      '[' :: ((Position.alone.write inner).toList ++ ']' :: text) := by
  simp [write, isAlternation, display]

theorem write_alternation (branches : List Element) (text : List Char) :
    (Position.part.write (.alternation branches)).toList ++ text =
      '(' :: ((Position.alone.write (.alternation branches)).toList ++ ')' :: text) := by
  simp [write, isAlternation]

theorem reads_terminal {value : String} (readable : (Element.terminal value).Readable) :
    Position.part.Reads (.terminal value) := by
  intro y readable' admitted rest other _ _ same
  rw [write_terminal] at same
  cases y with
  | terminal written =>
    rw [write_terminal] at same
    have own := readable.unquoted value (List.mem_singleton_self value)
    have others := readable'.unquoted written (List.mem_singleton_self written)
    obtain ⟨equal, same⟩ := Text.eq_of_append_mark own others (List.tail_eq_of_cons_eq same)
    rw [String.toList_inj.mp equal]
    exact ⟨.terminal written, same⟩
  | concatenation parts => cases admitted
  | alternation branches => simp [write_alternation] at same
  | repetition inner => simp [write_repetition] at same

theorem reads_repetition {inner : Element} (reads : Position.alone.Reads inner) :
    Position.part.Reads (.repetition inner) := by
  intro y readable admitted rest other _ _ same
  rw [write_repetition] at same
  cases y with
  | repetition repeated =>
    rw [write_repetition] at same
    have child : repeated.Readable := readable.child (List.mem_singleton_self repeated)
    have closes (text : List Char) : Position.alone.Ends (']' :: text) := ends_cons (by decide) _ _
    obtain ⟨resembles, same⟩ :=
      reads repeated child trivial _ _ (closes rest) (closes other) (List.tail_eq_of_cons_eq same)
    exact ⟨.repetition resembles, List.tail_eq_of_cons_eq same⟩
  | terminal value => simp [write_terminal] at same
  | concatenation parts => cases admitted
  | alternation branches => simp [write_alternation] at same

theorem reads_alternation {branches : List Element} (reads : Position.alone.Reads (.alternation branches)) :
    Position.part.Reads (.alternation branches) := by
  intro y readable admitted rest other _ _ same
  rw [write_alternation] at same
  cases y with
  | alternation others =>
    rw [write_alternation] at same
    have closes (text : List Char) : Position.alone.Ends (')' :: text) := ends_cons (by decide) _ _
    obtain ⟨resembles, same⟩ :=
      reads (.alternation others) readable trivial _ _ (closes rest) (closes other) (List.tail_eq_of_cons_eq same)
    exact ⟨resembles, List.tail_eq_of_cons_eq same⟩
  | terminal value => simp [write_terminal] at same
  | concatenation parts => cases admitted
  | repetition inner => simp [write_repetition] at same

end Position

namespace Element

theorem Readable.reads_of_part {x : Element} (readable : x.Readable) (notSequence : Group.sequence.owns x = false)
    (notChoice : Group.choice.owns x = false) (part : Position.part.Reads x) (position : Position) :
    position.Reads x := by
  have branch : Position.branch.Reads x := by
    apply Group.sequence.reads_outside readable notChoice
    rw [Group.contribution_eq_singleton notSequence]
    exact List.forall_mem_singleton.mpr part
  cases position with
  | part => exact part
  | branch => exact branch
  | alone =>
    apply Group.choice.reads_outside readable trivial
    rw [Group.contribution_eq_singleton notChoice]
    exact List.forall_mem_singleton.mpr branch

/-- Wherever a readable element may be written, it can be read off. -/
theorem Readable.reads {x : Element} (readable : x.Readable) (position : Position)
    (admitted : position.Admits x) : position.Reads x := by
  induction x generalizing position with
  | terminal value => exact readable.reads_of_part rfl rfl (Position.reads_terminal readable) position
  | concatenation parts each =>
    have operands : ∀ e ∈ parts, Position.part.Reads e := by
      intro e member
      obtain ⟨whole, place⟩ := Group.sequence.fit_of_readable readable e member
      exact each e member whole .part place
    have branch := Group.sequence.reads_outside readable rfl operands
    cases position with
    | part => cases admitted
    | branch => exact branch
    | alone => exact Group.choice.reads_outside readable trivial (List.forall_mem_singleton.mpr branch)
  | alternation branches each =>
    have operands : ∀ e ∈ branches, Position.branch.Reads e := by
      intro e member
      obtain ⟨whole, place⟩ := Group.choice.fit_of_readable readable e member
      exact each e member whole .branch place
    have alone := Group.choice.reads_outside readable trivial operands
    cases position with
    | part => exact Position.reads_alternation alone
    | branch => cases admitted
    | alone => exact alone
  | repetition inner ih =>
    have inside := ih (readable.child (List.mem_singleton_self inner)) .alone trivial
    exact readable.reads_of_part rfl rfl (Position.reads_repetition inside) position

theorem resembles_of_display_eq {x y : Element} (first : x.Readable) (second : y.Readable)
    (same : x.display = y.display) : x.Resembles y := by
  have ends : Position.alone.Ends [] := by
    constructor <;> decide
  have written : (Position.alone.write x).toList ++ [] = (Position.alone.write y).toList ++ [] := by
    change x.display.toList ++ [] = y.display.toList ++ []
    rw [same]
  exact (first.reads .alone trivial y second trivial [] [] ends ends written).1

/-- Elements that are written alike match alike, if no literal in them holds a quote, which could be taken for the
end of the literal. -/
theorem matchAlike_of_display_eq {x y : Element} (builtX : x.Buildable) (builtY : y.Buildable)
    (plainX : ∀ value ∈ x.terminals, '\'' ∉ value.toList) (plainY : ∀ value ∈ y.terminals, '\'' ∉ value.toList)
    (same : x.display = y.display) : x.MatchAlike y := by
  have resembles := resembles_of_display_eq ⟨builtX.wellFormed, plainX⟩ ⟨builtY.wellFormed, plainY⟩ same
  exact matchAlike_iff.mpr resembles.advance_eq

example : (terminal "a' + 'b").display = (concatenation ["a", "b"]).display := by decide

theorem matchAlike_of_display_eq_of_single_operands :
    Buildable (.alternation [.concatenation ["a + (", .alternation ["b", "c"]]]) ∧
      Buildable (.concatenation ["a + (", .alternation [.concatenation ["b"], "c"]]) ∧
      (alternation [.concatenation ["a + (", .alternation ["b", "c"]]]).display =
        (concatenation ["a + (", .alternation [.concatenation ["b"], "c"]]).display ∧
      (alternation [.concatenation ["a + (", .alternation ["b", "c"]]]).MatchAlike
        (concatenation ["a + (", .alternation [.concatenation ["b"], "c"]]) := by
  have single (group : Group) {e : Element} (built : Buildable e) : Buildable (group.ofCons e []) :=
    .ofCons (List.forall_mem_singleton.mpr built)
  have sequence : Buildable (.concatenation ["a + (", .alternation ["b", "c"]]) :=
    .pair (.terminal _) (.pair (.terminal "b") (.terminal "c") .choice) .sequence
  have first : Buildable (.alternation [.concatenation ["a + (", .alternation ["b", "c"]]]) :=
    single .choice sequence
  have second : Buildable (.concatenation ["a + (", .alternation [.concatenation ["b"], "c"]]) :=
    .pair (.terminal _) (.pair (single .sequence (.terminal "b")) (.terminal "c") .choice) .sequence
  have same : (alternation [.concatenation ["a + (", .alternation ["b", "c"]]]).display =
      (concatenation ["a + (", .alternation [.concatenation ["b"], "c"]]).display := by decide
  exact ⟨first, second, same, matchAlike_of_display_eq first second (by decide) (by decide) same⟩

end Element
end Ebnf
