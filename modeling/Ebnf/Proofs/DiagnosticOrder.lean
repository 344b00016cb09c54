import Ebnf.Proofs.Diagnostics

/-! Diagnostics come in the order in which their literals stand in the element, and no occurrence of a literal
is blamed twice. A sequence keeps the diagnostics of the part that failed, a choice those of all its branches,
and a repetition has none to give. -/
namespace Ebnf

namespace Task

def openTerminals : Task → List String
  | .one e => e.openTerminals
  | .all es | .any es => Element.openTerminalsAll es
  | .rounds _ => []

def hasOpenChoice : Task → Bool
  | .one e => e.hasOpenChoice
  | .all parts => Element.hasOpenChoiceAny parts
  | .any _ => true
  | .rounds _ => false

end Task

namespace Run
variable {task : Task} {c : Cursor} {attempts : List Attempt} {errors : List Mismatch}

/-- The literals that are blamed are some of those that can be, in the same order. -/
theorem blamed_sublist (run : Run task c attempts (.mismatched errors)) :
    (errors.map fun m => m.kind.expected).Sublist task.openTerminals := by
  induction run using mismatched_induction with
  | @missing value c absent =>
    rw [List.map_singleton, Mismatch.ofLiteral_expected]
    exact List.Sublist.refl [value]
  | brokenSequence parted ih | exhaustedChoice chosen ih => exact ih
  | allStop head ih => exact ih.trans (List.sublist_append_left _ _)
  | allBroken head tail ih => exact ih.trans (List.sublist_append_right _ _)
  | anyNil => exact List.nil_sublist _
  | anyNone head tail headIH tailIH =>
    rw [List.map_append]
    exact headIH.append tailIH

theorem single_error (run : Run task c attempts (.mismatched errors)) (plain : task.hasOpenChoice = false) :
    errors.length = 1 := by
  induction run using mismatched_induction with
  | missing absent => rfl
  | brokenSequence parted ih => exact ih plain
  | allStop head ih => exact ih (Bool.or_eq_false_iff.mp plain).1
  | allBroken head tail ih => exact ih (Bool.or_eq_false_iff.mp plain).2
  | exhaustedChoice | anyNil | anyNone => cases plain

end Run

namespace Element

/-- A match that fails blames some of the literals that stand under no repetition, at least one, in their order
and none more than once; without a choice it blames just one. -/
theorem blamed_in_order (e : Element) (built : Buildable e) (text : String)
    (fails : (e.parse text).isFailure = true) :
    (e.parse text).failingElement? = some e ∧ (e.parse text).errors ≠ [] ∧
      ((e.parse text).errors.map fun m => m.kind.expected).Sublist e.openTerminals ∧
      (e.parse text).errors.length ≤ e.openTerminals.length ∧
      (e.hasOpenChoice = false → (e.parse text).errors.length = 1) := by
  obtain ⟨failing, errors, result⟩ := Outcome.isFailure_iff.mp fails
  obtain ⟨rfl, attempts, run⟩ := parse_eq_failure_iff.mp result
  have blamed := run.blamed_sublist
  have fewer := blamed.length_le
  rw [List.length_map] at fewer
  rw [result]
  exact ⟨rfl, run.errors_ne_nil built.wellFormed, blamed, fewer, run.single_error⟩

theorem blamed_in_order_of_moved_cursor :
    Buildable (concatenation [repetition "ab", alternation [concatenation ["b", "c"], "d"], "e"]) ∧
      (concatenation [repetition "ab", alternation [concatenation ["b", "c"], "d"], "e"]).parse "ababba" =
        .failure (concatenation [repetition "ab", alternation [concatenation ["b", "c"], "d"], "e"])
          [⟨5, .unexpected "a" "c"⟩, ⟨4, .unexpected "b" "d"⟩] ∧
      ["c", "d"].Sublist
        (concatenation [repetition "ab", alternation [concatenation ["b", "c"], "d"], "e"]).openTerminals ∧
      (concatenation [repetition (alternation ["a", "b"]), "c"]).hasOpenChoice = false ∧
      ((concatenation [repetition (alternation ["a", "b"]), "c"]).parse "abd").errors.length = 1 := by
  have choice : Buildable (alternation [concatenation ["b", "c"], "d"]) :=
    .pair (.pair (.terminal "b") (.terminal "c") .sequence) (.terminal "d") .choice
  have built : Buildable (concatenation [repetition "ab", alternation [concatenation ["b", "c"], "d"], "e"]) :=
    .pair (.pair (.repetition (.terminal "ab")) choice .sequence) (.terminal "e") .sequence
  have parsed : (concatenation [repetition "ab", alternation [concatenation ["b", "c"], "d"], "e"]).parse "ababba" =
      .failure (concatenation [repetition "ab", alternation [concatenation ["b", "c"], "d"], "e"])
        [⟨5, .unexpected "a" "c"⟩, ⟨4, .unexpected "b" "d"⟩] := by decide
  have plain : Buildable (concatenation [repetition (alternation ["a", "b"]), "c"]) :=
    .pair (.repetition (.pair (.terminal "a") (.terminal "b") .choice)) (.terminal "c") .sequence
  obtain ⟨_, _, blamed, _⟩ := blamed_in_order _ built "ababba" (by rw [parsed]; rfl)
  obtain ⟨_, _, _, _, single⟩ := blamed_in_order _ plain "abd" (by decide)
  rw [parsed] at blamed
  exact ⟨built, parsed, blamed, rfl, single rfl⟩

end Element
end Ebnf
