import Mathlib.Logic.Equiv.Basic
import Ebnf.Renaming
import Ebnf.Proofs.Diagnostics

/-! Matching looks at characters only to compare them: when every character is replaced by another, in the text
and in the element alike, the search stays the same. All that is measured in bytes is measured anew, since
characters may change their width; no decision depends on these numbers except whether they changed at all. -/
namespace Ebnf

def Outcome.rename (f : Char → Char) (text : List Char) : Outcome → Outcome
  | .success root => .success (root.rename f)
  | .failure element errors => .failure (element.rename f) (errors.map (Mismatch.rename f text))

def Task.rename (f : Char → Char) : Task → Task
  | .one e => .one (e.rename f)
  | .all parts => .all (Element.renameAll f parts)
  | .any branches => .any (Element.renameAll f branches)
  | .rounds inner => .rounds (inner.rename f)

def Cursor.rename (f : Char → Char) (text : List Char) (c : Cursor) : Cursor :=
  ⟨c.rest.map f, Text.byteLength ((Text.cut c.offset text).1.map f)⟩

def Verdict.rename (f : Char → Char) (text : List Char) (value : α → α) : Verdict α → Verdict α
  | .matched found next => .matched (value found) (next.rename f text)
  | .mismatched errors => .mismatched (errors.map (Mismatch.rename f text))

mutual
def Attempt.rename (f : Char → Char) (text : List Char) : Attempt → Attempt
  | ⟨element, start, inner, verdict⟩ =>
    ⟨element.rename f, start.rename f text, Attempt.renameAll f text inner, verdict.rename f text (Node.rename f)⟩

def Attempt.renameAll (f : Char → Char) (text : List Char) : List Attempt → List Attempt
  | [] => []
  | a :: as => a.rename f text :: Attempt.renameAll f text as
end

namespace Cursor
variable {f : Char → Char} {text : String} {c next : Cursor}

theorem Reaches.cut_offset (reached : (start text).Reaches c) :
    ∃ before, text.toList = before ++ c.rest ∧ Text.cut c.offset text.toList = (before, c.rest) := by
  obtain ⟨before, passes⟩ := reached
  have whole : text.toList = before ++ c.rest := passes.rest
  have size : c.offset = 0 + Text.byteLength before := passes.offset
  refine ⟨before, whole, ?_⟩
  rw [size, Nat.zero_add, whole, Text.cut_append]

theorem rename_start (f : Char → Char) (text : String) :
    (start text).rename f text.toList = start (Text.rename f text) := by
  obtain ⟨before, whole, cut⟩ := (Reaches.refl (start text)).cut_offset
  have nothing : before = [] := List.self_eq_append_left.mp whole
  unfold rename
  rw [cut, nothing]
  unfold start
  rw [Text.toList_rename]
  rfl

theorem Passes.rename {used : List Char} (passes : c.Passes used next) (reached : (start text).Reaches c)
    (f : Char → Char) : (c.rename f text.toList).Passes (used.map f) (next.rename f text.toList) := by
  obtain ⟨before, whole, cut⟩ := reached.cut_offset
  obtain ⟨further, wholeNext, cutNext⟩ := (reached.trans ⟨used, passes⟩).cut_offset
  have split : further = before ++ used := by
    rw [whole, passes.rest, ← List.append_assoc] at wholeNext
    exact (List.append_cancel_right wholeNext).symm
  refine ⟨?_, ?_⟩
  · unfold Cursor.rename
    rw [passes.rest, List.map_append]
  · unfold Cursor.rename
    rw [cut, cutNext, split, List.map_append, Text.byteLength_append]

theorem rename_offset_eq_iff (passes : c.Reaches next) (reached : (start text).Reaches c) (f : Char → Char) :
    (next.rename f text.toList).offset = (c.rename f text.toList).offset ↔ next.offset = c.offset := by
  obtain ⟨used, passes⟩ := passes
  rw [(passes.rename reached f).offset, passes.offset, Nat.add_eq_left, Nat.add_eq_left,
    Text.byteLength_eq_zero_iff, Text.byteLength_eq_zero_iff, List.map_eq_nil_iff]

theorem rest_rename_ne_nil (more : c.rest ≠ []) : (c.rename f text.toList).rest ≠ [] :=
  mt List.map_eq_nil_iff.mp more

theorem skip?_rename_of_some {value : String} (here : c.skip? value = some next)
    (reached : (start text).Reaches c) (f : Char → Char) :
    (c.rename f text.toList).skip? (Text.rename f value) = some (next.rename f text.toList) := by
  have passes := (Passes.skip here).rename reached f
  rw [← Text.toList_rename] at passes
  apply skip?_eq_some_iff.mpr
  rw [← Text.byteLength_toList]
  exact ⟨passes.rest, passes.offset⟩

theorem skip?_rename_of_none (injective : Function.Injective f) {value : String} (absent : c.skip? value = none) :
    (c.rename f text.toList).skip? (Text.rename f value) = none := by
  rw [skip?_eq_none_iff, Text.toList_rename] at *
  exact mt (List.prefix_map_iff_of_injective injective).mp absent

end Cursor

theorem Mismatch.rename_ofLiteral {f : Char → Char} (injective : Function.Injective f) {text : String}
    {c : Cursor} (reached : (Cursor.start text).Reaches c) (value : String) :
    (ofLiteral value c).rename f text.toList =
      ofLiteral (Text.rename f value) (c.rename f text.toList) := by
  obtain ⟨before, whole, cut⟩ := reached.cut_offset
  have starts : (c.rename f text.toList).rest <+: (Text.rename f value).toList ↔ c.rest <+: value.toList := by
    rw [Text.toList_rename]
    exact List.prefix_map_iff_of_injective injective
  by_cases ends : c.rest <+: value.toList
  · rw [ofLiteral_starving ends, ofLiteral_starving (starts.mpr ends)]
    simp [rename, Kind.rename, Cursor.rename, cut]
  · have size : (Text.rename f value).length = value.length := by
      rw [← String.length_toList, Text.toList_rename, List.length_map, String.length_toList]
    rw [ofLiteral_unexpected ends, ofLiteral_unexpected (mt starts.mp ends), size]
    simp [rename, Kind.rename, Cursor.rename, cut, Text.rename]

/-- A run of the text is a run of the renamed text, of the same task renamed. -/
theorem Run.rename {f : Char → Char} (injective : Function.Injective f) {text : String} {task : Task} {c : Cursor}
    {attempts : List Attempt} {verdict : Verdict (List Node)} (run : Run task c attempts verdict)
    (reached : (Cursor.start text).Reaches c) :
    Run (task.rename f) (c.rename f text.toList) (Attempt.renameAll f text.toList attempts)
      (verdict.rename f text.toList (Node.renameAll f)) := by
  induction run with
  | found here => exact .found (Cursor.skip?_rename_of_some here reached f)
  | @missing value c absent =>
    have none : (c.rename f text.toList).skip? (Text.rename f value) = none :=
      Cursor.skip?_rename_of_none injective absent
    have missing := Run.missing none
    rw [← Mismatch.rename_ofLiteral injective reached] at missing
    exact missing
  | sequence _ ih => exact .sequence (ih reached)
  | brokenSequence _ ih => exact .brokenSequence (ih reached)
  | choice _ ih => exact .choice (ih reached)
  | exhaustedChoice _ ih => exact .exhaustedChoice (ih reached)
  | repetition _ ih => exact .repetition (ih reached)
  | allNil => exact .allNil
  | allStop _ ih => exact .allStop (ih reached)
  | allCons head _ headIH tailIH => exact .allCons (headIH reached) (tailIH (reached.trans head.reaches))
  | allBroken head _ headIH tailIH => exact .allBroken (headIH reached) (tailIH (reached.trans head.reaches))
  | anyNil => exact .anyNil
  | anyFirst _ ih => exact .anyFirst (ih reached)
  | anyLater _ _ headIH tailIH => exact .anyLater (headIH reached) (tailIH reached)
  | anyNone _ _ headIH tailIH =>
    have both := Run.anyNone (headIH reached) (tailIH reached)
    rw [← List.map_append] at both
    exact both
  | usedUp nothing => exact .usedUp (List.map_eq_nil_iff.mpr nothing)
  | blocked more _ ih => exact .blocked (Cursor.rest_rename_ne_nil more) (ih reached)
  | idle more round still ih =>
    have stays := (Cursor.rename_offset_eq_iff round.reaches reached f).mpr still
    exact .idle (Cursor.rest_rename_ne_nil more) (ih reached) stays
  | again more round moved _ roundIH furtherIH =>
    have moves := mt (Cursor.rename_offset_eq_iff round.reaches reached f).mp moved
    exact .again (Cursor.rest_rename_ne_nil more) (roundIH reached) moves (furtherIH (reached.trans round.reaches))

namespace Element

theorem attempt_rename {f : Char → Char} (injective : Function.Injective f) (e : Element) (text : String) :
    (e.rename f).attempt (.start (Text.rename f text)) = (e.attempt (.start text)).rename f text.toList := by
  have renamed := (e.attempt_run (.start text)).rename injective (.refl _)
  rw [Cursor.rename_start] at renamed
  exact List.singleton_inj.mp (((e.rename f).attempt_run _).unique renamed).1

/-- Matching is purely ordinal: to rename characters one to one and then match is to match and then rename what
comes of it, whatever the widths of the characters. -/
theorem parse_rename (f : Char → Char) (injective : Function.Injective f) (e : Element) (text : String) :
    (e.rename f).parse (Text.rename f text) = (e.parse text).rename f text.toList := by
  unfold parse
  rw [attempt_rename injective]
  obtain ⟨element, start, inner, verdict⟩ := e.attempt (.start text)
  cases verdict <;> rfl

theorem parse_rename_of_wider_characters :
    Function.Injective (Equiv.swap 'a' 'ä') ∧
      (concatenation [repetition "a", alternation ["bä", "c"]]).parse "aab" =
        .failure (concatenation [repetition "a", alternation ["bä", "c"]])
          [⟨2, .starving "bä" 1 3⟩, ⟨2, .unexpected "b" "c"⟩] ∧
      (concatenation [repetition "ä", alternation ["ba", "c"]]).parse "ääb" =
        .failure (concatenation [repetition "ä", alternation ["ba", "c"]])
          [⟨4, .starving "ba" 1 2⟩, ⟨4, .unexpected "b" "c"⟩] := by
  have injective : Function.Injective (Equiv.swap 'a' 'ä') := (Equiv.swap 'a' 'ä').injective
  have parsed : (concatenation [repetition "a", alternation ["bä", "c"]]).parse "aab" =
      .failure (concatenation [repetition "a", alternation ["bä", "c"]])
        [⟨2, .starving "bä" 1 3⟩, ⟨2, .unexpected "b" "c"⟩] := by decide
  have element : (concatenation [repetition "a", alternation ["bä", "c"]]).rename (Equiv.swap 'a' 'ä') =
      concatenation [repetition "ä", alternation ["ba", "c"]] := by decide
  have text : Text.rename (Equiv.swap 'a' 'ä') "aab" = "ääb" := by decide
  have renamed :=
    parse_rename (Equiv.swap 'a' 'ä') injective (concatenation [repetition "a", alternation ["bä", "c"]]) "aab"
  rw [parsed, element, text] at renamed
  exact ⟨injective, parsed, renamed.trans (by decide)⟩

end Element
end Ebnf
