import Ebnf.Element.Analysis
import Ebnf.Proofs.Adequacy
import Ebnf.Proofs.Construction

/-! Every diagnostic is true of the text: where it points to, the text does not start with the literal that
it names, and what it says about the text that is there is so. -/
namespace Ebnf

namespace Task

def terminals : Task → List String
  | .one e | .rounds e => e.terminals
  | .all es | .any es => Element.terminalsAll es

def wellFormed : Task → Bool
  | .one e | .rounds e => e.wellFormed
  | .all es => Element.wellFormedAll es
  | .any es => !es.isEmpty && Element.wellFormedAll es

end Task

/-- A diagnostic blames a literal of the task at a place behind the cursor, where it was looked for in vain. -/
theorem Run.blames {task : Task} {c : Cursor} {attempts : List Attempt} {errors : List Mismatch}
    (run : Run task c attempts (.mismatched errors)) :
    ∀ m ∈ errors, ∃ place value, c.Reaches place ∧ place.skip? value = none ∧
      value ∈ task.terminals ∧ m = .ofLiteral value place := by
  induction run using mismatched_induction with
  | @missing value c absent =>
    intro m member
    rw [List.mem_singleton.mp member]
    exact ⟨c, value, .refl c, absent, List.mem_singleton_self value, rfl⟩
  | brokenSequence parted ih | exhaustedChoice chosen ih => exact ih
  | allStop head ih =>
    intro m member
    obtain ⟨place, value, reached, absent, listed, same⟩ := ih m member
    exact ⟨place, value, reached, absent, List.mem_append_left _ listed, same⟩
  | allBroken head tail ih =>
    intro m member
    obtain ⟨place, value, reached, absent, listed, same⟩ := ih m member
    exact ⟨place, value, head.reaches.trans reached, absent, List.mem_append_right _ listed, same⟩
  | anyNil =>
    intro m member
    cases member
  | anyNone head tail headIH tailIH =>
    intro m member
    rcases List.mem_append.mp member with inHead | inTail
    · obtain ⟨place, value, reached, absent, listed, same⟩ := headIH m inHead
      exact ⟨place, value, reached, absent, List.mem_append_left _ listed, same⟩
    · obtain ⟨place, value, reached, absent, listed, same⟩ := tailIH m inTail
      exact ⟨place, value, reached, absent, List.mem_append_right _ listed, same⟩

theorem Run.errors_ne_nil {task : Task} {c : Cursor} {attempts : List Attempt} {errors : List Mismatch}
    (run : Run task c attempts (.mismatched errors)) (formed : task.wellFormed = true) : errors ≠ [] := by
  induction run using mismatched_induction with
  | missing absent => exact List.cons_ne_nil _ _
  | brokenSequence parted ih =>
    simp only [Task.wellFormed, Element.wellFormed, Bool.and_eq_true] at formed
    exact ih formed.2
  | exhaustedChoice chosen ih =>
    simp only [Task.wellFormed, Element.wellFormed, Bool.and_eq_true] at formed
    apply ih
    simp only [Task.wellFormed, Bool.and_eq_true]
    exact ⟨formed.1.1, formed.2⟩
  | allStop head ih =>
    simp only [Task.wellFormed, Element.wellFormedAll, Bool.and_eq_true] at formed
    exact ih formed.1
  | allBroken head tail ih =>
    simp only [Task.wellFormed, Element.wellFormedAll, Bool.and_eq_true] at formed
    exact ih formed.2
  | anyNil => cases formed
  | anyNone head tail headIH tailIH =>
    simp only [Task.wellFormed, Element.wellFormedAll, Bool.and_eq_true] at formed
    intro nothing
    exact headIH formed.2.1 (List.append_eq_nil_iff.mp nothing).1

namespace Mismatch

/-- What the diagnostic says is so: `left` is the text from its offset on, and does not start with the
literal. If it ends inside the literal, the diagnostic counts the bytes that are there and those that are
needed, else it shows as many characters of it as the literal has. -/
structure Holds (m : Mismatch) (text : String) (left : List Char) : Prop where
  place : Text.suffixAt? m.offset text.toList = some left
  inside : m.offset ≤ text.utf8ByteSize
  substantial : m.kind.expected ≠ ""
  absent : ¬ m.kind.expected.toList <+: left
  shown : match m.kind with
    | .starving expected found required =>
      left <+: expected.toList ∧ found = Text.byteLength left ∧ required = expected.utf8ByteSize ∧
        found < required ∧ m.offset + found = text.utf8ByteSize
    | .unexpected found expected =>
      ¬ left <+: expected.toList ∧ found.toList = left.take (min expected.length left.length) ∧
        found ≠ "" ∧ ¬ found.toList <+: expected.toList ∧ ¬ expected.toList <+: found.toList

theorem ofLiteral_starving {value : String} {c : Cursor} (ends : c.rest <+: value.toList) :
    ofLiteral value c = ⟨c.offset, .starving value (Text.byteLength c.rest) value.utf8ByteSize⟩ := by
  unfold ofLiteral
  rw [if_pos (List.isPrefixOf_iff_prefix.mpr ends)]

theorem ofLiteral_unexpected {value : String} {c : Cursor} (differs : ¬ c.rest <+: value.toList) :
    ofLiteral value c = ⟨c.offset, .unexpected (String.ofList (c.rest.take value.length)) value⟩ := by
  unfold ofLiteral
  rw [if_neg fun starts => differs (List.isPrefixOf_iff_prefix.mp starts)]

theorem ofLiteral_expected (value : String) (c : Cursor) : (ofLiteral value c).kind.expected = value := by
  by_cases ends : c.rest <+: value.toList
  · rw [ofLiteral_starving ends, Kind.expected]
  · rw [ofLiteral_unexpected ends, Kind.expected]

end Mismatch

theorem Text.byteLength_lt {value left : List Char} (starts : left <+: value) (absent : ¬ value <+: left) :
    byteLength left < byteLength value := by
  obtain ⟨more, rfl⟩ := starts
  have missing : byteLength more ≠ 0 := by
    intro none
    have whole : left ++ more = left := by
      rw [byteLength_eq_zero_iff.mp none, List.append_nil]
    exact absent ⟨[], (List.append_nil _).trans whole⟩
  rw [byteLength_append]
  omega

private theorem take_apart {value left : List Char} (absent : ¬ value <+: left) (other : ¬ left <+: value) :
    left.take value.length ≠ [] ∧ ¬ left.take value.length <+: value ∧
      ¬ value <+: left.take value.length := by
  have shown : ¬ left.take value.length <+: value := by
    intro starts
    by_cases short : left.length ≤ value.length
    · rw [List.take_of_length_le short] at starts
      exact other starts
    · apply absent
      have size : (left.take value.length).length = value.length := by
        rw [List.length_take]
        omega
      rw [← starts.eq_of_length size]
      exact List.take_prefix _ _
  refine ⟨?_, shown, ?_⟩
  · intro nothing
    apply shown
    rw [nothing]
    exact List.nil_prefix
  · intro starts
    exact absent (starts.trans (List.take_prefix _ _))

theorem Mismatch.holds_ofLiteral {text value : String} {c : Cursor} (reached : (Cursor.start text).Reaches c)
    (missing : c.skip? value = none) : (ofLiteral value c).Holds text c.rest := by
  have absent := Cursor.skip?_eq_none_iff.mp missing
  have substantial : value ≠ "" := by
    intro empty
    apply absent
    rw [empty]
    exact List.nil_prefix
  have total := reached.offset_add
  have inside : c.offset ≤ text.utf8ByteSize := by omega
  by_cases ends : c.rest <+: value.toList
  · rw [ofLiteral_starving ends]
    have fewer := Text.byteLength_lt ends absent
    rw [Text.byteLength_toList] at fewer
    exact ⟨reached.suffixAt, inside, substantial, absent, ends, rfl, rfl, fewer, total⟩
  · rw [ofLiteral_unexpected ends]
    obtain ⟨present, first, second⟩ := take_apart absent ends
    rw [String.length_toList] at present first second
    refine ⟨reached.suffixAt, inside, substantial, absent, ends, ?_, ?_, ?_, ?_⟩
    · rw [String.toList_ofList, List.take_eq_take_iff]
      omega
    · intro nothing
      apply present
      rw [← String.toList_ofList (l := c.rest.take value.length), nothing]
      rfl
    · rw [String.toList_ofList]
      exact first
    · rw [String.toList_ofList]
      exact second

/-- Every reported diagnostic is true of the text and names a literal of the element, and there is one. -/
theorem Element.errors_hold (e : Element) (built : Buildable e) (text : String)
    (fails : (e.parse text).isFailure = true) :
    (e.parse text).errors ≠ [] ∧ ∀ m ∈ (e.parse text).errors,
      m.kind.expected ∈ e.terminals ∧ ∃ left, m.Holds text left := by
  cases result : e.parse text with
  | success root =>
    rw [result] at fails
    cases fails
  | failure failing errors =>
    obtain ⟨rfl, attempts, run⟩ := parse_eq_failure_iff.mp result
    refine ⟨run.errors_ne_nil built.wellFormed, ?_⟩
    intro m member
    obtain ⟨place, value, reached, missing, listed, rfl⟩ := run.blames m member
    rw [Mismatch.ofLiteral_expected]
    exact ⟨listed, place.rest, Mismatch.holds_ofLiteral reached missing⟩

theorem Element.errors_hold_of_cut_off_choice :
    Buildable (Group.sequence.pair "a" (Group.choice.pair "bä" "c")) ∧
      ((Group.sequence.pair "a" (Group.choice.pair "bä" "c")).parse "ab").isFailure = true ∧
      ∃ left, Mismatch.Holds ⟨1, .starving "bä" 1 3⟩ "ab" left := by
  have choice : Buildable (Group.choice.pair "bä" "c") := .pair (.terminal _) (.terminal _) .choice
  have built : Buildable (Group.sequence.pair "a" (Group.choice.pair "bä" "c")) :=
    .pair (.terminal _) choice .sequence
  have fails : ((Group.sequence.pair "a" (Group.choice.pair "bä" "c")).parse "ab").isFailure = true := by
    decide
  refine ⟨built, fails, ?_⟩
  exact ((errors_hold _ built "ab" fails).2 _ (by decide)).2

end Ebnf
