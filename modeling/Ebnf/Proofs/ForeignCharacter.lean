import Mathlib.Data.List.Forall2
import Ebnf.Proofs.Diagnostics

/-! A character that no literal of an element holds ends every match like the end of the text does: what
follows it has no influence, whatever repetitions are under way when the match gets there. -/
namespace Ebnf

theorem Text.starts_of_starts_append {mark : Char} {value text more : List Char} (foreign : mark ∉ value)
    (starts : value <+: text ++ mark :: more) : value <+: text := by
  rcases List.prefix_or_prefix_of_prefix starts (List.prefix_append text _) with inside | longer
  · exact inside
  · obtain ⟨extra, rfl⟩ := longer
    have beyond : extra <+: mark :: more := (List.prefix_append_right_inj text).mp starts
    cases extra with
    | nil => exact ⟨[], by rw [List.append_nil, List.append_nil]⟩
    | cons d extra =>
      obtain ⟨same, _⟩ := List.cons_prefix_cons.mp beyond
      rw [same] at foreign
      exact absurd (by simp) foreign

def Task.Lacks (mark : Char) (task : Task) : Prop := ∀ value ∈ task.terminals, mark ∉ value.toList

namespace Task.Lacks
variable {mark : Char} {e : Element} {es : List Element}

theorem allHead (foreign : (Task.all (e :: es)).Lacks mark) : (Task.one e).Lacks mark :=
  fun value member => foreign value (List.mem_append_left _ member)

theorem allTail (foreign : (Task.all (e :: es)).Lacks mark) : (Task.all es).Lacks mark :=
  fun value member => foreign value (List.mem_append_right _ member)

theorem anyHead (foreign : (Task.any (e :: es)).Lacks mark) : (Task.one e).Lacks mark :=
  fun value member => foreign value (List.mem_append_left _ member)

theorem anyTail (foreign : (Task.any (e :: es)).Lacks mark) : (Task.any es).Lacks mark :=
  fun value member => foreign value (List.mem_append_right _ member)

end Task.Lacks

namespace Cursor

def followedBy (more : List Char) (c : Cursor) : Cursor := ⟨c.rest ++ more, c.offset⟩

theorem skip?_followedBy_of_some {value : String} {c next : Cursor} (here : c.skip? value = some next)
    (more : List Char) : (c.followedBy more).skip? value = some (next.followedBy more) := by
  obtain ⟨rest, offset⟩ := skip?_eq_some_iff.mp here
  apply skip?_eq_some_iff.mpr
  refine ⟨?_, offset⟩
  change c.rest ++ more = value.toList ++ (next.rest ++ more)
  rw [rest, List.append_assoc]

theorem skip?_followedBy_of_none {value : String} {mark : Char} {c : Cursor} (foreign : mark ∉ value.toList)
    (absent : c.skip? value = none) (more : List Char) : (c.followedBy (mark :: more)).skip? value = none := by
  rw [skip?_eq_none_iff] at absent ⊢
  intro starts
  exact absent (Text.starts_of_starts_append foreign starts)

end Cursor

theorem Run.still_of_foreign {mark : Char} {more : List Char} {task : Task} {c next : Cursor}
    {attempts : List Attempt} {nodes : List Node} (run : Run task c attempts (.matched nodes next))
    (foreign : task.Lacks mark) (ahead : c.rest = mark :: more) : next = c := by
  induction run using matched_induction with
  | @found value c after here =>
    have passes := Cursor.Passes.skip here
    have starts : value.toList <+: [] ++ mark :: more :=
      ⟨after.rest, by rw [List.nil_append, ← ahead, passes.rest]⟩
    have nothing := Text.starts_of_starts_append (foreign value (List.mem_singleton_self value)) starts
    apply passes.eq_of_offset
    rw [passes.offset, List.prefix_nil.mp nothing, Text.byteLength_nil, Nat.add_zero]
  | sequence parted ih | choice chosen ih | repetition looped ih => exact ih foreign ahead
  | allNil | usedUp | blocked | idle => rfl
  | allCons head tail headIH tailIH =>
    have same := headIH foreign.allHead ahead
    rw [← same] at ahead
    exact (tailIH foreign.allTail ahead).trans same
  | anyFirst head ih => exact ih foreign.anyHead ahead
  | anyLater head tail ih => exact ih foreign.anyTail ahead
  | again more round moved further roundIH furtherIH =>
    have same := roundIH foreign ahead
    rw [same] at moved
    exact absurd rfl moved

structure Mismatch.BlamesAlike (m other : Mismatch) : Prop where
  offset : other.offset = m.offset
  expected : other.kind.expected = m.kind.expected
  enough : ∀ expected found required, other.kind ≠ .starving expected found required

theorem Mismatch.blamesAlike_ofLiteral {value : String} {mark : Char} (foreign : mark ∉ value.toList)
    (c : Cursor) (more : List Char) :
    (ofLiteral value c).BlamesAlike (ofLiteral value (c.followedBy (mark :: more))) := by
  have differs : ¬ (c.followedBy (mark :: more)).rest <+: value.toList := by
    intro starts
    apply foreign
    apply starts.subset
    change mark ∈ c.rest ++ mark :: more
    simp
  refine ⟨rfl, ?_, ?_⟩
  · rw [ofLiteral_expected, ofLiteral_expected]
  · rw [ofLiteral_unexpected differs]
    intro expected found required same
    cases same

inductive Verdict.Persists (more : List Char) : Verdict (List Node) → Verdict (List Node) → Prop
  | matched {nodes : List Node} {next : Cursor} :
      Persists more (.matched nodes next) (.matched nodes (next.followedBy more))
  | mismatched {errors others : List Mismatch} (alike : List.Forall₂ Mismatch.BlamesAlike errors others) :
      Persists more (.mismatched errors) (.mismatched others)

def Task.Keeps (task : Task) (more : List Char) (c : Cursor) (verdict : Verdict (List Node)) : Prop :=
  ∃ attempts other, Run task (c.followedBy more) attempts other ∧ verdict.Persists more other

namespace Task.Keeps
variable {task : Task} {e : Element} {more : List Char} {c next : Cursor} {nodes : List Node}
  {errors : List Mismatch}

theorem matched (keeps : task.Keeps more c (.matched nodes next)) :
    ∃ attempts, Run task (c.followedBy more) attempts (.matched nodes (next.followedBy more)) := by
  obtain ⟨attempts, other, longer, persists⟩ := keeps
  cases persists
  exact ⟨attempts, longer⟩

theorem mismatched (keeps : task.Keeps more c (.mismatched errors)) :
    ∃ attempts others, Run task (c.followedBy more) attempts (.mismatched others) ∧
      List.Forall₂ Mismatch.BlamesAlike errors others := by
  obtain ⟨attempts, other, longer, persists⟩ := keeps
  cases persists with
  | mismatched alike => exact ⟨attempts, _, longer, alike⟩

theorem oneMatched (keeps : (Task.one e).Keeps more c (.matched nodes next)) :
    ∃ first, Run (.one e) (c.followedBy more) [first] (.matched nodes (next.followedBy more)) := by
  obtain ⟨attempts, longer⟩ := keeps.matched
  obtain ⟨first, rfl⟩ := longer.single_attempt
  exact ⟨first, longer⟩

theorem oneMismatched (keeps : (Task.one e).Keeps more c (.mismatched errors)) :
    ∃ first others, Run (.one e) (c.followedBy more) [first] (.mismatched others) ∧
      List.Forall₂ Mismatch.BlamesAlike errors others := by
  obtain ⟨attempts, others, longer, alike⟩ := keeps.mismatched
  obtain ⟨first, rfl⟩ := longer.single_attempt
  exact ⟨first, others, longer, alike⟩

end Task.Keeps

-- Only the end of the text asks for more than the hypothesis: there the longer run has to try once more.
private theorem rounds_stop_at_foreign {mark : Char} {inner : Element} {c : Cursor}
    (foreign : (Task.one inner).Lacks mark) (more : List Char) (nothing : c.rest = []) :
    ∃ attempts, Run (.rounds inner) (c.followedBy (mark :: more)) attempts
      (.matched [] (c.followedBy (mark :: more))) := by
  have ahead : (c.followedBy (mark :: more)).rest = mark :: more := by
    unfold Cursor.followedBy
    rw [nothing, List.nil_append]
  apply Run.rounds_of_still
  intro attempts node next round
  exact congrArg Cursor.offset (round.still_of_foreign foreign ahead)

/-- A run goes the same way when its text goes on with a foreign character. -/
theorem Run.persists {mark : Char} {task : Task} {c : Cursor} {attempts : List Attempt}
    {verdict : Verdict (List Node)} (run : Run task c attempts verdict)
    (foreign : task.Lacks mark) (more : List Char) : task.Keeps (mark :: more) c verdict := by
  have left (c : Cursor) : (c.followedBy (mark :: more)).rest ≠ [] := by
    unfold Cursor.followedBy
    simp
  induction run with
  | found here => exact ⟨_, _, .found (Cursor.skip?_followedBy_of_some here _), .matched⟩
  | @missing value c absent =>
    have own := foreign value (List.mem_singleton_self value)
    have alike := Mismatch.blamesAlike_ofLiteral own c more
    exact ⟨_, _, .missing (Cursor.skip?_followedBy_of_none own absent more), .mismatched (.cons alike .nil)⟩
  | sequence parted ih =>
    obtain ⟨inner, parted⟩ := (ih foreign).matched
    exact ⟨_, _, .sequence parted, .matched⟩
  | brokenSequence parted ih =>
    obtain ⟨inner, others, parted, alike⟩ := (ih foreign).mismatched
    exact ⟨_, _, .brokenSequence parted, .mismatched alike⟩
  | choice chosen ih =>
    obtain ⟨inner, chosen⟩ := (ih foreign).matched
    exact ⟨_, _, .choice chosen, .matched⟩
  | exhaustedChoice chosen ih =>
    obtain ⟨inner, others, chosen, alike⟩ := (ih foreign).mismatched
    exact ⟨_, _, .exhaustedChoice chosen, .mismatched alike⟩
  | repetition looped ih =>
    obtain ⟨inner, looped⟩ := (ih foreign).matched
    exact ⟨_, _, .repetition looped, .matched⟩
  | allNil => exact ⟨_, _, .allNil, .matched⟩
  | allStop head ih =>
    obtain ⟨first, others, head, alike⟩ := (ih foreign.allHead).oneMismatched
    exact ⟨_, _, .allStop head, .mismatched alike⟩
  | allCons head tail headIH tailIH =>
    obtain ⟨first, head⟩ := (headIH foreign.allHead).oneMatched
    obtain ⟨later, tail⟩ := (tailIH foreign.allTail).matched
    exact ⟨_, _, .allCons head tail, .matched⟩
  | allBroken head tail headIH tailIH =>
    obtain ⟨first, head⟩ := (headIH foreign.allHead).oneMatched
    obtain ⟨later, others, tail, alike⟩ := (tailIH foreign.allTail).mismatched
    exact ⟨_, _, .allBroken head tail, .mismatched alike⟩
  | anyNil => exact ⟨_, _, .anyNil, .mismatched .nil⟩
  | anyFirst head ih =>
    obtain ⟨first, head⟩ := (ih foreign.anyHead).oneMatched
    exact ⟨_, _, .anyFirst head, .matched⟩
  | anyLater head tail headIH tailIH =>
    obtain ⟨first, others, head, _⟩ := (headIH foreign.anyHead).oneMismatched
    obtain ⟨later, tail⟩ := (tailIH foreign.anyTail).matched
    exact ⟨_, _, .anyLater head tail, .matched⟩
  | anyNone head tail headIH tailIH =>
    obtain ⟨first, others, head, alike⟩ := (headIH foreign.anyHead).oneMismatched
    obtain ⟨later, further, tail, alikeTail⟩ := (tailIH foreign.anyTail).mismatched
    exact ⟨_, _, .anyNone head tail, .mismatched (List.rel_append alike alikeTail)⟩
  | usedUp nothing =>
    obtain ⟨extra, longer⟩ := rounds_stop_at_foreign foreign more nothing
    exact ⟨extra, _, longer, .matched⟩
  | @blocked _ _ _ c _ round ih =>
    obtain ⟨last, others, round, _⟩ := (ih foreign).oneMismatched
    exact ⟨_, _, .blocked (left c) round, .matched⟩
  | @idle _ _ _ c _ _ round still ih =>
    obtain ⟨last, round⟩ := (ih foreign).oneMatched
    exact ⟨_, _, .idle (left c) round still, .matched⟩
  | @again _ _ _ _ _ c _ _ _ round moved further roundIH furtherIH =>
    obtain ⟨first, round⟩ := (roundIH foreign).oneMatched
    obtain ⟨later, further⟩ := (furtherIH foreign).matched
    exact ⟨_, _, .again (left c) round moved further, .matched⟩

theorem Cursor.start_followedBy (text more : String) (mark : Char) :
    (start text).followedBy (mark :: more.toList) = start (text ++ String.singleton mark ++ more) := by
  unfold start followedBy
  simp

/-- Text behind a character foreign to the element has no influence: the tree is the same, and otherwise the
same literals are blamed at the same places, none of them for a lack of text. -/
theorem Element.parse_append_foreign (e : Element) (mark : Char)
    (foreign : ∀ value ∈ e.terminals, mark ∉ value.toList) (text more : String) :
    match e.parse text with
    | .success root => e.parse (text ++ String.singleton mark ++ more) = .success root
    | .failure _ errors => ∃ others, e.parse (text ++ String.singleton mark ++ more) = .failure e others ∧
        List.Forall₂ Mismatch.BlamesAlike errors others := by
  cases result : e.parse text with
  | success root =>
    obtain ⟨attempts, next, run⟩ := parse_eq_success_iff.mp result
    obtain ⟨others, longer⟩ := (run.persists foreign more.toList).matched
    rw [Cursor.start_followedBy] at longer
    exact parse_eq_success_iff.mpr ⟨others, _, longer⟩
  | failure failing errors =>
    obtain ⟨rfl, attempts, run⟩ := parse_eq_failure_iff.mp result
    obtain ⟨others, later, longer, alike⟩ := (run.persists foreign more.toList).mismatched
    rw [Cursor.start_followedBy] at longer
    exact ⟨later, parse_eq_failure_iff.mpr ⟨rfl, others, longer⟩, alike⟩

theorem Element.parse_append_foreign_of_repetition :
    (∀ value ∈ (concatenation [repetition "a", "bc"]).terminals, '!' ∉ value.toList) ∧
      ∃ others, (concatenation [repetition "a", "bc"]).parse "aab!c" =
          .failure (concatenation [repetition "a", "bc"]) others ∧
        List.Forall₂ Mismatch.BlamesAlike [⟨2, .starving "bc" 1 2⟩] others := by
  have foreign : ∀ value ∈ (concatenation [repetition "a", "bc"]).terminals, '!' ∉ value.toList := by decide
  have parsed : (concatenation [repetition "a", "bc"]).parse "aab" =
      .failure (concatenation [repetition "a", "bc"]) [⟨2, .starving "bc" 1 2⟩] := by decide
  have longer := parse_append_foreign _ '!' foreign "aab" "c"
  rw [parsed] at longer
  exact ⟨foreign, longer⟩

end Ebnf
