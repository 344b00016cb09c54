import Ebnf.Parser
import Ebnf.Proofs.Brackets
import Ebnf.Proofs.Diagnostics

/-! The cursor tells the truth throughout a match: wherever anything is tried, the offset is a place of the
text and what is left is the text from there on. So stepping over a match never leaves the text and never
ends inside a character. -/
namespace Ebnf

namespace Cursor

def forward? (bytes : Nat) (c : Cursor) : Option Cursor :=
  (Text.suffixAt? bytes c.rest).map fun rest => ⟨rest, c.offset + bytes⟩

theorem Passes.forward {c next : Cursor} {text : List Char} (passes : c.Passes text next) :
    c.forward? (Text.byteLength text) = some next := by
  unfold forward?
  rw [Text.suffixAt?_eq_some_iff.mpr ⟨text, passes.rest, rfl⟩, Option.map_some, ← passes.offset]

theorem forward_of_skip {value : String} {c next : Cursor} (here : c.skip? value = some next) :
    c.forward? value.utf8ByteSize = some next := by
  rw [← Text.byteLength_toList]
  exact (Passes.skip here).forward

theorem forward_isSome_of_prefix {text : String} {c : Cursor} (starts : text.toList <+: c.rest) :
    (c.forward? text.utf8ByteSize).isSome = true := by
  obtain ⟨rest, whole⟩ := starts
  have passes : c.Passes text.toList ⟨rest, c.offset + Text.byteLength text.toList⟩ := ⟨whole.symm, rfl⟩
  rw [← Text.byteLength_toList, passes.forward]
  rfl

end Cursor

/-- The attempt keeps to the text: it is made at a place of the text, on what the text holds from there on.
A match leads as far as its node has bytes, a literal is stepped over where the text starts with it, and what
a diagnostic shows of the text ends where a character does. -/
structure Attempt.KeepsTo (text : String) (a : Attempt) : Prop where
  inside : a.start.offset ≤ text.utf8ByteSize
  place : Text.suffixAt? a.start.offset text.toList = some a.start.rest
  moved : ∀ node next, a.verdict = .matched node next → a.start.forward? node.byteLength = some next
  literal : ∀ value, a.element = .terminal value → value.toList <+: a.start.rest →
    ∃ next, a.start.forward? value.utf8ByteSize = some next ∧
      a.verdict = .matched (.terminal (.terminal value) value) next
  shown : ∀ value errors, a.element = .terminal value → a.verdict = .mismatched errors →
    ∀ m ∈ errors, ∀ found expected, m.kind = .unexpected found expected →
      (a.start.forward? found.utf8ByteSize).isSome = true

theorem Run.forward_of_single {e : Element} {c next : Cursor} {attempts : List Attempt} {node : Node}
    (run : Run (.one e) c attempts (.matched [node] next)) : c.forward? node.byteLength = some next := by
  rw [node.byteLength_eq_utf8ByteSize, ← Text.byteLength_toList]
  exact run.passes_of_single.forward

theorem Element.literalVerdict_of_prefix {value : String} {c : Cursor} (starts : value.toList <+: c.rest) :
    ∃ next, c.forward? value.utf8ByteSize = some next ∧
      literalVerdict value c = .matched (.terminal (.terminal value) value) next := by
  unfold literalVerdict
  cases here : c.skip? value with
  | none => exact absurd starts (Cursor.skip?_eq_none_iff.mp here)
  | some next => exact ⟨next, Cursor.forward_of_skip here, rfl⟩

theorem Element.errors_of_literalVerdict {value : String} {c : Cursor} {errors : List Mismatch}
    (missing : literalVerdict value c = .mismatched errors) : errors = [.ofLiteral value c] := by
  unfold literalVerdict at missing
  split at missing
  · cases missing
  · cases missing
    rfl

theorem Mismatch.shown_of_ofLiteral {value found expected : String} {c : Cursor}
    (shows : (ofLiteral value c).kind = .unexpected found expected) : found.toList <+: c.rest := by
  by_cases ends : c.rest <+: value.toList
  · rw [ofLiteral_starving ends] at shows
    cases shows
  · rw [ofLiteral_unexpected ends] at shows
    cases shows
    rw [String.toList_ofList]
    exact List.take_prefix _ _

theorem Attempt.BelongsTo.keepsTo {e : Element} {text : String} {a : Attempt}
    (belongs : a.BelongsTo (.one e) (.start text)) : a.KeepsTo text := by
  have total := belongs.place.offset_add
  have verdict := congrArg Attempt.verdict belongs.own
  refine ⟨by omega, belongs.place.suffixAt, ?_, ?_, ?_⟩
  · intro node next matched
    have run := a.element.attempt_run a.start
    rw [← verdict, matched] at run
    exact run.forward_of_single
  · intro value terminal starts
    rw [terminal] at verdict
    rw [verdict]
    exact Element.literalVerdict_of_prefix starts
  · intro value errors terminal mismatched m member found expected shows
    rw [terminal, mismatched] at verdict
    rw [Element.errors_of_literalVerdict verdict.symm] at member
    rw [List.mem_singleton.mp member] at shows
    exact Cursor.forward_isSome_of_prefix (Mismatch.shown_of_ofLiteral shows)

/-- The cursor is sound in every match, whatever comes of it. A success has used exactly the text of its tree
and as many bytes as the cursor moved, and every attempt on the way, each of which the log announces, keeps to
the text. -/
theorem Element.attempts_keep_to_text (e : Element) (text : String) :
    (∀ root, e.parse text = .success root → ∃ next,
      (e.attempt (.start text)).verdict = .matched root next ∧ text = root.text ++ String.ofList next.rest ∧
        root.byteLength = root.text.utf8ByteSize ∧ next.offset = root.byteLength) ∧
    (∀ a ∈ (e.attempt (.start text)).opened, a.KeepsTo text) ∧
    ∀ x offset, .trying x offset ∈ e.events text →
      ∃ a ∈ (e.attempt (.start text)).opened, a.element = x ∧ a.start.offset = offset := by
  refine ⟨?_, ?_, ?_⟩
  · intro root success
    obtain ⟨attempts, next, run⟩ := parse_eq_success_iff.mp success
    have passes := run.passes
    rw [Node.textAll, Node.textAll, String.append_empty] at passes
    have whole : text.toList = root.text.toList ++ next.rest := passes.rest
    have moved : next.offset = 0 + root.byteLength := run.offset_of_single
    refine ⟨next, run.verdict_of_match, ?_, root.byteLength_eq_utf8ByteSize, by omega⟩
    rw [← String.toList_inj, String.toList_append, String.toList_ofList, whole]
  · intro a opened
    exact (belongs_of_opened opened).keepsTo
  · intro x offset tried
    obtain ⟨before, later, split⟩ := List.append_of_mem tried
    obtain ⟨a, opened, element, offset, _⟩ := Attempt.exists_of_trying split
    exact ⟨a, opened, element, offset⟩

theorem Element.attempts_keep_to_text_of_given_up_branch :
    (concatenation [repetition "ä", alternation ["bc", "b"]]).parse "ääbx" =
        .success (.concatenation (concatenation [repetition "ä", alternation ["bc", "b"]])
          [.repetition (repetition "ä") [.terminal "ä" "ä", .terminal "ä" "ä"],
            .alternation (alternation ["bc", "b"]) (.terminal "b" "b")]) ∧
      (∃ next : Cursor, "ääbx" = "ääb" ++ String.ofList next.rest ∧ next.offset = 5) ∧
      .trying "bc" 4 ∈ (concatenation [repetition "ä", alternation ["bc", "b"]]).events "ääbx" ∧
      ∃ a : Attempt, a.element = "bc" ∧ a.start.offset = 4 ∧ a.KeepsTo "ääbx" := by
  have success : (concatenation [repetition "ä", alternation ["bc", "b"]]).parse "ääbx" =
      .success (.concatenation (concatenation [repetition "ä", alternation ["bc", "b"]])
        [.repetition (repetition "ä") [.terminal "ä" "ä", .terminal "ä" "ä"],
          .alternation (alternation ["bc", "b"]) (.terminal "b" "b")]) := by decide
  have tried : .trying "bc" 4 ∈ (concatenation [repetition "ä", alternation ["bc", "b"]]).events "ääbx" := by
    decide
  obtain ⟨ends, keeps, announced⟩ :=
    attempts_keep_to_text (concatenation [repetition "ä", alternation ["bc", "b"]]) "ääbx"
  obtain ⟨next, _, whole, _, moved⟩ := ends _ success
  obtain ⟨a, opened, element, offset⟩ := announced "bc" 4 tried
  exact ⟨success, ⟨next, whole, moved⟩, tried, a, element, offset, keeps a opened⟩

end Ebnf
