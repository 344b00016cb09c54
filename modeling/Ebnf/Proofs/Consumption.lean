import Mathlib.Data.List.Basic
import Ebnf.Proofs.Run

/-! A match uses exactly the text of its nodes: that text stood at the cursor, and what is left follows it. -/
namespace Ebnf

theorem Text.after?_eq_some_iff {value text rest : List Char} :
    after? value text = some rest ↔ text = value ++ rest := by
  rw [after?, List.isPrefixOf?_eq_some_iff_append_eq, eq_comm]

theorem Text.after?_eq_none_iff {value text : List Char} : after? value text = none ↔ ¬ value <+: text := by
  rw [after?, ← Option.not_isSome_iff_eq_none, List.isSome_isPrefixOf?_eq_isPrefixOf, List.isPrefixOf_iff_prefix]

theorem Cursor.skip?_eq_some_iff {value : String} {c next : Cursor} :
    c.skip? value = some next ↔
      c.rest = value.toList ++ next.rest ∧ next.offset = c.offset + value.utf8ByteSize := by
  obtain ⟨rest, offset⟩ := next
  simp only [skip?, Option.map_eq_some_iff, Text.after?_eq_some_iff, Cursor.mk.injEq]
  constructor
  · rintro ⟨left, whole, rfl, rfl⟩; exact ⟨whole, rfl⟩
  · rintro ⟨whole, rfl⟩; exact ⟨rest, whole, rfl, rfl⟩

theorem Cursor.skip?_eq_none_iff {value : String} {c : Cursor} :
    c.skip? value = none ↔ ¬ value.toList <+: c.rest := by
  rw [← Text.after?_eq_none_iff]
  exact Option.map_eq_none_iff

structure Cursor.Passes (c : Cursor) (text : List Char) (next : Cursor) : Prop where
  rest : c.rest = text ++ next.rest
  offset : next.offset = c.offset + Text.byteLength text

def Cursor.Reaches (c next : Cursor) : Prop := ∃ text, c.Passes text next

namespace Cursor

theorem Passes.refl (c : Cursor) : c.Passes [] c := ⟨rfl, rfl⟩

theorem Passes.trans {c middle next : Cursor} {first second : List Char} (before : c.Passes first middle)
    (after : middle.Passes second next) : c.Passes (first ++ second) next := by
  refine ⟨?_, ?_⟩
  · rw [before.rest, after.rest, List.append_assoc]
  · rw [after.offset, before.offset, Text.byteLength_append, Nat.add_assoc]

theorem Passes.skip {value : String} {c next : Cursor} (here : c.skip? value = some next) :
    c.Passes value.toList next := by
  obtain ⟨rest, offset⟩ := skip?_eq_some_iff.mp here
  refine ⟨rest, ?_⟩
  rw [offset, Text.byteLength_toList]

theorem Passes.shorter {c next : Cursor} {text : List Char} (passes : c.Passes text next)
    (moved : next.offset ≠ c.offset) : next.rest.length < c.rest.length := by
  have used : 0 < text.length := by
    apply List.length_pos_iff.mpr
    intro nothing
    apply moved
    rw [passes.offset, nothing, Text.byteLength_nil, Nat.add_zero]
  rw [passes.rest, List.length_append]
  omega

theorem Passes.eq_of_offset {c next : Cursor} {text : List Char} (passes : c.Passes text next)
    (still : next.offset = c.offset) : next = c := by
  have nothing : text = [] := by
    apply Text.byteLength_eq_zero_iff.mp
    have := passes.offset
    omega
  obtain ⟨rest, offset⟩ := c
  have same := passes.rest
  rw [nothing, List.nil_append] at same
  cases next
  cases same
  cases still
  rfl

theorem Passes.eq_of_rest {c next : Cursor} {text : List Char} (passes : c.Passes text next)
    (nothing : c.rest = []) : next = c := by
  have whole := passes.rest.symm.trans nothing
  apply passes.eq_of_offset
  rw [passes.offset, (List.append_eq_nil_iff.mp whole).1, Text.byteLength_nil, Nat.add_zero]

theorem Reaches.refl (c : Cursor) : c.Reaches c := ⟨[], .refl c⟩

theorem Reaches.trans {c middle next : Cursor} (before : c.Reaches middle) (after : middle.Reaches next) :
    c.Reaches next := by
  obtain ⟨first, before⟩ := before
  obtain ⟨second, after⟩ := after
  exact ⟨first ++ second, before.trans after⟩

theorem Reaches.offset_le {c next : Cursor} (reached : c.Reaches next) : c.offset ≤ next.offset := by
  obtain ⟨text, passes⟩ := reached
  rw [passes.offset]
  exact Nat.le_add_right _ _

theorem Reaches.suffixAt {text : String} {c : Cursor} (reached : (start text).Reaches c) :
    Text.suffixAt? c.offset text.toList = some c.rest := by
  obtain ⟨before, passes⟩ := reached
  have whole : text.toList = before ++ c.rest := passes.rest
  have size : c.offset = 0 + Text.byteLength before := passes.offset
  exact Text.suffixAt?_eq_some_iff.mpr ⟨before, whole, by omega⟩

theorem Reaches.offset_add {text : String} {c : Cursor} (reached : (start text).Reaches c) :
    c.offset + Text.byteLength c.rest = text.utf8ByteSize := by
  obtain ⟨before, passes⟩ := reached
  have whole : text.toList = before ++ c.rest := passes.rest
  have size : c.offset = 0 + Text.byteLength before := passes.offset
  rw [← Text.byteLength_toList, whole, Text.byteLength_append]
  omega

end Cursor

/-- A match passes the text of its nodes, and nothing else. -/
theorem Run.passes {task : Task} {c next : Cursor} {attempts : List Attempt} {nodes : List Node}
    (run : Run task c attempts (.matched nodes next)) : c.Passes (Node.textAll nodes).toList next := by
  induction run using matched_induction with
  | found here => simpa [Node.textAll, Node.text] using Cursor.Passes.skip here
  | sequence parted ih | repetition looped ih | choice chosen ih =>
    simpa [Node.textAll, Node.text] using ih
  | allNil | usedUp | blocked | idle => exact .refl _
  | allCons head tail headIH tailIH =>
    have passed := headIH.trans tailIH
    simpa [Node.textAll] using passed
  | again more round moved further roundIH furtherIH =>
    have passed := roundIH.trans furtherIH
    simpa [Node.textAll] using passed
  | anyFirst head ih => exact ih
  | anyLater head tail ih => exact ih

theorem Run.passes_of_single {task : Task} {c next : Cursor} {attempts : List Attempt} {node : Node}
    (run : Run task c attempts (.matched [node] next)) : c.Passes node.text.toList next := by
  have passes := run.passes
  rw [Node.textAll_singleton] at passes
  exact passes

theorem Run.offset_eq {task : Task} {c next : Cursor} {attempts : List Attempt} {nodes : List Node}
    (run : Run task c attempts (.matched nodes next)) :
    next.offset = c.offset + Node.byteLengthAll nodes := by
  have moved := run.passes.offset
  rw [Text.byteLength_toList] at moved
  rw [moved, Node.byteLengthAll_eq_utf8ByteSize fun n _ => n.byteLength_eq_utf8ByteSize]

theorem Run.offset_of_single {task : Task} {c next : Cursor} {attempts : List Attempt} {node : Node}
    (run : Run task c attempts (.matched [node] next)) : next.offset = c.offset + node.byteLength := by
  have moved := run.offset_eq
  rw [Node.byteLengthAll, Node.byteLengthAll, Nat.add_zero] at moved
  exact moved

theorem Run.reaches {task : Task} {c next : Cursor} {attempts : List Attempt} {nodes : List Node}
    (run : Run task c attempts (.matched nodes next)) : c.Reaches next := ⟨_, run.passes⟩

end Ebnf
