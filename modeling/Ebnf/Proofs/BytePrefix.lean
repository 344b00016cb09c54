import Ebnf.Proofs.CursorSoundness
import Ebnf.Proofs.Reading

/-! Comparing texts byte by byte is comparing them character by character. No byte that begins a character ever
goes on with one, so the bytes of a text cannot end inside a character of a text that begins with them. -/
namespace Ebnf

namespace Text

def continues (byte : UInt8) : Bool := 0x80 ≤ byte.toNat && byte.toNat < 0xC0

def isBoundary (bytes : List UInt8) (offset : Nat) : Bool :=
  match bytes[offset]? with
  | some byte => !continues byte
  | none => offset == bytes.length

theorem continues_ofNat_tail (n : Nat) : continues (UInt8.ofNat (n % 64 + 128)) = true := by
  simp only [continues, UInt8.toNat_ofNat', Bool.and_eq_true, decide_eq_true_eq]
  omega

theorem continues_ofNat_lead {n : Nat} (lead : n < 0x80 ∨ 0xC0 ≤ n ∧ n < 0x100) :
    continues (UInt8.ofNat n) = false := by
  simp only [continues, UInt8.toNat_ofNat', Bool.and_eq_false_iff, decide_eq_false_iff_not]
  omega

/-- The first byte of a character begins it, and all others go on with it. -/
theorem utf8EncodeChar_shape (c : Char) : ∃ lead tail, String.utf8EncodeChar c = lead :: tail ∧
    continues lead = false ∧ ∀ byte ∈ tail, continues byte = true := by
  simp only [String.utf8EncodeChar]
  generalize c.val.toNat = value
  split
  · exact ⟨_, _, rfl, continues_ofNat_lead (by omega), List.forall_mem_nil _⟩
  split
  · refine ⟨_, _, rfl, continues_ofNat_lead (by omega), ?_⟩
    exact List.forall_mem_singleton.mpr (continues_ofNat_tail _)
  split
  · refine ⟨_, _, rfl, continues_ofNat_lead (by omega), ?_⟩
    simp only [List.forall_mem_cons, continues_ofNat_tail, true_and]
    exact List.forall_mem_nil _
  · refine ⟨_, _, rfl, continues_ofNat_lead (by omega), ?_⟩
    simp only [List.forall_mem_cons, continues_ofNat_tail, true_and]
    exact List.forall_mem_nil _

theorem length_flatMap_utf8EncodeChar (text : List Char) :
    (text.flatMap String.utf8EncodeChar).length = byteLength text := by
  induction text with
  | nil => rfl
  | cons c text ih => rw [List.flatMap_cons, List.length_append, String.length_utf8EncodeChar, ih, byteLength_cons]

theorem isBoundary_append (front bytes : List UInt8) (offset : Nat) :
    isBoundary (front ++ bytes) (front.length + offset) = isBoundary bytes offset := by
  unfold isBoundary
  rw [List.getElem?_append_right (Nat.le_add_right _ _), Nat.add_sub_cancel_left, List.length_append]
  cases bytes[offset]? with
  | some byte => rfl
  | none => rw [Bool.eq_iff_iff, beq_iff_eq, beq_iff_eq, Nat.add_left_cancel_iff]

theorem isBoundary_flatMap (offset : Nat) (text : List Char) :
    isBoundary (text.flatMap String.utf8EncodeChar) offset = (suffixAt? offset text).isSome := by
  induction text generalizing offset with
  | nil => cases offset <;> rfl
  | cons c text ih =>
    obtain ⟨lead, tail, shape, begins, goesOn⟩ := utf8EncodeChar_shape c
    have width := String.length_utf8EncodeChar c
    rw [List.flatMap_cons]
    cases offset with
    | zero => simp [isBoundary, shape, begins]
    | succ n =>
      rw [suffixAt?]
      split
      · rename_i fits
        have later := isBoundary_append (String.utf8EncodeChar c) (text.flatMap String.utf8EncodeChar)
          (n + 1 - c.utf8Size)
        rw [width, Nat.add_sub_cancel' fits] at later
        rw [later, ih]
      · rename_i long
        rw [shape, List.length_cons] at width
        have inside : n < tail.length := by omega
        rw [shape, isBoundary, List.cons_append, List.getElem?_cons_succ, List.getElem?_append_left inside,
          List.getElem?_eq_getElem inside]
        simp [goesOn]

theorem drop_flatMap_of_suffixAt? {offset : Nat} {text rest : List Char}
    (place : suffixAt? offset text = some rest) :
    (text.flatMap String.utf8EncodeChar).drop offset = rest.flatMap String.utf8EncodeChar := by
  obtain ⟨before, rfl, rfl⟩ := suffixAt?_eq_some_iff.mp place
  rw [List.flatMap_append, ← length_flatMap_utf8EncodeChar, List.drop_left]

theorem suffixAt?_of_prefix {value : String} {text : List Char} (starts : value.toList <+: text) :
    suffixAt? value.utf8ByteSize text = some (text.drop value.length) := by
  obtain ⟨rest, rfl⟩ := starts
  rw [← String.length_toList, List.drop_left]
  exact suffixAt?_eq_some_iff.mpr ⟨value.toList, rfl, byteLength_toList value⟩

theorem encoding_prefix_iff {value text : String} :
    encoding value <+: encoding text ↔ value.toList <+: text.toList := by
  constructor
  · rintro ⟨more, whole⟩
    apply List.isPrefix_of_utf8Encode_append_eq_utf8Encode more.toByteArray
    have bytes := congrArg List.toByteArray whole
    rw [List.toByteArray_append] at bytes
    exact bytes
  · rintro ⟨more, whole⟩
    unfold encoding
    rw [← whole, List.flatMap_append]
    exact List.prefix_append _ _

end Text

namespace Cursor

/-- Skips the literal by its bytes alone: where the bytes that are left begin with those of the literal, drops as
many and reads the others as a text again. -/
def skipBytes? (value : String) (c : Cursor) : Option Cursor :=
  let bytes := Text.encoding (String.ofList c.rest)
  if (Text.encoding value).isPrefixOf bytes then
    (String.fromUTF8? (bytes.drop value.utf8ByteSize).toByteArray).map fun left =>
      ⟨left.toList, c.offset + value.utf8ByteSize⟩
  else none

theorem skipBytes?_eq_skip? (value : String) (c : Cursor) : c.skipBytes? value = c.skip? value := by
  have test : (Text.encoding value).isPrefixOf (Text.encoding (String.ofList c.rest)) = true ↔
      value.toList <+: c.rest := by
    rw [List.isPrefixOf_iff_prefix, Text.encoding_prefix_iff, String.toList_ofList]
  unfold skipBytes?
  cases here : c.skip? value with
  | none => exact if_neg (mt test.mp (skip?_eq_none_iff.mp here))
  | some next =>
    obtain ⟨whole, offset⟩ := skip?_eq_some_iff.mp here
    have place : Text.suffixAt? value.utf8ByteSize c.rest = some next.rest :=
      Text.suffixAt?_eq_some_iff.mpr ⟨value.toList, whole, Text.byteLength_toList value⟩
    have left : String.fromUTF8? ((Text.encoding (String.ofList c.rest)).drop value.utf8ByteSize).toByteArray =
        some (String.ofList next.rest) := by
      rw [Text.fromUTF8?_eq_some_iff, List.data_toByteArray, Text.encoding, Text.encoding, String.toList_ofList,
        String.toList_ofList, Text.drop_flatMap_of_suffixAt? place]
    rw [if_pos (test.mpr ⟨next.rest, whole.symm⟩), left, Option.map_some, String.toList_ofList, ← offset]

end Cursor

open Text Cursor

/-- A text begins with the bytes of another exactly if it begins with its characters. The number of these bytes is
then a boundary, behind it stand the bytes of the characters that are left, and a cursor can go forward so far. So a
literal is skipped by its bytes as it is by its characters, whatever is left of the text. -/
theorem Text.bytes_agree_with_characters (value text : String) :
    (encoding value <+: encoding text ↔ value.toList <+: text.toList) ∧
      (encoding value <+: encoding text →
        isBoundary (encoding text) value.utf8ByteSize = true ∧
        (encoding text).drop value.utf8ByteSize = encoding (String.ofList (text.toList.drop value.length)) ∧
        ∀ offset, forward? value.utf8ByteSize ⟨text.toList, offset⟩ =
          some ⟨text.toList.drop value.length, offset + value.utf8ByteSize⟩) ∧
      ∀ offset, skipBytes? value ⟨text.toList, offset⟩ = skip? value ⟨text.toList, offset⟩ := by
  refine ⟨encoding_prefix_iff, ?_, fun offset => skipBytes?_eq_skip? value _⟩
  intro bytes
  have place := suffixAt?_of_prefix (encoding_prefix_iff.mp bytes)
  refine ⟨?_, ?_, ?_⟩
  · rw [encoding, isBoundary_flatMap, place, Option.isSome_some]
  · rw [encoding, encoding, String.toList_ofList]
    exact drop_flatMap_of_suffixAt? place
  · intro offset
    rw [forward?, place, Option.map_some]

theorem Text.bytes_agree_with_characters_of_mixed_widths :
    encoding "aä€" <+: encoding "aä€😀!" ∧ isBoundary (encoding "aä€😀!") 6 = true ∧
      (encoding "aä€😀!").drop 6 = encoding "😀!" ∧
      forward? 6 ⟨"aä€😀!".toList, 3⟩ = some ⟨"😀!".toList, 9⟩ ∧
      skipBytes? "aä€" ⟨"aä€😀!".toList, 3⟩ = some ⟨"😀!".toList, 9⟩ ∧
      ¬ encoding "aä" <+: encoding "aå" := by
  have bytes : encoding "aä€" <+: encoding "aä€😀!" := by decide
  obtain ⟨_, agree, same⟩ := bytes_agree_with_characters "aä€" "aä€😀!"
  obtain ⟨boundary, left, forward⟩ := agree bytes
  have apart := mt (bytes_agree_with_characters "aä" "aå").1.mp (by decide)
  exact ⟨bytes, boundary, left, forward 3, (same 3).trans (by decide), apart⟩

end Ebnf
