import Ebnf.Parser

/-! Reading depends only on the bytes that arrive before the text is over, not on how they arrive.
The answers of a source are cut at the first that ends the text or breaks it off. What lies before the cut
counts only by the bytes it carries, and what lies behind it does not count at all. -/
namespace Ebnf

def Text.encoding (text : String) : List UInt8 := text.toList.flatMap String.utf8EncodeChar

private theorem Text.encoding_eq_toByteArray (text : String) :
    encoding text = text.toByteArray.data.toList := by
  rw [← String.utf8Encode_toList, List.utf8Encode, List.data_toByteArray, encoding]

/-- Strict decoding accepts exactly what the encoder can yield, and gives back what was encoded. -/
theorem Text.fromUTF8?_eq_some_iff {bytes : ByteArray} {text : String} :
    String.fromUTF8? bytes = some text ↔ encoding text = bytes.data.toList := by
  rw [encoding_eq_toByteArray]
  constructor
  · intro decoded
    rw [String.fromUTF8?] at decoded
    split at decoded
    · cases decoded
      rfl
    · contradiction
  · intro encoded
    have same : bytes = text.toByteArray := (ByteArray.ext (Array.toList_inj.mp encoded)).symm
    subst same
    rw [String.fromUTF8?, dif_pos text.isValidUTF8]
    rfl

/-- Some bytes encode nothing: the lead bytes `C0` and `C1` of two-byte forms for characters that have a
shorter form, and from `F5` on those of numbers beyond the last character. -/
theorem Text.bounds_of_mem_encoding {text : String} {byte : UInt8} (found : byte ∈ encoding text) :
    byte.toNat < 0xC0 ∨ 0xC2 ≤ byte.toNat ∧ byte.toNat < 0xF5 := by
  obtain ⟨c, _, found⟩ := List.mem_flatMap.mp found
  have bound : c.val.toNat < 0x110000 := by
    rcases c.valid with low | high <;> omega
  simp only [String.utf8EncodeChar] at found
  generalize c.val.toNat = value at *
  split at found
  · simp only [List.mem_cons, List.not_mem_nil, or_false] at found
    subst found
    rw [UInt8.toNat_ofNat']
    omega
  split at found
  · simp only [List.mem_cons, List.not_mem_nil, or_false] at found
    rcases found with rfl | rfl <;> rw [UInt8.toNat_ofNat'] <;> omega
  split at found
  · simp only [List.mem_cons, List.not_mem_nil, or_false] at found
    rcases found with rfl | rfl | rfl <;> rw [UInt8.toNat_ofNat'] <;> omega
  · simp only [List.mem_cons, List.not_mem_nil, or_false] at found
    rcases found with rfl | rfl | rfl | rfl <;> rw [UInt8.toNat_ofNat'] <;> omega

namespace Delivery

def goesOn : Delivery → Bool
  | .chunk bytes => !bytes.isEmpty
  | .interruption => true
  | .breakage => false

def chunk? : Delivery → Option ByteArray
  | .chunk bytes => some bytes
  | .interruption => none
  | .breakage => none

def bytes (received : List Delivery) : List UInt8 :=
  (received.filterMap chunk?).flatMap (·.data.toList)

inductive Ended : List Delivery → Prop where
  | exhausted : Ended []
  | emptyChunk (later : List Delivery) : Ended (.chunk .empty :: later)

inductive Broken : List Delivery → Prop where
  | breakage (later : List Delivery) : Broken (.breakage :: later)

theorem stops_of_not_goesOn {d : Delivery} (stops : d.goesOn = false) (later : List Delivery) :
    Ended (d :: later) ∨ Broken (d :: later) := by
  cases d with
  | interruption => contradiction
  | breakage => exact .inr (.breakage later)
  | chunk bytes =>
    have none : bytes.size = 0 := by simpa [goesOn, ByteArray.isEmpty] using stops
    rw [ByteArray.size_eq_zero_iff.mp none]
    exact .inl (.emptyChunk later)

theorem exists_cut (deliveries : List Delivery) : ∃ received later,
    deliveries = received ++ later ∧ (∀ d ∈ received, d.goesOn) ∧ (Ended later ∨ Broken later) := by
  refine ⟨deliveries.takeWhile goesOn, deliveries.dropWhile goesOn,
    List.takeWhile_append_dropWhile.symm, List.all_eq_true.mp List.all_takeWhile, ?_⟩
  cases rest : deliveries.dropWhile goesOn with
  | nil => exact .inl .exhausted
  | cons d later =>
    have stops := List.head_dropWhile_not (l := deliveries) goesOn (by simp [rest])
    exact stops_of_not_goesOn (by simpa [rest] using stops) later

/-- What is collected before the cut does not depend on what the source answers after it. -/
theorem collect_append {received : List Delivery} (going : ∀ d ∈ received, d.goesOn) (later : List Delivery) :
    collect (received ++ later) = (received.filterMap chunk? ++ ·) <$> collect later := by
  induction received with
  | nil => simp
  | cons d received ih =>
    obtain ⟨next, rest⟩ := List.forall_mem_cons.mp going
    cases d with
    | interruption =>
      rw [List.filterMap_cons_none rfl, ← ih rest]
      rfl
    | breakage => simp [goesOn] at next
    | chunk bytes =>
      have some : bytes.isEmpty = false := by simpa [goesOn] using next
      simp [collect, chunk?, some, ih rest]

theorem collect_of_ended {later : List Delivery} (ended : Ended later) : collect later = .ok [] := by
  cases ended <;> rfl

theorem collect_of_broken {later : List Delivery} (broken : Broken later) :
    collect later = .error .brokenPipe := by
  cases broken
  rfl

private theorem foldl_append_toList (chunks : List ByteArray) (front : ByteArray) :
    (chunks.foldl (· ++ ·) front).data.toList = front.data.toList ++ chunks.flatMap (·.data.toList) := by
  induction chunks generalizing front with
  | nil => simp
  | cons chunk chunks ih => rw [List.foldl_cons, ih]; simp

theorem join_toList (chunks : List ByteArray) : (join chunks).data.toList = chunks.flatMap (·.data.toList) := by
  rw [join, foldl_append_toList]
  rfl

theorem readText_of_broken {received later : List Delivery} (going : ∀ d ∈ received, d.goesOn)
    (broken : Broken later) : readText (received ++ later) = .error .brokenPipe := by
  rw [readText, collect_append going, collect_of_broken broken]
  rfl

theorem readText_of_ended {received later : List Delivery} (going : ∀ d ∈ received, d.goesOn)
    (ended : Ended later) : readText (received ++ later) =
      match String.fromUTF8? (join (received.filterMap chunk?)) with
      | some text => .ok text
      | none => .error .invalidData := by
  rw [readText, collect_append going, collect_of_ended ended]
  simp only [bind, Except.bind, Functor.map, Except.map, List.append_nil]
  rfl

theorem decode_received_iff {received : List Delivery} {text : String} :
    String.fromUTF8? (join (received.filterMap chunk?)) = some text ↔ Text.encoding text = bytes received := by
  rw [Text.fromUTF8?_eq_some_iff, join_toList, bytes]

end Delivery

open Delivery Text

/-- Every source either ends its text or breaks, and only the bytes before that count. A break is the answer
itself. At the end the answer is the one for the text that the bytes encode, or that they encode none: into
which chunks they were cut, where the source was interrupted and what it would deliver after the end are the
same to it. -/
theorem Parser.parseDelivered_reads_bytes (p : Parser) :
    (∀ deliveries, ∃ received later, deliveries = received ++ later ∧ (∀ d ∈ received, d.goesOn) ∧
      (Ended later ∨ Broken later)) ∧
    ∀ received, (∀ d ∈ received, d.goesOn) →
      (∀ later, Broken later → p.parseDelivered (received ++ later) = .error .brokenPipe) ∧
      ∀ later, Ended later →
        (∀ text, encoding text = bytes received →
          p.parseDelivered (received ++ later) = .ok (p.parse text)) ∧
        ((∀ text, encoding text ≠ bytes received) →
          p.parseDelivered (received ++ later) = .error .invalidData) := by
  refine ⟨exists_cut, fun received going => ⟨?_, fun later ended => ⟨?_, ?_⟩⟩⟩
  · intro later broken
    rw [parseDelivered, readText_of_broken going broken]
    rfl
  · intro text encoded
    rw [parseDelivered, readText_of_ended going ended, decode_received_iff.mpr encoded]
    rfl
  · intro never
    have undecoded : String.fromUTF8? (join (received.filterMap chunk?)) = none :=
      Option.eq_none_iff_forall_ne_some.mpr fun text decoded => never text (decode_received_iff.mp decoded)
    rw [parseDelivered, readText_of_ended going ended, undecoded]
    rfl

theorem Parser.parseDelivered_reads_bytes_of_cut_character :
    (Parser.mk "ä").parseDelivered
        [.chunk ⟨#[0xC3]⟩, .interruption, .chunk ⟨#[0xA4]⟩, .chunk .empty, .breakage] =
      .ok (.success (.terminal "ä" "ä")) ∧
    (Parser.mk "ä").parseDelivered [.chunk ⟨#[0xC3]⟩, .breakage, .chunk ⟨#[0xA4]⟩] = .error .brokenPipe ∧
    (Parser.mk "ä").parseDelivered [.chunk ⟨#[0xC0]⟩, .interruption, .chunk ⟨#[0x80]⟩] =
      .error .invalidData := by
  obtain ⟨_, reads⟩ := parseDelivered_reads_bytes (Parser.mk "ä")
  refine ⟨?_, ?_, ?_⟩
  · have answer := ((reads [.chunk ⟨#[0xC3]⟩, .interruption, .chunk ⟨#[0xA4]⟩] (by decide)).2
      _ (.emptyChunk [.breakage])).1 "ä" (by decide)
    have matched : (Parser.mk "ä").parse "ä" = .success (.terminal "ä" "ä") := by decide
    rwa [matched] at answer
  · exact (reads [.chunk ⟨#[0xC3]⟩] (by decide)).1 _ (.breakage _)
  · refine ((reads [.chunk ⟨#[0xC0]⟩, .interruption, .chunk ⟨#[0x80]⟩] (by decide)).2 _ .exhausted).2 ?_
    intro text encoded
    have overlong : (0xC0 : UInt8) ∈ encoding text := by rw [encoded]; decide
    rcases bounds_of_mem_encoding overlong with small | ⟨large, _⟩ <;> contradiction

end Ebnf
