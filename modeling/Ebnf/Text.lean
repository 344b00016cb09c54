/-! Texts as lists of characters, measured in the bytes of their UTF-8 form.
Positions in a text are byte offsets; `suffixAt?` turns an offset back into the text that starts there. -/
namespace Ebnf.Text

def byteLength : List Char → Nat
  | [] => 0
  | c :: text => c.utf8Size + byteLength text

def after? (value text : List Char) : Option (List Char) := value.isPrefixOf? text

def suffixAt? : Nat → List Char → Option (List Char)
  | 0, text => some text
  | _ + 1, [] => none
  | offset + 1, c :: text =>
    if c.utf8Size ≤ offset + 1 then suffixAt? (offset + 1 - c.utf8Size) text else none

@[simp] theorem byteLength_nil : byteLength [] = 0 := rfl

@[simp] theorem byteLength_cons (c : Char) (text : List Char) :
    byteLength (c :: text) = c.utf8Size + byteLength text := rfl

@[simp] theorem byteLength_append (first second : List Char) :
    byteLength (first ++ second) = byteLength first + byteLength second := by
  induction first with
  | nil => simp
  | cons c first ih => simp [ih, Nat.add_assoc]

theorem byteLength_eq_zero_iff {text : List Char} : byteLength text = 0 ↔ text = [] := by
  cases text with
  | nil => simp
  | cons c text =>
    have := c.utf8Size_pos
    simp only [byteLength_cons, reduceCtorEq, iff_false]
    omega

theorem byteLength_pos {text : List Char} (more : text ≠ []) : 0 < byteLength text :=
  Nat.pos_of_ne_zero (mt byteLength_eq_zero_iff.mp more)

theorem byteLength_toList (value : String) : byteLength value.toList = value.utf8ByteSize := by
  obtain ⟨text, rfl⟩ : ∃ text, value = String.ofList text := ⟨value.toList, by simp⟩
  rw [String.toList_ofList]
  induction text with
  | nil => rfl
  | cons c text ih => simp [String.ofList_cons, ih]

@[simp] theorem suffixAt?_zero (text : List Char) : suffixAt? 0 text = some text := by
  cases text <;> rfl

/-- An offset is a place in the text exactly when some beginning of the text has that many bytes. -/
theorem suffixAt?_eq_some_iff {offset : Nat} {text rest : List Char} :
    suffixAt? offset text = some rest ↔
      ∃ before, text = before ++ rest ∧ byteLength before = offset := by
  induction text generalizing offset with
  | nil =>
    cases offset with
    | zero =>
      simp only [suffixAt?_zero, Option.some.injEq, byteLength_eq_zero_iff]
      constructor
      · rintro rfl; exact ⟨[], rfl, rfl⟩
      · rintro ⟨before, whole, rfl⟩; exact whole
    | succ n => simp [suffixAt?]
  | cons c text ih =>
    have positive := c.utf8Size_pos
    cases offset with
    | zero =>
      simp only [suffixAt?_zero, Option.some.injEq]
      constructor
      · rintro rfl; exact ⟨[], by simp⟩
      · rintro ⟨before, whole, empty⟩
        simpa [byteLength_eq_zero_iff.mp empty] using whole
    | succ n =>
      rw [suffixAt?]
      split
      · rename_i fits
        rw [ih]
        constructor
        · rintro ⟨before, rfl, size⟩
          exact ⟨c :: before, rfl, by simp; omega⟩
        · rintro ⟨before, whole, size⟩
          cases before with
          | nil => simp at size
          | cons d before =>
            simp only [List.cons_append, List.cons.injEq] at whole
            obtain ⟨rfl, rfl⟩ := whole
            exact ⟨before, rfl, by simp at size; omega⟩
      · rename_i long
        simp only [reduceCtorEq, false_iff, not_exists, not_and]
        intro before whole size
        cases before with
        | nil => simp at size
        | cons d before =>
          simp only [List.cons_append, List.cons.injEq] at whole
          obtain ⟨rfl, rfl⟩ := whole
          simp at size
          omega

end Ebnf.Text
