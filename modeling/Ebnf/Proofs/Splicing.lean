import Ebnf.Element.Group
import Ebnf.Proofs.Adequacy

/-! How far an element gets, its tree left aside. Seen like this, putting operands one behind the other or
side by side is associative, so splicing a group into its surroundings changes nothing. -/
namespace Ebnf

namespace Verdict

def bare (verdict : Verdict α) : Verdict Unit := verdict.map fun _ => ()

def andThen : Verdict Unit → (Cursor → Verdict Unit) → Verdict Unit
  | .matched () next, further => further next
  | .mismatched errors, _ => .mismatched errors

def orElse : Verdict Unit → Verdict Unit → Verdict Unit
  | .matched () next, _ => .matched () next
  | .mismatched errors, other => other.blaming errors

@[simp] theorem bare_map (f : α → β) (verdict : Verdict α) : (verdict.map f).bare = verdict.bare := by
  cases verdict <;> rfl

@[simp] theorem bare_matched (value : α) (next : Cursor) : (matched value next).bare = .matched () next := rfl

@[simp] theorem bare_mismatched (errors : List Mismatch) :
    (mismatched errors : Verdict α).bare = .mismatched errors := rfl

@[simp] theorem bare_blaming (errors : List Mismatch) (verdict : Verdict α) :
    (verdict.blaming errors).bare = verdict.bare.blaming errors := by
  cases verdict <;> rfl

theorem andThen_assoc (verdict : Verdict Unit) (first second : Cursor → Verdict Unit) :
    (verdict.andThen first).andThen second = verdict.andThen fun c => (first c).andThen second := by
  cases verdict <;> rfl

theorem orElse_assoc (first second third : Verdict Unit) :
    (first.orElse second).orElse third = first.orElse (second.orElse third) := by
  cases first with
  | matched => rfl
  | mismatched errors =>
    cases second with
    | matched => rfl
    | mismatched more => cases third <;> simp [orElse, List.append_assoc]

end Verdict

namespace Element

def advance (e : Element) (c : Cursor) : Verdict Unit := (e.attempt c).verdict.bare

def advanceAll (es : List Element) (c : Cursor) : Verdict Unit := (attemptAll es c).verdict.bare

def advanceAny (es : List Element) (c : Cursor) : Verdict Unit := (attemptAny es c).verdict.bare

theorem advanceAny_nil (c : Cursor) : advanceAny [] c = .mismatched [] := rfl

theorem advanceAll_cons (e : Element) (es : List Element) (c : Cursor) :
    advanceAll (e :: es) c = (e.advance c).andThen (advanceAll es) := by
  unfold advanceAll advance
  rw [attemptAll]
  cases (e.attempt c).verdict with
  | matched node next => simp [Verdict.andThen]
  | mismatched errors => rfl

theorem advanceAny_cons (e : Element) (es : List Element) (c : Cursor) :
    advanceAny (e :: es) c = (e.advance c).orElse (advanceAny es c) := by
  unfold advanceAny advance
  rw [attemptAny]
  cases (e.attempt c).verdict with
  | matched node next => rfl
  | mismatched errors => simp [Verdict.orElse]

theorem advanceAll_append (es fs : List Element) (c : Cursor) :
    advanceAll (es ++ fs) c = (advanceAll es c).andThen (advanceAll fs) := by
  induction es generalizing c with
  | nil => rfl
  | cons e es ih =>
    have tail : advanceAll (es ++ fs) = fun next => (advanceAll es next).andThen (advanceAll fs) :=
      funext ih
    rw [List.cons_append, advanceAll_cons, advanceAll_cons, Verdict.andThen_assoc, tail]

theorem advanceAny_append (es fs : List Element) (c : Cursor) :
    advanceAny (es ++ fs) c = (advanceAny es c).orElse (advanceAny fs c) := by
  induction es with
  | nil =>
    rw [List.nil_append, advanceAny_nil]
    cases advanceAny fs c <;> rfl
  | cons e es ih => rw [List.cons_append, advanceAny_cons, advanceAny_cons, ih, Verdict.orElse_assoc]

theorem advanceAll_singleton (e : Element) (c : Cursor) : advanceAll [e] c = e.advance c := by
  rw [advanceAll_cons]
  cases e.advance c <;> rfl

theorem advanceAny_singleton (e : Element) (c : Cursor) : advanceAny [e] c = e.advance c := by
  rw [advanceAny_cons]
  cases e.advance c with
  | matched => rfl
  | mismatched errors => simp [Verdict.orElse, advanceAny_nil]

theorem advance_concatenation (parts : List Element) (c : Cursor) :
    (concatenation parts).advance c = advanceAll parts c := by
  simp [advance, advanceAll, attempt]

theorem advance_alternation (branches : List Element) (c : Cursor) :
    (alternation branches).advance c = advanceAny branches c := by
  simp [advance, advanceAny, attempt]

theorem advance_of_match {e : Element} {c next : Cursor} {attempts : List Attempt} {node : Node}
    (run : Run (.one e) c attempts (.matched [node] next)) : e.advance c = .matched () next := by
  unfold advance
  rw [run.verdict_of_match, Verdict.bare_matched]

theorem advance_of_mismatch {e : Element} {c : Cursor} {attempts : List Attempt} {errors : List Mismatch}
    (run : Run (.one e) c attempts (.mismatched errors)) : e.advance c = .mismatched errors := by
  unfold advance
  rw [run.verdict_of_mismatch, Verdict.bare_mismatched]

theorem advance_eq_matched_iff {e : Element} {c next : Cursor} :
    e.advance c = .matched () next ↔ ∃ attempts node, Run (.one e) c attempts (.matched [node] next) := by
  constructor
  · intro reached
    have run := e.attempt_run c
    unfold advance at reached
    cases result : (e.attempt c).verdict with
    | matched node stop =>
      rw [result] at reached run
      cases reached
      exact ⟨_, node, run⟩
    | mismatched errors =>
      rw [result] at reached
      cases reached
  · rintro ⟨attempts, node, run⟩
    exact advance_of_match run

theorem advance_eq_mismatched_iff {e : Element} {c : Cursor} {errors : List Mismatch} :
    e.advance c = .mismatched errors ↔ ∃ attempts, Run (.one e) c attempts (.mismatched errors) := by
  constructor
  · intro failed
    have run := e.attempt_run c
    unfold advance at failed
    cases result : (e.attempt c).verdict with
    | matched node stop =>
      rw [result] at failed
      cases failed
    | mismatched more =>
      rw [result] at failed run
      cases failed
      exact ⟨_, run⟩
  · rintro ⟨attempts, run⟩
    exact advance_of_mismatch run

theorem parse_of_advance_matched {e : Element} {text : String} {stop : Cursor}
    (reached : e.advance (.start text) = .matched () stop) :
    ∃ root, e.parse text = .success root ∧ (Cursor.start text).Passes root.text.toList stop := by
  obtain ⟨attempts, root, run⟩ := advance_eq_matched_iff.mp reached
  exact ⟨root, parse_eq_success_iff.mpr ⟨attempts, stop, run⟩, run.passes_of_single⟩

theorem parse_of_advance_mismatched {e : Element} {text : String} {errors : List Mismatch}
    (failed : e.advance (.start text) = .mismatched errors) : e.parse text = .failure e errors :=
  parse_eq_failure_iff.mpr ⟨rfl, advance_eq_mismatched_iff.mp failed⟩

theorem exists_parse_of_advance_start_eq {x y : Element} {text : String} {root : Node}
    (same : x.advance (.start text) = y.advance (.start text)) (success : x.parse text = .success root) :
    ∃ other, y.parse text = .success other ∧ root.text = other.text ∧ root.byteLength = other.byteLength := by
  obtain ⟨attempts, stop, run⟩ := parse_eq_success_iff.mp success
  have reached := advance_of_match run
  rw [same] at reached
  obtain ⟨other, parsed, passes⟩ := parse_of_advance_matched reached
  have text_eq : root.text = other.text := by
    apply String.toList_inj.mp
    exact List.append_cancel_right (run.passes_of_single.rest.symm.trans passes.rest)
  refine ⟨other, parsed, text_eq, ?_⟩
  rw [root.byteLength_eq_utf8ByteSize, other.byteLength_eq_utf8ByteSize, text_eq]

theorem exists_parse_of_advance_eq {x y : Element} (same : x.advance = y.advance) {text : String} {root : Node}
    (success : x.parse text = .success root) :
    ∃ other, y.parse text = .success other ∧ root.text = other.text ∧ root.byteLength = other.byteLength :=
  exists_parse_of_advance_start_eq (congrFun same _) success

end Element

namespace Group
open Element

def advance : Group → List Element → Cursor → Verdict Unit
  | .sequence => advanceAll
  | .choice => advanceAny

theorem advance_ofParts (group : Group) (parts : List Element) (c : Cursor) :
    (group.ofParts parts).advance c = group.advance parts c := by
  cases group with
  | sequence => exact advance_concatenation parts c
  | choice => exact advance_alternation parts c

theorem advance_contribution (group : Group) (operand : Element) (c : Cursor) :
    group.advance (group.contribution operand) c = operand.advance c := by
  cases group with
  | sequence =>
    cases operand with
    | concatenation parts => exact (advance_concatenation parts c).symm
    | terminal | alternation | repetition => exact advanceAll_singleton _ c
  | choice =>
    cases operand with
    | alternation branches => exact (advance_alternation branches c).symm
    | terminal | concatenation | repetition => exact advanceAny_singleton _ c

/-- Splicing the operands of a group changes neither where it stops nor what it blames. -/
theorem advance_splice (group : Group) (operands : List Element) (c : Cursor) :
    group.advance (group.splice operands) c = group.advance operands c := by
  induction operands generalizing c with
  | nil => rfl
  | cons e es ih =>
    rw [splice_cons]
    cases group with
    | sequence =>
      have head : advanceAll (Group.sequence.contribution e) c = e.advance c :=
        advance_contribution .sequence e c
      have tail : advanceAll (Group.sequence.splice es) = advanceAll es := funext ih
      change advanceAll (_ ++ _) c = advanceAll (e :: es) c
      rw [advanceAll_append, advanceAll_cons, head, tail]
    | choice =>
      have head : advanceAny (Group.choice.contribution e) c = e.advance c :=
        advance_contribution .choice e c
      have tail : advanceAny (Group.choice.splice es) c = advanceAny es c := ih c
      change advanceAny (_ ++ _) c = advanceAny (e :: es) c
      rw [advanceAny_append, advanceAny_cons, head, tail]

theorem advance_ofCons (group : Group) (first : Element) (rest : List Element) (c : Cursor) :
    (group.ofCons first rest).advance c = group.advance (first :: rest) c := by
  unfold ofCons
  rw [advance_ofParts, advance_splice]

theorem advance_of_ofList {group : Group} {operands : List Element} {whole : Element}
    (made : group.ofList operands = .ok whole) (c : Cursor) : whole.advance c = group.advance operands c := by
  obtain ⟨_, rfl⟩ := ofList_eq_ok_iff.mp made
  rw [advance_ofParts, advance_splice]

theorem advance_sequence_pair (x y : Element) (c : Cursor) :
    (Group.sequence.pair x y).advance c = (x.advance c).andThen y.advance := by
  unfold pair
  rw [advance_ofCons]
  change advanceAll [x, y] c = _
  rw [advanceAll_cons, funext (advanceAll_singleton y)]

theorem advance_choice_pair (x y : Element) (c : Cursor) :
    (Group.choice.pair x y).advance c = (x.advance c).orElse (y.advance c) := by
  unfold pair
  rw [advance_ofCons]
  change advanceAny [x, y] c = _
  rw [advanceAny_cons, advanceAny_singleton]

end Group
end Ebnf
