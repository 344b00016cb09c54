import Ebnf.Node.Placement
import Ebnf.Proofs.Shift

/-! Every subtree of a match is the match of its own element at its own place, and each node has the children
that its element asks for. -/
namespace Ebnf

theorem Run.element_eq {e : Element} {c next : Cursor} {attempts : List Attempt} {node : Node}
    (run : Run (.one e) c attempts (.matched [node] next)) : node.element = e := by
  cases run <;> rfl

theorem Run.elements_eq {parts : List Element} {c next : Cursor} {attempts : List Attempt} {nodes : List Node}
    (run : Run (.all parts) c attempts (.matched nodes next)) : nodes.map Node.element = parts := by
  induction parts generalizing c attempts nodes with
  | nil =>
    cases run
    rfl
  | cons e es ih =>
    cases run with
    | allCons head tail => rw [List.map_cons, head.element_eq, ih tail]

theorem Run.chosen_branch {branches : List Element} {c next : Cursor} {attempts : List Attempt} {node : Node}
    (run : Run (.any branches) c attempts (.matched [node] next)) :
    ∃ before after, branches = before ++ node.element :: after ∧
      ∀ e ∈ before, ∃ attempts errors, Run (.one e) c attempts (.mismatched errors) := by
  induction branches generalizing attempts with
  | nil => cases run
  | cons e es ih =>
    cases run with
    | anyFirst head =>
      refine ⟨[], es, ?_, ?_⟩
      · rw [head.element_eq, List.nil_append]
      · intro f member
        cases member
    | anyLater head tail =>
      obtain ⟨before, after, split, failed⟩ := ih tail
      refine ⟨e :: before, after, ?_, ?_⟩
      · rw [split, List.cons_append]
      · intro f member
        rcases List.mem_cons.mp member with rfl | member
        · exact ⟨_, _, head⟩
        · exact failed f member

theorem Run.children_of_rounds {inner : Element} {c stop : Cursor} {attempts : List Attempt}
    {nodes : List Node} (run : Run (.rounds inner) c attempts (.matched nodes stop)) :
    ∀ n ∈ nodes, n.element = inner ∧ 0 < n.byteLength := by
  induction run using rounds_induction with
  | usedUp | blocked | idle =>
    intro n member
    cases member
  | again more round moved further ih =>
    intro n member
    rcases List.mem_cons.mp member with rfl | member
    · have offset := round.offset_of_single
      refine ⟨round.element_eq, ?_⟩
      omega
    · exact ih n member

theorem Run.stop_of_rounds {inner : Element} {c stop : Cursor} {attempts : List Attempt} {nodes : List Node}
    (run : Run (.rounds inner) c attempts (.matched nodes stop)) :
    stop.rest = [] ∨ (∃ last errors, Run (.one inner) stop last (.mismatched errors)) ∨
      ∃ last node next, Run (.one inner) stop last (.matched [node] next) ∧ next.offset = stop.offset := by
  induction run using rounds_induction with
  | usedUp nothing => exact .inl nothing
  | blocked more round => exact .inr (.inl ⟨_, _, round⟩)
  | idle more round still => exact .inr (.inr ⟨_, _, _, round, still⟩)
  | again more round moved further ih => exact ih

def Node.OwnRun (c : Cursor) (offset : Nat) (n : Node) : Prop :=
  ∃ place own stop, c.Reaches place ∧ place.offset = offset ∧
    Run (.one n.element) place own (.matched [n] stop)

private theorem ownRun_of_children {e : Element} {c next : Cursor} {attempts : List Attempt} {node : Node}
    (run : Run (.one e) c attempts (.matched [node] next))
    (inside : ∀ offset n, (offset, n) ∈ Node.placedAll c.offset node.children → n.OwnRun c offset) :
    ∀ offset n, (offset, n) ∈ Node.placedAll c.offset [node] → n.OwnRun c offset := by
  intro offset n member
  rw [Node.placedAll_singleton, Node.placed_eq] at member
  rcases List.mem_cons.mp member with itself | below
  · cases itself
    have own := run
    rw [← run.element_eq] at own
    exact ⟨c, attempts, next, .refl c, rfl, own⟩
  · exact inside offset n below

private theorem ownRun_of_head_tail {task : Task} {c next : Cursor} {attempts : List Attempt} {node : Node}
    {nodes : List Node} (head : Run task c attempts (.matched [node] next))
    (first : ∀ offset n, (offset, n) ∈ Node.placedAll c.offset [node] → n.OwnRun c offset)
    (later : ∀ offset n, (offset, n) ∈ Node.placedAll next.offset nodes → n.OwnRun next offset) :
    ∀ offset n, (offset, n) ∈ Node.placedAll c.offset (node :: nodes) → n.OwnRun c offset := by
  intro offset n member
  rw [Node.placedAll, ← head.offset_of_single] at member
  rcases List.mem_append.mp member with inHead | inTail
  · rw [← Node.placedAll_singleton] at inHead
    exact first offset n inHead
  · obtain ⟨place, own, stop, reached, same, run⟩ := later offset n inTail
    exact ⟨place, own, stop, head.reaches.trans reached, same, run⟩

/-- Every node of a match, at any depth, is what its own element yields at its own place. -/
theorem Run.ownRun {task : Task} {c next : Cursor} {attempts : List Attempt} {nodes : List Node}
    (run : Run task c attempts (.matched nodes next)) :
    ∀ offset n, (offset, n) ∈ Node.placedAll c.offset nodes → n.OwnRun c offset := by
  induction run using matched_induction with
  | found here =>
    apply ownRun_of_children (.found here)
    intro offset n member
    cases member
  | sequence parted ih => exact ownRun_of_children (.sequence parted) ih
  | choice chosen ih => exact ownRun_of_children (.choice chosen) ih
  | repetition looped ih => exact ownRun_of_children (.repetition looped) ih
  | allNil | usedUp | blocked | idle =>
    intro offset n member
    cases member
  | allCons head tail headIH tailIH => exact ownRun_of_head_tail head headIH tailIH
  | again more round moved further roundIH furtherIH => exact ownRun_of_head_tail round roundIH furtherIH
  | anyFirst head ih => exact ih
  | anyLater head tail ih => exact ih

/-- The node has the children that its element asks for, where `offset` is its place in the text: a sequence
one for each part, a choice one of the first branch that matches, a repetition as many as there are, none of
them without text, up to the place where its element no longer matches or matches nothing. -/
def Node.FitsAt (text : String) (offset : Nat) : Node → Prop
  | .terminal e value => e = .terminal value
  | .concatenation e children => e = .concatenation (children.map element)
  | .alternation e child =>
    ∃ before after, e = .alternation (before ++ child.element :: after) ∧
      ∀ branch ∈ before, ∃ errors, branch.parseAt? text offset = some (.failure branch errors)
  | .repetition e children =>
    ∃ inner, e = .repetition inner ∧ (∀ n ∈ children, n.element = inner ∧ 0 < n.byteLength) ∧
      (Text.suffixAt? (offset + byteLengthAll children) text.toList = some [] ∨
        (∃ errors, inner.parseAt? text (offset + byteLengthAll children) = some (.failure inner errors)) ∨
        ∃ idle, inner.parseAt? text (offset + byteLengthAll children) = some (.success idle) ∧
          idle.byteLength = 0)

theorem Run.fitsAt {e : Element} {text : String} {c next : Cursor} {attempts : List Attempt} {node : Node}
    (reached : (Cursor.start text).Reaches c) (run : Run (.one e) c attempts (.matched [node] next)) :
    node.FitsAt text c.offset := by
  cases run with
  | found here => rfl
  | sequence parted => exact congrArg Element.concatenation parted.elements_eq.symm
  | choice chosen =>
    obtain ⟨before, after, split, failed⟩ := chosen.chosen_branch
    refine ⟨before, after, congrArg Element.alternation split, ?_⟩
    intro branch member
    obtain ⟨last, errors, failure⟩ := failed branch member
    exact failure.parseAt?_eq_failure reached
  | repetition looped =>
    have arrived := reached.trans looped.reaches
    refine ⟨_, rfl, looped.children_of_rounds, ?_⟩
    rw [← looped.offset_eq]
    rcases looped.stop_of_rounds with nothing | ⟨last, errors, failure⟩ | ⟨last, idle, stop, round, still⟩
    · left
      rw [arrived.suffixAt, nothing]
    · right; left
      exact failure.parseAt?_eq_failure arrived
    · right; right
      have size := round.offset_of_single
      refine ⟨idle, round.parseAt?_eq_success arrived, ?_⟩
      omega

/-- Every subtree of a parse is exactly what its own element yields on the text from its own place on, and
has the children that its element asks for. -/
theorem Element.parse_subtrees (e : Element) (text : String) (root : Node)
    (success : e.parse text = .success root) :
    root.element = e ∧ ∀ offset n, (offset, n) ∈ root.placed 0 →
      n.element.parseAt? text offset = some (.success n) ∧ n.FitsAt text offset := by
  obtain ⟨attempts, next, run⟩ := parse_eq_success_iff.mp success
  refine ⟨run.element_eq, ?_⟩
  intro offset n member
  rw [← Node.placedAll_singleton] at member
  obtain ⟨place, own, stop, reached, same, ownRun⟩ := run.ownRun offset n member
  rw [← same]
  exact ⟨ownRun.parseAt?_eq_success reached, ownRun.fitsAt reached⟩

theorem Element.parse_subtrees_of_repeated_choice :
    (repetition (alternation ["ä", "b"])).parse "bäc" =
        .success (.repetition (repetition (alternation ["ä", "b"]))
          [.alternation (alternation ["ä", "b"]) (.terminal "b" "b"),
            .alternation (alternation ["ä", "b"]) (.terminal "ä" "ä")]) ∧
      ("ä" : Element).parseAt? "bäc" 1 = some (.success (.terminal "ä" "ä")) :=
  have success := by decide
  ⟨success, ((parse_subtrees _ _ _ success).2 1 (.terminal "ä" "ä") (by decide)).1⟩

end Ebnf
