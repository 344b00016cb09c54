import Ebnf.Attempt.Basic

/-! The rules of matching as one judgement, apart from the evaluator. A repetition runs here for as long
as its rules allow: there is no bound on its rounds. The attempts are recorded as the evaluator does. -/
namespace Ebnf

inductive Task where
  | one (e : Element)
  | all (parts : List Element)
  | any (branches : List Element)
  | rounds (inner : Element)

/-- Matching a task at a cursor makes these attempts and ends like this. A single node is a list of one. -/
inductive Run : Task → Cursor → List Attempt → Verdict (List Node) → Prop
  | found {value : String} {c next : Cursor} (here : c.skip? value = some next) :
      Run (.one (.terminal value)) c
        [⟨.terminal value, c, [], .matched (.terminal (.terminal value) value) next⟩]
        (.matched [.terminal (.terminal value) value] next)
  | missing {value : String} {c : Cursor} (absent : c.skip? value = none) :
      Run (.one (.terminal value)) c
        [⟨.terminal value, c, [], .mismatched [.ofLiteral value c]⟩] (.mismatched [.ofLiteral value c])
  | sequence {parts attempts nodes} {c next : Cursor}
      (parted : Run (.all parts) c attempts (.matched nodes next)) :
      Run (.one (.concatenation parts)) c
        [⟨.concatenation parts, c, attempts, .matched (.concatenation (.concatenation parts) nodes) next⟩]
        (.matched [.concatenation (.concatenation parts) nodes] next)
  | brokenSequence {parts attempts errors} {c : Cursor}
      (parted : Run (.all parts) c attempts (.mismatched errors)) :
      Run (.one (.concatenation parts)) c
        [⟨.concatenation parts, c, attempts, .mismatched errors⟩] (.mismatched errors)
  | choice {branches attempts node} {c next : Cursor}
      (chosen : Run (.any branches) c attempts (.matched [node] next)) :
      Run (.one (.alternation branches)) c
        [⟨.alternation branches, c, attempts, .matched (.alternation (.alternation branches) node) next⟩]
        (.matched [.alternation (.alternation branches) node] next)
  | exhaustedChoice {branches attempts errors} {c : Cursor}
      (chosen : Run (.any branches) c attempts (.mismatched errors)) :
      Run (.one (.alternation branches)) c
        [⟨.alternation branches, c, attempts, .mismatched errors⟩] (.mismatched errors)
  | repetition {inner attempts nodes} {c stop : Cursor}
      (looped : Run (.rounds inner) c attempts (.matched nodes stop)) :
      Run (.one (.repetition inner)) c
        [⟨.repetition inner, c, attempts, .matched (.repetition (.repetition inner) nodes) stop⟩]
        (.matched [.repetition (.repetition inner) nodes] stop)
  | allNil {c : Cursor} : Run (.all []) c [] (.matched [] c)
  | allStop {e es first errors} {c : Cursor} (head : Run (.one e) c [first] (.mismatched errors)) :
      Run (.all (e :: es)) c [first] (.mismatched errors)
  | allCons {e es first later node nodes} {c next stop : Cursor}
      (head : Run (.one e) c [first] (.matched [node] next))
      (tail : Run (.all es) next later (.matched nodes stop)) :
      Run (.all (e :: es)) c (first :: later) (.matched (node :: nodes) stop)
  | allBroken {e es first later node errors} {c next : Cursor}
      (head : Run (.one e) c [first] (.matched [node] next))
      (tail : Run (.all es) next later (.mismatched errors)) :
      Run (.all (e :: es)) c (first :: later) (.mismatched errors)
  | anyNil {c : Cursor} : Run (.any []) c [] (.mismatched [])
  | anyFirst {e es first node} {c next : Cursor} (head : Run (.one e) c [first] (.matched [node] next)) :
      Run (.any (e :: es)) c [first] (.matched [node] next)
  | anyLater {e es first later errors node} {c next : Cursor}
      (head : Run (.one e) c [first] (.mismatched errors))
      (tail : Run (.any es) c later (.matched [node] next)) :
      Run (.any (e :: es)) c (first :: later) (.matched [node] next)
  | anyNone {e es first later errors more} {c : Cursor}
      (head : Run (.one e) c [first] (.mismatched errors))
      (tail : Run (.any es) c later (.mismatched more)) :
      Run (.any (e :: es)) c (first :: later) (.mismatched (errors ++ more))
  | usedUp {inner} {c : Cursor} (nothing : c.rest = []) : Run (.rounds inner) c [] (.matched [] c)
  | blocked {inner last errors} {c : Cursor} (more : c.rest ≠ [])
      (round : Run (.one inner) c [last] (.mismatched errors)) :
      Run (.rounds inner) c [last] (.matched [] c)
  | idle {inner last node} {c next : Cursor} (more : c.rest ≠ [])
      (round : Run (.one inner) c [last] (.matched [node] next)) (still : next.offset = c.offset) :
      Run (.rounds inner) c [last] (.matched [] c)
  | again {inner first later node nodes} {c next stop : Cursor} (more : c.rest ≠ [])
      (round : Run (.one inner) c [first] (.matched [node] next)) (moved : next.offset ≠ c.offset)
      (further : Run (.rounds inner) next later (.matched nodes stop)) :
      Run (.rounds inner) c (first :: later) (.matched (node :: nodes) stop)

namespace Run

-- One induction for each sort of run: what is proved of matches has no cases for mismatches.
@[elab_as_elim]
theorem matched_induction
    {motive : ∀ {task c attempts nodes next}, Run task c attempts (.matched nodes next) → Prop}
    (found : ∀ {value} {c next : Cursor} (here : c.skip? value = some next), motive (.found here))
    (sequence : ∀ {parts attempts nodes c next} (parted : Run (.all parts) c attempts (.matched nodes next)),
      motive parted → motive (.sequence parted))
    (choice : ∀ {branches attempts node c next}
      (chosen : Run (.any branches) c attempts (.matched [node] next)),
      motive chosen → motive (.choice chosen))
    (repetition : ∀ {inner attempts nodes c stop}
      (looped : Run (.rounds inner) c attempts (.matched nodes stop)),
      motive looped → motive (.repetition looped))
    (allNil : ∀ {c}, motive (.allNil : Run (.all []) c [] (.matched [] c)))
    (allCons : ∀ {e es first later node nodes c next stop}
      (head : Run (.one e) c [first] (.matched [node] next))
      (tail : Run (.all es) next later (.matched nodes stop)),
      motive head → motive tail → motive (.allCons head tail))
    (anyFirst : ∀ {e es first node c next} (head : Run (.one e) c [first] (.matched [node] next)),
      motive head → motive (.anyFirst head : Run (.any (e :: es)) c [first] (.matched [node] next)))
    (anyLater : ∀ {e es first later errors node c next}
      (head : Run (.one e) c [first] (.mismatched errors))
      (tail : Run (.any es) c later (.matched [node] next)),
      motive tail → motive (.anyLater head tail))
    (usedUp : ∀ {inner c} (nothing : c.rest = []),
      motive (.usedUp nothing : Run (.rounds inner) c [] (.matched [] c)))
    (blocked : ∀ {inner last errors} {c : Cursor} (more : c.rest ≠ [])
      (round : Run (.one inner) c [last] (.mismatched errors)), motive (.blocked more round))
    (idle : ∀ {inner last node} {c next : Cursor} (more : c.rest ≠ [])
      (round : Run (.one inner) c [last] (.matched [node] next)) (still : next.offset = c.offset),
      motive round → motive (.idle more round still))
    (again : ∀ {inner first later node nodes} {c next stop : Cursor} (more : c.rest ≠ [])
      (round : Run (.one inner) c [first] (.matched [node] next)) (moved : next.offset ≠ c.offset)
      (further : Run (.rounds inner) next later (.matched nodes stop)),
      motive round → motive further → motive (.again more round moved further))
    {task : Task} {c : Cursor} {attempts : List Attempt} {nodes : List Node} {next : Cursor}
    (run : Run task c attempts (.matched nodes next)) : motive run := by
  have whole {task c attempts verdict} (any : Run task c attempts verdict) :
      match verdict, any with
      | .matched _ _, any => motive any
      | .mismatched _, _ => True := by
    induction any with
    | found here => exact found here
    | sequence parted ih => exact sequence parted ih
    | choice chosen ih => exact choice chosen ih
    | repetition looped ih => exact repetition looped ih
    | allNil => exact allNil
    | allCons head tail headIH tailIH => exact allCons head tail headIH tailIH
    | anyFirst head ih => exact anyFirst head ih
    | anyLater head tail headIH tailIH => exact anyLater head tail tailIH
    | usedUp nothing => exact usedUp nothing
    | blocked more round ih => exact blocked more round
    | idle more round still ih => exact idle more round still ih
    | again more round moved further roundIH furtherIH => exact again more round moved further roundIH furtherIH
    | missing | brokenSequence | exhaustedChoice | allStop | allBroken | anyNil | anyNone => trivial
  exact whole run

@[elab_as_elim]
theorem mismatched_induction
    {motive : ∀ {task c attempts errors}, Run task c attempts (.mismatched errors) → Prop}
    (missing : ∀ {value} {c : Cursor} (absent : c.skip? value = none), motive (.missing absent))
    (brokenSequence : ∀ {parts attempts errors c}
      (parted : Run (.all parts) c attempts (.mismatched errors)),
      motive parted → motive (.brokenSequence parted))
    (exhaustedChoice : ∀ {branches attempts errors c}
      (chosen : Run (.any branches) c attempts (.mismatched errors)),
      motive chosen → motive (.exhaustedChoice chosen))
    (allStop : ∀ {e es first errors c} (head : Run (.one e) c [first] (.mismatched errors)),
      motive head → motive (.allStop head : Run (.all (e :: es)) c [first] (.mismatched errors)))
    (allBroken : ∀ {e es first later node errors c next}
      (head : Run (.one e) c [first] (.matched [node] next))
      (tail : Run (.all es) next later (.mismatched errors)),
      motive tail → motive (.allBroken head tail))
    (anyNil : ∀ {c}, motive (.anyNil : Run (.any []) c [] (.mismatched [])))
    (anyNone : ∀ {e es first later errors more c}
      (head : Run (.one e) c [first] (.mismatched errors))
      (tail : Run (.any es) c later (.mismatched more)),
      motive head → motive tail → motive (.anyNone head tail))
    {task : Task} {c : Cursor} {attempts : List Attempt} {errors : List Mismatch}
    (run : Run task c attempts (.mismatched errors)) : motive run := by
  have whole {task c attempts verdict} (any : Run task c attempts verdict) :
      match verdict, any with
      | .matched _ _, _ => True
      | .mismatched _, any => motive any := by
    induction any with
    | missing absent => exact missing absent
    | brokenSequence parted ih => exact brokenSequence parted ih
    | exhaustedChoice chosen ih => exact exhaustedChoice chosen ih
    | allStop head ih => exact allStop head ih
    | allBroken head tail headIH tailIH => exact allBroken head tail tailIH
    | anyNil => exact anyNil
    | anyNone head tail headIH tailIH => exact anyNone head tail headIH tailIH
    | _ => trivial
  exact whole run

@[elab_as_elim]
theorem rounds_induction
    {motive : ∀ {inner c attempts nodes stop}, Run (.rounds inner) c attempts (.matched nodes stop) → Prop}
    (usedUp : ∀ {inner c} (nothing : c.rest = []),
      motive (.usedUp nothing : Run (.rounds inner) c [] (.matched [] c)))
    (blocked : ∀ {inner last errors} {c : Cursor} (more : c.rest ≠ [])
      (round : Run (.one inner) c [last] (.mismatched errors)), motive (.blocked more round))
    (idle : ∀ {inner last node} {c next : Cursor} (more : c.rest ≠ [])
      (round : Run (.one inner) c [last] (.matched [node] next)) (still : next.offset = c.offset),
      motive (.idle more round still))
    (again : ∀ {inner first later node nodes} {c next stop : Cursor} (more : c.rest ≠ [])
      (round : Run (.one inner) c [first] (.matched [node] next)) (moved : next.offset ≠ c.offset)
      (further : Run (.rounds inner) next later (.matched nodes stop)),
      motive further → motive (.again more round moved further))
    {inner : Element} {c : Cursor} {attempts : List Attempt} {nodes : List Node} {stop : Cursor}
    (run : Run (.rounds inner) c attempts (.matched nodes stop)) : motive run := by
  have whole {task c attempts nodes stop} (any : Run task c attempts (.matched nodes stop)) :
      match task, any with
      | .rounds _, any => motive any
      | .one _, _ | .all _, _ | .any _, _ => True := by
    induction any using matched_induction with
    | usedUp nothing => exact usedUp nothing
    | blocked more round => exact blocked more round
    | idle more round still ih => exact idle more round still
    | again more round moved further roundIH furtherIH => exact again more round moved further furtherIH
    | _ => trivial
  exact whole run

end Run
end Ebnf
