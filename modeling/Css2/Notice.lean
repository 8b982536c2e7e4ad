import Css2.Selector.Match

/-! # Notices

What matching and styling find that they do not support.  A notice is given once, until the record
of given notices is cleared.
-/

namespace Css2

/-! ### The record -/

/-- The notices that were given, by component and message. -/
structure Notices where
  given : List String := []
  deriving DecidableEq, Repr, Inhabited

namespace Notices

def key (component message : String) : String :=
  "[" ++ component ++ "] " ++ message

/-- Gives a notice.  The answer says whether it is a new one. -/
def warn (n : Notices) (component message : String) : Bool × Notices :=
  let k := key component message
  if n.given.contains k then (false, n) else (true, ⟨k :: n.given⟩)

/-- Gives notices of the component that reads style sheets. -/
def warnAll (n : Notices) (messages : List String) : Notices :=
  messages.foldl (fun n m => (n.warn "CSS" m).2) n

def clear (_ : Notices) : Notices := {}

end Notices

def unsupportedPseudo (p : Pseudo) : String :=
  "unsupported pseudo-class " ++ "\x27:" ++ p.name.toLower ++ "\x27"

def unsupportedProperty (name : String) : String :=
  "unsupported property " ++ "\x27" ++ name ++ "\x27"

/-! ### Notices of matching -/

def Condition.notices : Condition → List String
  | pseudo p => if p.meaning = .unsupported then [unsupportedPseudo p] else []
  | _ => []

/-- The notices of testing conditions up to the first that is not met. -/
def conditionNotices (o : MatchOptions) (d : Document) (id : Nat) :
    List Condition → Option (List String)
  | [] => some []
  | k :: ks => do
    if ← k.answer o d id then conditionNotices o d id ks else return k.notices

def Link.notices (o : MatchOptions) (d : Document) (l : Link) (id : Nat) : Option (List String) :=
  if l.matchesName d id then conditionNotices o d id l.conditions else some []

/-- The nodes that a search tests, with the one that it finds. -/
def Document.Links.tested (next : Links) (p : Nat → Option Bool) (id : Nat) :
    Option (List Nat) :=
  match next id with
  | none => some []
  | some j => do
    if ← p j then return [j]
    let js ← next |>.tested p j
    return j :: js
partial_fixpoint

/-- The nodes where the link before a combinator is tested. -/
def Combinator.tested (c : Combinator) (d : Document) (p : Nat → Option Bool) (id : Nat) :
    Option (List Nat) :=
  match c with
  | first | descendant => Document.Links.tested d.parent? p id
  | child => some (d.parent? id).toList
  | adjacent => do
    let previous ← d.previousElement? id
    return previous.toList

/-- The notices of testing the links before a node. -/
def linkNotices (o : MatchOptions) (d : Document) :
    List Link → Combinator → Nat → Option (List String)
  | [], _, _ => some []
  | l :: ls, c, id => do
    let tested ← c.tested d (l.answer o d) id
    let notices ← tested.mapM (l.notices o d)
    match ← c.find? d (l.answer o d) id with
    | none => return notices.flatten
    | some found =>
      let more ← linkNotices o d ls l.combinator found
      return notices.flatten ++ more

def Chain.notices (o : MatchOptions) (d : Document) (c : Chain) (id : Nat) :
    Option (List String) :=
  match c.links.reverse with
  | [] => some []
  | subject :: ls => do
    let notices ← subject.notices o d id
    if ← subject.answer o d id then
      let more ← linkNotices o d ls subject.combinator id
      return notices ++ more
    else return notices

end Css2
