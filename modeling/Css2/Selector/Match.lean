import Css2.Document
import Css2.Options.Basic
import Css2.Selector.Basic

/-! # Matching

Whether a chain selects a node.  The subject is tested on the node itself, and then each link
before it on the node that the combinator names: the parent, the nearest element before, or for a
descendant the nearest ancestor that passes, from which the search goes on.

Parents and previous siblings are followed without a bound.  An answer is missing where that never
ends, which takes a document whose links go round in a circle.
-/

namespace Css2

/-! ### Conditions -/

/-- Whether a value is the expected one, or begins with it and a hyphen. -/
def dashMatches (value expected : List Char) : Bool :=
  match expected, value with
  | [], [] => true
  | [], c :: _ => c = '-'
  | e :: es, v :: vs => e = v && dashMatches vs es
  | _ :: _, [] => false

def AttributeSel.matches (a : AttributeSel) (d : Document) (id : Nat) : Bool :=
  let expected := a.value.getD ""
  match d.attribute? id a.name with
  | none => false
  | some value =>
    match a.test with
    | .present => true
    | .equals => value == expected
    | .includes =>
      expected != "" && !expected.toList.any isSpacing && (words value).contains expected
    | .dashMatch => dashMatches value.toList expected.toList

/-- The pseudo-classes for what a document does not know: they are never met. -/
def statePseudos : List String :=
  ["link", "visited", "hover", "active", "focus"]

inductive PseudoTest where
  | firstChild
  | lang (code : String)
  /-- Something that no node of a document ever is. -/
  | never
  | unsupported
  deriving DecidableEq, Repr

/-- The meaning of a pseudo-class or pseudo-element. -/
def Pseudo.meaning (p : Pseudo) : PseudoTest :=
  let name := p.name.toLower
  match p.argument with
  | none =>
    if name = "first-child" then .firstChild
    else if statePseudos.contains name || p.isElement then .never
    else .unsupported
  | some code => if name = "lang" then .lang code else .unsupported

/-- The language of a node: the nearest attribute `lang`, its own or of an ancestor. -/
def language? (d : Document) (id : Nat) : Option (Option String) :=
  match d.attribute? id "lang" with
  | some lang => some (some lang)
  | none => do
    let found ←
      Document.Links.search d.parent? (fun n => some (d.attribute? n "lang").isSome) id
    return found.bind fun n => d.attribute? n "lang"

/-- Whether a node is what a name behind a colon asks for. -/
def Pseudo.answer (p : Pseudo) (d : Document) (id : Nat) : Option Bool :=
  match p.meaning with
  | .firstChild => do
    if (d.parent? id).any d.isElement then
      let previous ← d.previousElement? id
      return previous.isNone
    else return false
  | .lang code => do
    let found ← language? d id
    return found.any fun lang => dashMatches lang.toLower.toList code.toLower.toList
  | .never => some false
  | .unsupported => some false

def Condition.answer (o : MatchOptions) (d : Document) (id : Nat) : Condition → Option Bool
  | .className name =>
    some ((d.attribute? id "class").any fun value =>
      match o.names with
      | .leading => beginsWith name value
      | .exact => (words value).contains name)
  | .id name =>
    some ((d.attribute? id "id").any fun value =>
      match o.names with
      | .leading => beginsWith name value
      | .exact => value == name)
  | .pseudo p => p.answer d id
  | .attributes tests => some (tests.all fun t => t.matches d id)

/-! ### Links -/

/-- Whether a node is an element with the name that a link asks for. -/
def Link.matchesName (l : Link) (d : Document) (id : Nat) : Bool :=
  match d.tag? id with
  | none => false
  | some tag => l.name.all (sameName tag)

/-- Whether a node meets all of some conditions, which are tested up to the first that is not met.
-/
def meetsAll (o : MatchOptions) (d : Document) (id : Nat) : List Condition → Option Bool
  | [] => some true
  | k :: ks => do
    if ← k.answer o d id then meetsAll o d id ks else return false

/-- Whether a node meets a link, whatever stands before that. -/
def Link.answer (o : MatchOptions) (d : Document) (l : Link) (id : Nat) : Option Bool :=
  if l.matchesName d id then meetsAll o d id l.conditions else some false

/-! ### Chains -/

/-- A node, if there is one and it passes the test. -/
def keepIf (p : Nat → Option Bool) : Option Nat → Option (Option Nat)
  | none => some none
  | some n => do
    if ← p n then return some n else return none

/-- The node that a combinator names and that passes the test, if there is one. -/
def Combinator.find? (c : Combinator) (d : Document) (p : Nat → Option Bool) (id : Nat) :
    Option (Option Nat) :=
  match c with
  | first | descendant => Document.Links.search d.parent? p id
  | child => keepIf p (d.parent? id)
  | adjacent => do
    let previous ← d.previousElement? id
    keepIf p previous

/-- Whether the links before a node are met; `c` joins the last of them to the node.  The links
come from right to left. -/
def matchLinks (o : MatchOptions) (d : Document) : List Link → Combinator → Nat → Option Bool
  | [], _, _ => some true
  | l :: ls, c, id => do
    match ← c.find? d (l.answer o d) id with
    | none => return false
    | some found => matchLinks o d ls l.combinator found

/-- The answer to whether a chain selects a node.  A chain without links selects nothing. -/
def Chain.answer (o : MatchOptions) (d : Document) (c : Chain) (id : Nat) : Option Bool :=
  match c.links.reverse with
  | [] => some false
  | subject :: ls => do
    if ← subject.answer o d id then matchLinks o d ls subject.combinator id else return false

/-- Whether a chain selects a node: the search ends, and it does so with that answer. -/
def Chain.matches (o : MatchOptions) (d : Document) (c : Chain) (id : Nat) : Bool :=
  c.answer o d id = some true

end Css2
