import Css2.Options.Basic
import Css2.Sheet.Basic

/-! # Cascades

CSS 2.1 § 6.4.  A cascade holds at most one sheet of each origin.  The origin of a declaration and
its importance say which of two declarations takes precedence.
-/

namespace Css2

inductive Origin where
  | userAgent
  | user
  | author
  deriving DecidableEq, Repr, Inhabited

namespace Origin

/-- The origins in the order in which their sheets are read. -/
def all : List Origin := [userAgent, user, author]

def text : Origin → String
  | userAgent => "user-agent"
  | user => "user"
  | author => "author"

def ofName? (name : String) : Option Origin :=
  all.find? fun o => sameName o.text name

/-- The rank of a declaration.  The greater one takes precedence. -/
def precedence (o : Origin) (important : Bool) : Nat :=
  match o, important with
  | userAgent, _ => 0
  | user, false => 1
  | author, false => 2
  | author, true => 3
  | user, true => 4

end Origin

structure Cascade where
  userAgent : Option Sheet := none
  user : Option Sheet := none
  author : Option Sheet := none
  deriving BEq, Inhabited

namespace Cascade

def empty : Cascade := {}

def sheet? (c : Cascade) : Origin → Option Sheet
  | .userAgent => c.userAgent
  | .user => c.user
  | .author => c.author

def put (c : Cascade) (o : Origin) (s : Option Sheet) : Cascade :=
  match o with
  | .userAgent => { c with userAgent := s }
  | .user => { c with user := s }
  | .author => { c with author := s }

def sheets (c : Cascade) : List (Origin × Sheet) :=
  Origin.all.filterMap fun o => (c.sheet? o).map fun s => (o, s)

end Cascade

/-- Whether a list of media applies to the medium of the options. -/
def ResolveOptions.applies (o : ResolveOptions) (media : List String) : Bool :=
  match o.medium with
  | none => true
  | some medium => media.isEmpty || media.any fun m => sameName m "all" || sameName m medium

def Statement.applicable (o : ResolveOptions) : Statement → List Ruleset
  | ruleset rule => [rule]
  | media names rules => if o.applies names then rules else []
  | _ => []

def Sheet.applicable (o : ResolveOptions) (s : Sheet) : List Ruleset :=
  s.statements.flatMap (Statement.applicable o)

end Css2
