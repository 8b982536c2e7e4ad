import Css2.Text

/-! # Selectors

CSS 2.1 § 5.  A link is the conditions that one element has to meet, a chain joins links by
combinators from left to right, and a selector is a group of chains of which one has to match.
Every link of a chain records how it is joined to the link before it.

    div.nav > ul li   =   [div.nav]  [> ul]  [li]
-/

namespace Css2

inductive AttributeTest where
  /-- The attribute is there, whatever its value. -/
  | present
  /-- Its value is the given one. -/
  | equals
  /-- One of the words of its value is the given one. -/
  | includes
  /-- Its value is the given one, or begins with it and a hyphen. -/
  | dashMatch
  deriving DecidableEq, Repr, Inhabited

/-- A condition on one attribute.  A value that is missing where one is compared counts as
empty. -/
structure AttributeSel where
  name : String
  test : AttributeTest
  value : Option String
  deriving DecidableEq, Repr, Inhabited

/-- A name behind a colon, which may have an argument. -/
structure Pseudo where
  name : String
  argument : Option String
  deriving DecidableEq, Repr, Inhabited

def pseudoElements : List String :=
  ["first-line", "first-letter", "before", "after"]

def Pseudo.isElement (p : Pseudo) : Bool :=
  p.argument.isNone && pseudoElements.any (sameName p.name)

inductive Condition where
  | className (name : String)
  | id (name : String)
  | pseudo (p : Pseudo)
  /-- Tests of attributes that follow one upon the other. -/
  | attributes (tests : List AttributeSel)
  deriving DecidableEq, Repr, Inhabited

inductive Combinator where
  /-- The first link of a chain.  Anywhere else it means a descendant. -/
  | first
  | descendant
  | child
  /-- The element right behind another, both having one parent. -/
  | adjacent
  deriving DecidableEq, Repr, Inhabited

/-- The conditions on one element.  Without a name any element will do. -/
structure Link where
  name : Option String := none
  conditions : List Condition := []
  combinator : Combinator := .first
  deriving DecidableEq, Repr, Inhabited

/-- Links from left to right.  The last one is the subject, whose element is selected. -/
structure Chain where
  links : List Link
  deriving DecidableEq, Repr, Inhabited

/-- The link that the selected element itself has to meet. -/
def Chain.subject (c : Chain) : Option Link :=
  c.links.getLast?

structure Selector where
  chains : List Chain
  deriving DecidableEq, Repr, Inhabited

end Css2
