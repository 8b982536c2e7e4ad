import Css2.Selector.Basic
import Css2.Term.Basic

/-! # Style sheets

A sheet is a list of statements.  Rulesets and the blocks of `@page` and `@font-face` hold
declarations, and `@media` holds rulesets.
-/

namespace Css2

structure Declaration where
  /-- The name of the property as it is written. -/
  property : String
  value : List Term
  important : Bool := false
  deriving BEq, Inhabited

/-- Whether the value is the keyword `inherit` alone. -/
def Declaration.isInherit (d : Declaration) : Bool :=
  match d.value with
  | [t] => t.isIdent "inherit"
  | _ => false

/-- A selector and the declarations for what it selects. -/
structure Ruleset where
  selector : Selector
  declarations : List Declaration := []
  deriving BEq, Inhabited

inductive Statement where
  | ruleset (rule : Ruleset)
  | importSheet (url : String) (media : List String)
  | media (media : List String) (rules : List Ruleset)
  | page (name pseudo : Option String) (declarations : List Declaration)
  | charset (name : String)
  | fontFace (declarations : List Declaration)
  deriving BEq, Inhabited

def Statement.rulesets : Statement → List Ruleset
  | ruleset rule => [rule]
  | media _ rules => rules
  | _ => []

structure Sheet where
  statements : List Statement := []
  deriving BEq, Inhabited

namespace Sheet

def empty : Sheet := ⟨[]⟩

def length (s : Sheet) : Nat :=
  s.statements.length

def push (s : Sheet) (statement : Statement) : Sheet :=
  ⟨s.statements ++ [statement]⟩

/-- All the rulesets in order, those inside `@media` included. -/
def rulesets (s : Sheet) : List Ruleset :=
  s.statements.flatMap Statement.rulesets

end Sheet

end Css2
