import Css2.Sheet.Event

/-! # Building a sheet from events

A builder collects events into a sheet.  It accepts them in any order.  A statement that is open
when an error is reported is dropped, and one that is open at the end is not part of the sheet.
-/

namespace Css2

inductive Builder.Open where
  | ruleset (selector : Selector)
  | page (name pseudo : Option String)
  | fontFace
  deriving BEq

/-- A sheet, the statement being received with its declarations so far, and the `@media` block
being received with its rulesets so far. -/
structure Builder where
  sheet : Sheet := Sheet.empty
  current : Option (Builder.Open × List Declaration) := none
  media : Option (List String × List Ruleset) := none

namespace Builder

def empty : Builder := {}

def push (b : Builder) (s : Statement) : Builder :=
  { b with sheet := b.sheet.push s }

def discard (b : Builder) : Builder :=
  { b with current := none, media := none }

def start (b : Builder) (o : Open) : Builder :=
  { b with current := some (o, []) }

/-- Adds a ruleset to the `@media` block being received, or to the sheet. -/
def addRuleset (b : Builder) (r : Ruleset) : Builder :=
  match b.media with
  | some (names, rules) => { b with media := some (names, rules ++ [r]) }
  | none => b.push (.ruleset r)

def step (b : Builder) : Event → Builder
  | .startDocument => b.discard
  | .endDocument => b
  | .charset name => b.push (.charset name)
  | .importSheet names url => b.push (.importSheet url names)
  | .startSelector selector => b.start (.ruleset selector)
  | .endSelector =>
    let closed := { b with current := none }
    match b.current with
    | some (.ruleset selector, ds) => closed.addRuleset ⟨selector, ds⟩
    | _ => closed
  | .property d =>
    match b.current with
    | some (o, ds) => { b with current := some (o, ds ++ [d]) }
    | none => b
  | .startMedia names => { b with media := some (names, []) }
  | .endMedia =>
    match b.media with
    | some (names, rules) => { b with media := none }.push (.media names rules)
    | none => b
  | .startPage name pseudo => b.start (.page name pseudo)
  | .endPage =>
    let closed := { b with current := none }
    match b.current with
    | some (.page name pseudo, ds) => closed.push (.page name pseudo ds)
    | _ => closed
  | .startFontFace => b.start .fontFace
  | .endFontFace =>
    let closed := { b with current := none }
    match b.current with
    | some (.fontFace, ds) => closed.push (.fontFace ds)
    | _ => closed
  | .error _ => b.discard
  | .unrecoverable _ => b.discard

def run (b : Builder) (events : List Event) : Builder :=
  events.foldl step b

end Builder

def Sheet.ofEvents (events : List Event) : Sheet :=
  (Builder.empty.run events).sheet

end Css2
