import Css2.Error
import Css2.Sheet.Basic

/-! # Events

What a parser reports while it reads a sheet, in the order of the text.  A statement that holds
declarations or rulesets is reported by a first and a last event around those of its contents.
-/

namespace Css2

inductive Event where
  | startDocument
  | endDocument
  | charset (name : String)
  | importSheet (media : List String) (url : String)
  | startSelector (selector : Selector)
  | endSelector
  | property (d : Declaration)
  | startMedia (media : List String)
  | endMedia
  | startPage (name pseudo : Option String)
  | endPage
  | startFontFace
  | endFontFace
  /-- The statement in progress is dropped. -/
  | error (e : ParseError)
  /-- The statement in progress is dropped, and nothing follows. -/
  | unrecoverable (e : ParseError)
  deriving BEq

def Ruleset.events (r : Ruleset) : List Event :=
  .startSelector r.selector :: (r.declarations.map Event.property ++ [.endSelector])

def Statement.events : Statement → List Event
  | ruleset rule => rule.events
  | importSheet url names => [.importSheet names url]
  | media names rules => .startMedia names :: (rules.flatMap Ruleset.events ++ [.endMedia])
  | page name pseudo declarations =>
    .startPage name pseudo :: (declarations.map Event.property ++ [.endPage])
  | charset name => [.charset name]
  | fontFace declarations => .startFontFace :: (declarations.map Event.property ++ [.endFontFace])

end Css2
