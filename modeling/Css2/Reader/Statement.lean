import Css2.Reader.Core
import Css2.Reader.Declaration
import Css2.Reader.Selector

/-! # Reading statements

The productions of `Grammar/Statement` for a reader.  Each reports its events as it goes, so that
`@media` has reported some when a statement inside it can be neither read nor skipped.
-/

namespace Css2

namespace Reader

/-! ### The heads of at-rules -/

/-- Reads names of media with commas between them, and the trivia behind them. -/
def mediaList : Production (List String) := do
  let name ← ident .medium
  let _ ← skipTrivia
  if ← nextIs (·.isMark .comma) then
    let _ ← bump
    let _ ← skipTrivia
    let names ← (· |>.mediaList)
    return name :: names
  else return [name]
partial_fixpoint

def importAddress : Production String := do
  match ← peek with
  | some ⟨.url address, _⟩ =>
    let _ ← bump
    return address
  | some ⟨.string address, _⟩ =>
    let _ ← bump
    return address
  | some ⟨.function name, _⟩ =>
    if sameName name "url" then
      let _ ← bump
      let _ ← skipTrivia
      let address ← string .url
      let _ ← skipTrivia
      expect .closeParen
      return address
    else unexpected .urlOrString
  | _ => unexpected .urlOrString

/-- Reads the media of an imported sheet, which may be missing. -/
def importMedia : Production (List String) := do
  match ← peek with
  | some ⟨.ident _, _⟩ => mediaList
  | _ => return []

/-- Reads the name of a page, which may be missing. -/
def pageName : Production (Option String) := do
  match ← peek with
  | some ⟨.ident name, _⟩ =>
    let _ ← bump
    return some name
  | _ => return none

/-- Reads the name behind a colon that says which pages are meant, if there is a colon. -/
def pagePseudo : Production (Option String) := do
  if ← nextIs (·.isMark .colon) then
    let _ ← bump
    let name ← ident .pageSelector
    return some name
  else return none

/-- Reads the rest of `@charset`. -/
def charsetName : Production String := do
  let name ← string .charsetName
  let _ ← skipTrivia
  expect .semicolon
  return name

/-- Reads the rest of `@import`.  At the end of the text its semicolon may be missing. -/
def importHead : Production (String × List String) := do
  let address ← importAddress
  let _ ← skipTrivia
  let names ← importMedia
  if ← nextIs fun _ => true then expect .semicolon
  return (address, names)

/-- Reads the head of `@media` up to and including its brace. -/
def mediaHead : Production (List String) := do
  let names ← mediaList
  expect .openBrace
  return names

/-- Reads the head of `@page`. -/
def pageHead : Production (Option String × Option String) := do
  let name ← pageName
  let pseudo ← pagePseudo
  let _ ← skipTrivia
  return (name, pseudo)

/-! ### Statements -/

/-- Reads a statement of a kind: its head, and what follows from that. -/
def statementOf {α : Type} (kind : StatementKind) (head : Production α)
    (body : α → Production Unit) : Production Unit := do
  become (.reading kind)
  let h ← head
  body h
  become (.completed kind)

/-- Reads the keyword of an at-rule, and then its head. -/
def headOf {α : Type} (keyword : String) (head : Production α) : Production α := do
  atKeyword keyword
  let _ ← skipTrivia
  head

/-- Reads `@charset`. -/
def charset : Production Unit :=
  statementOf .charset (headOf "charset" charsetName) fun name => emit (.charset name)

/-- Reads `@import`. -/
def importSheet : Production Unit :=
  statementOf .importSheet (headOf "import" importHead) fun (address, names) =>
    emit (.importSheet names address)

def ruleset : Production Unit :=
  statementOf .ruleset selector fun s => block (.startSelector s) .endSelector

/-- Reads rulesets up to a closing brace or the end of the text.  A statement that is not a ruleset
is skipped from where it begins. -/
def mediaBody : Production Unit := do
  let _ ← skipTrivia
  match ← peek with
  | none => emit .endMedia
  | some t =>
    if t.lexeme.isMark .closeBrace then
      let _ ← bump
      emit .endMedia
    else
      if let .error _ ← outcome (attempt ruleset) then coreStatement
      (· |>.mediaBody)
partial_fixpoint

/-- Reads `@media`. -/
def media : Production Unit :=
  statementOf .media (headOf "media" mediaHead) fun names => nested do
    emit (.startMedia names)
    mediaBody

/-- Reads `@page`. -/
def page : Production Unit :=
  statementOf .page (headOf "page" pageHead) fun (name, pseudo) =>
    block (.startPage name pseudo) .endPage

/-- Reads `@font-face`. -/
def fontFace : Production Unit :=
  statementOf .fontFace (headOf "font-face" (pure ())) fun _ => block .startFontFace .endFontFace

def cssStatement (phase : Phase) : Production Unit := do
  match Grammar.keyword? (← peek).toList with
  | none => ruleset
  | some "charset" => if phase = .start then charset else failHere .charsetNotFirst
  | some "import" => if phase = .body then failHere .importTooLate else importSheet
  | some "media" => media
  | some "page" => page
  | some "font-face" => fontFace
  | some name => failHere (.unknownAtRule name)

end Reader

end Css2
