import Css2.Reader.Basic

/-! # Reading selectors

The productions of `Grammar/Selector` for a reader.
-/

namespace Css2

namespace Reader

/-! ### Conditions -/

def attributeValue : Production String := do
  match ← peek with
  | some ⟨.ident value, _⟩ =>
    let _ ← bump
    return value
  | some ⟨.string value, _⟩ =>
    let _ ← bump
    return value
  | _ => unexpected .attributeValue

def attributeSel : Production AttributeSel := do
  expect .openBracket
  let _ ← skipTrivia
  let name ← ident .attributeName
  let _ ← skipTrivia
  match ← peek with
  | none => unexpected .attributeTest
  | some t =>
    if t.lexeme.isMark .closeBracket then
      let _ ← bump
      return ⟨name, .present, none⟩
    else match Grammar.attributeTest? t.lexeme with
      | none => unexpected .attributeTest
      | some test =>
        let _ ← bump
        let _ ← skipTrivia
        let value ← attributeValue
        let _ ← skipTrivia
        expect .closeBracket
        return ⟨name, test, some value⟩

def pseudo : Production Pseudo := do
  expect .colon
  match ← peek with
  | some ⟨.ident name, _⟩ =>
    let _ ← bump
    return ⟨name, none⟩
  | some ⟨.function name, _⟩ =>
    let _ ← bump
    let _ ← skipTrivia
    let argument ← ident .pseudoArgument
    let _ ← skipTrivia
    expect .closeParen
    return ⟨name, some argument⟩
  | _ => unexpected .pseudoName

/-- Reads one condition, or nothing if the next token does not begin one. -/
def condition? : Production (Option Condition) := do
  match ← peek with
  | some ⟨.hash name isIdent, _⟩ =>
    if isIdent then
      let _ ← bump
      return some (.id name)
    else unexpected .idName
  | some ⟨.delim c, _⟩ =>
    if c = '.' then
      let _ ← bump
      let name ← ident .className
      return some (.className name)
    else return none
  | some ⟨.mark .openBracket, _⟩ =>
    let test ← attributeSel
    return some (.attributes [test])
  | some ⟨.mark .colon, _⟩ =>
    let p ← pseudo
    return some (.pseudo p)
  | _ => return none

def conditions : Production (List Condition) := do
  match ← condition? with
  | none => return []
  | some c =>
    let more ← (· |>.conditions)
    return Grammar.joinCondition c more
partial_fixpoint

/-! ### Links -/

/-- Takes the name that a link may begin with: an identifier, or an asterisk for any element. -/
def elementName? : Production (Option (Option String)) := do
  match ← peek with
  | some ⟨.ident name, _⟩ =>
    let _ ← bump
    return some (some name)
  | some ⟨.delim c, _⟩ =>
    if c = '*' then
      let _ ← bump
      return some none
    else return none
  | _ => return none

def link (combinator : Combinator) : Production Link := do
  let name? ← elementName?
  let cs ← conditions
  match name? with
  | some name => return ⟨name, cs, combinator⟩
  | none =>
    if cs.isEmpty then unexpected .selector
    else return ⟨none, cs, combinator⟩

/-- Takes what joins a link to the next one.  There is nothing if the chain ends. -/
def combinator? : Production (Option Combinator) := do
  let spaced ← skipTrivia
  match ← peek with
  | none => return none
  | some t =>
    if t.lexeme.isDelim '+' then
      let _ ← bump
      let _ ← skipTrivia
      return some .adjacent
    else if t.lexeme.isDelim '>' then
      let _ ← bump
      let _ ← skipTrivia
      return some .child
    else if t.lexeme.isMark .comma || t.lexeme.isMark .openBrace then return none
    else if spaced then return some .descendant
    else unexpected .combinator

/-- Reads the links behind the first one, with the trivia behind them. -/
def moreLinks : Production (List Link) := do
  match ← combinator? with
  | none => return []
  | some c =>
    let l ← link c
    let ls ← (· |>.moreLinks)
    return l :: ls
partial_fixpoint

/-! ### Chains and groups -/

def chain : Production Chain := do
  let l ← link .first
  let ls ← moreLinks
  return ⟨l :: ls⟩

def chains : Production (List Chain) := do
  let c ← chain
  if ← nextIs (·.isMark .comma) then
    let _ ← bump
    let _ ← skipTrivia
    let cs ← (· |>.chains)
    return c :: cs
  else return [c]
partial_fixpoint

def selector : Production Selector := do
  return ⟨← chains⟩

end Reader

end Css2
