import Css2.Reader.Value

/-! # Reading declarations

The productions of `Grammar/Declaration` for a reader.  The reader goes back to where a malformed
declaration begins before it skips it.
-/

namespace Css2

namespace Reader

def declaration : Production Declaration := do
  let property ← ident .propertyName
  let _ ← skipTrivia
  expect .colon
  let _ ← skipTrivia
  let value ← terms
  if ← nextIs (· == .important) then
    let _ ← bump
    let _ ← skipTrivia
    return ⟨property, value, true⟩
  else return ⟨property, value, false⟩

/-- Reads a declaration and makes sure that it ends there. -/
def listedDeclaration : Production Declaration := do
  let d ← declaration
  match ← peek with
  | none => return d
  | some t =>
    if t.lexeme.isMark .semicolon || t.lexeme.isMark .closeBrace then return d
    else unexpected .declarationEnd

/-- Skips a malformed declaration.  `closers` are the marks that are still to come, innermost
first, and `begun` says whether a token of the declaration was skipped already. -/
def skipMalformed (inBlock : Bool) (closers : List Mark) (begun : Bool) : Production Unit := do
  match ← peek with
  | none => return
  | some t =>
    if closers.isEmpty && t.lexeme.isMark .semicolon then
      let _ ← bump
    else if closers.isEmpty && inBlock && begun && t.lexeme.isMark .closeBrace then return
    else
      let _ ← bump
      (· |>.skipMalformed inBlock (Grammar.pushCloser closers t.lexeme) true)
partial_fixpoint

/-- Reads declarations up to the end of the text or, in a block, of the block.  Each of them is
handed to `sink` as soon as it is read. -/
def declarations (inBlock : Bool) (sink : Declaration → Production Unit) :
    Production (List Declaration) := do
  let _ ← skipTrivia
  match ← peek with
  | none => return []
  | some t =>
    if inBlock && t.lexeme.isMark .closeBrace then
      let _ ← bump
      return []
    else if t.lexeme.isMark .semicolon then
      let _ ← bump
      (· |>.declarations inBlock sink)
    else match ← outcome (attempt listedDeclaration) with
      | .ok d =>
        sink d
        let more ← (· |>.declarations inBlock sink)
        return d :: more
      | .error _ =>
        skipMalformed inBlock [] false
        (· |>.declarations inBlock sink)
partial_fixpoint

/-- Reads a block of declarations, which is reported between the events `first` and `last`. -/
def block (first last : Event) : Production Unit := do
  expect .openBrace
  nested do
    emit first
    let _ ← declarations true fun d => emit (.property d)
    emit last

end Reader

end Css2
