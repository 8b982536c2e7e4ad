import Css2.Reader.Basic

/-! # Reading with the core grammar

The productions of `Grammar/Core` for a reader.  They only find out where a statement ends.
-/

namespace Css2

namespace Reader

mutual

/-- Skips what is inside a pair of brackets and the mark that closes it. -/
def contents (closer : Mark) : Production Unit := do
  match ← peek with
  | none => return
  | some t =>
    if t.lexeme.isMark closer then
      let _ ← bump
    else if t.lexeme.isMark .openBrace then
      (· |>.coreBlock)
      (· |>.contents closer)
    else if Grammar.isInner t.lexeme then
      let _ ← bump
      (· |>.contents closer)
    else
      (· |>.coreAny)
      (· |>.contents closer)
partial_fixpoint

def coreBlock : Production Unit := do
  expect .openBrace
  nested (· |>.contents .closeBrace)
partial_fixpoint

/-- Skips a token that may stand anywhere, or a pair of brackets, and the trivia behind it. -/
def coreAny : Production Unit := do
  match ← bump with
  | none => failHere .endOfInput
  | some t =>
    match t.lexeme with
    | .function _ | .mark .openParen => nested (· |>.contents .closeParen)
    | .mark .openBracket => nested (· |>.contents .closeBracket)
    | l => if !Grammar.isPlain l then throw (.failed (.stray l) t.loc)
    let _ ← skipTrivia
partial_fixpoint

end

/-- Skips an at-rule behind its keyword, or a ruleset, up to the end of its block.  Only an at-rule
may end at a semicolon instead. -/
def coreTail (atRule : Bool) : Production Unit := do
  match ← peek with
  | none => return
  | some t =>
    if t.lexeme.isMark .openBrace then coreBlock
    else if atRule && t.lexeme.isMark .semicolon then
      let _ ← bump
    else
      coreAny
      (· |>.coreTail atRule)
partial_fixpoint

def coreStatement : Production Unit := do
  match ← peek with
  | none => failHere .endOfInput
  | some ⟨.atKeyword _, _⟩ =>
    let _ ← bump
    let _ ← skipTrivia
    coreTail true
  | some _ => coreTail false

end Reader

end Css2
