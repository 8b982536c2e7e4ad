import Css2.Reader.Basic

/-! # Reading values

The productions of `Grammar/Value` for a reader.  The parentheses of a function count as one level
while its arguments are read.
-/

namespace Css2

namespace Reader

def sign : Production (Option Sign) := do
  match ← peek with
  | some ⟨.delim c, _⟩ =>
    if c = '+' then
      let _ ← bump
      return some .plus
    else if c = '-' then
      let _ ← bump
      return some .minus
    else return none
  | _ => return none

/-- Takes what separates a term from the next one.  There is nothing if the value ends. -/
def separator? : Production (Option (Option Separator)) := do
  let _ ← skipTrivia
  match ← peek with
  | none => return none
  | some t =>
    if t.lexeme.isMark .comma then
      let _ ← bump
      let _ ← skipTrivia
      return some (some .comma)
    else if t.lexeme.isDelim '/' then
      let _ ← bump
      let _ ← skipTrivia
      return some (some .slash)
    else if Grammar.startsTerm t.lexeme then return some none
    else return none

mutual

def terms : Production (List Term) := do
  let t ← (· |>.term)
  match ← separator? with
  | none => return [t]
  | some separator =>
    let more ← (· |>.terms)
    return { t with separator } :: more
partial_fixpoint

/-- Reads a term.  A sign may only stand before a number or a function. -/
def term : Production Term := do
  let s ← sign
  match ← bump with
  | none => failHere .endOfInput
  | some t =>
    let v ← (· |>.value t)
    if s.isSome && !v.takesSign then throw (.failed .misplacedSign t.loc)
    return ⟨v, s, none⟩
partial_fixpoint

/-- Reads the value of a term that begins with the token `t`, which is taken already. -/
def value (t : Token) : Production Value := do
  match t.lexeme with
  | .function name =>
    let args ← nested do
      let _ ← skipTrivia
      let args ← (· |>.terms)
      let _ ← skipTrivia
      expect .closeParen
      return args
    return Value.ofFunction name args
  | l =>
    match Grammar.simpleValue? l with
    | some v => return v
    | none => throw (.failed (.notATerm l) t.loc)
partial_fixpoint

end

end Reader

end Css2
