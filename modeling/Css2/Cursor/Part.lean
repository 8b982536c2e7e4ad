import Css2.Cursor.Basic
import Css2.Token.Scan

/-! # The parts of a token

Escapes, names, numbers, comments, strings and addresses, taken by a cursor.  What is taken is given
back as a value; where it is malformed there is none.
-/

namespace Css2

namespace Cursor

/-! ### Escapes and names -/

/-- Whether a character and the next one begin an escape.  At the end of the text they do. -/
def opensEscape (first second : Option Char) : Bool :=
  first = some '\\' && !second.any isNewline

def opensName (first second third : Option Char) : Bool :=
  match first with
  | none => false
  | some c =>
    if c = '-' then second.any isNameStart || second = some '-' || opensEscape second third
    else isNameStart c || opensEscape first second

def startsName : Scanner Bool := do
  return opensName (← peek) (← peekAt 1) (← peekAt 2)

/-- Takes the one blank that may end an escape; the pair that ends a line counts as one. -/
def oneBlank : Scanner Unit := do
  if (← peek) = some '\r' && (← peekAt 1) = some '\n' then
    let _ ← consume
  if (← peek).any isBlank then
    let _ ← consume

/-- The character that an escape stands for, the backslash being read already. -/
def escaped : Scanner Char := do
  match ← consume with
  | none => return Scan.replacement
  | some c =>
    if isHexDigit c then
      let digits ← upTo isHexDigit 5
      oneBlank
      return Scan.charOfCode (Scan.hexNumber (c :: digits))
    else return c

def name : Scanner (List Char) := do
  match ← consume with
  | none => return []
  | some c =>
    if isNameChar c then
      let more ← (· |>.name)
      return c :: more
    else if opensEscape (some c) (← peek) then
      let e ← escaped
      let more ← (· |>.name)
      return e :: more
    else
      reconsume
      return []
partial_fixpoint

/-! ### Comments, strings and addresses -/

/-- The text of a comment, its opening being read already. -/
def comment : Scanner (List Char) := do
  match ← consume with
  | none => return []
  | some c =>
    if c = '*' && (← peek) = some '/' then
      let _ ← consume
      return []
    else
      let more ← (· |>.comment)
      return c :: more
partial_fixpoint

/-- Skips the line break that a backslash hides.  Two characters may be one line break. -/
def hiddenBreak (c : Char) : Scanner Unit := do
  let _ ← consume
  if c = '\r' then
    if (← peek) = some '\n' then
      let _ ← consume

/-- The value of a string, its opening quote being read already; nothing if a line break cuts it
short, and then the break is not read. -/
def string (quote : Char) : Scanner (Option (List Char)) := do
  match ← consume with
  | none => return some []
  | some c =>
    if c = quote then return some []
    else if isNewline c then
      reconsume
      return none
    else if c = '\\' then
      match ← peek with
      | none => (· |>.string quote)
      | some d =>
        if isNewline d then
          hiddenBreak d
          (· |>.string quote)
        else
          let e ← escaped
          let more ← (· |>.string quote)
          return more.map (e :: ·)
    else
      let more ← (· |>.string quote)
      return more.map (c :: ·)
partial_fixpoint

/-- Skips the rest of a malformed address, with its closing parenthesis. -/
def skipBadUrl : Scanner Unit := do
  match ← consume with
  | none => return
  | some c =>
    if c = ')' then return
    else if opensEscape (some c) (← peek) then
      let _ ← escaped
      (· |>.skipBadUrl)
    else (· |>.skipBadUrl)
partial_fixpoint

def urlEnd : Scanner (Option (List Char)) := do
  skipBlanks
  match ← peek with
  | none => return some []
  | some d =>
    if d = ')' then
      let _ ← consume
      return some []
    else
      skipBadUrl
      return none

/-- The characters of an unquoted address up to its closing parenthesis; nothing if it is
malformed. -/
def urlBody : Scanner (Option (List Char)) := do
  match ← consume with
  | none => return some []
  | some c =>
    if c = ')' then return some []
    else if isBlank c then urlEnd
    else if c = '\x22' ∨ c = '\x27' ∨ c = '(' then
      skipBadUrl
      return none
    else if c = '\\' then
      if opensEscape (some '\\') (← peek) then
        let e ← escaped
        let more ← (· |>.urlBody)
        return more.map (e :: ·)
      else
        skipBadUrl
        return none
    else
      let more ← (· |>.urlBody)
      return more.map (c :: ·)
partial_fixpoint

/-- An unquoted address, its opening parenthesis being read already. -/
def url : Scanner (Option (List Char)) := do
  skipBlanks
  urlBody

/-! ### Numbers -/

def isSign (c : Char) : Bool :=
  c = '+' || c = '-'

/-- Whether a number begins with the character `first`, which is read already. -/
def startsNumber (first : Char) : Scanner Bool := do
  let second ← peek
  let third ← peekAt 1
  if isSign first then
    return second.any Char.isDigit || (second = some '.' && third.any Char.isDigit)
  else if first = '.' then return second.any Char.isDigit
  else return first.isDigit

def sign : Scanner (List Char) := do
  if (← peek).any isSign then one else return []

/-- The point of a number and the digits behind it, if there are any. -/
def fraction : Scanner (List Char) := do
  if (← peek) = some '.' && (← peekAt 1).any Char.isDigit then
    let point ← one
    return point ++ (← digits)
  else return []

def exponent : Scanner (List Char) := do
  if (← peek).any fun c => c = 'e' || c = 'E' then
    let signed := (← peekAt 1).any isSign
    if (← peekAt (if signed then 2 else 1)).any Char.isDigit then
      let mark ← one
      let sign ← if signed then one else pure []
      return mark ++ sign ++ (← digits)
    else return []
  else return []

/-- A number: the value that its text writes, and its form. -/
def number : Scanner (Float × NumberForm) := do
  let sign ← sign
  let whole ← digits
  let fraction ← fraction
  let exponent ← exponent
  let form := if fraction.isEmpty && exponent.isEmpty then NumberForm.integer else .real
  return ((floatOfText? (String.ofList (sign ++ whole ++ fraction ++ exponent))).getD 0, form)

end Cursor

end Css2
