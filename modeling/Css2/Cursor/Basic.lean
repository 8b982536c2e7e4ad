import Css2.Text

/-! # Cursors

A cursor is a place in a text.  It takes the characters in front of it one by one, looks at what is
further ahead, and steps back over what it has taken.  `Scan` takes lists of characters apart; the
modules here do the same with a cursor that moves over one text.

A step of a cursor that goes on for ever has no result.  A step calls itself on the cursor that it
has come to, which is written `(· |>.s)` for the step `s`.
-/

namespace Css2

/-- A text, and how many of its characters are read. -/
structure Cursor where
  text : Array Char
  position : Nat := 0

abbrev Scanner (α : Type) := StateT Cursor Option α

namespace Cursor

/-- The cursor before the first character of a text. -/
def ofText (text : String) : Cursor :=
  { text := text.toList.toArray }

/-! ### Characters -/

/-- The character that is `n` places ahead, which stays unread. -/
def peekAt (n : Nat) : Scanner (Option Char) := do
  let s ← get
  return s.text[s.position + n]?

def peek : Scanner (Option Char) :=
  peekAt 0

def consume : Scanner (Option Char) := do
  let s ← get
  match s.text[s.position]? with
  | none => return none
  | some c =>
    set { s with position := s.position + 1 }
    return some c

def reconsume : Scanner Unit :=
  modify fun s => { s with position := s.position - 1 }

def moveTo (position : Nat) : Scanner Unit :=
  modify fun s => { s with position }

/-! ### Several characters -/

/-- Takes one character, whatever it is, to be put with others. -/
def one : Scanner (List Char) := do
  return (← consume).toList

/-- Takes at most `n` characters of the class `p`. -/
def upTo (p : Char → Bool) : Nat → Scanner (List Char)
  | 0 => return []
  | n + 1 => do
    if (← peek).any p then
      let c ← one
      return c ++ (← upTo p n)
    else return []

def digits : Scanner (List Char) := do
  if (← peek).any Char.isDigit then
    let c ← one
    let more ← (· |>.digits)
    return c ++ more
  else return []
partial_fixpoint

def skipBlanks : Scanner Unit := do
  if (← peek).any isBlank then
    let _ ← consume
    (· |>.skipBlanks)
  else return
partial_fixpoint

/-- How far ahead the first character is that is no white space, from the place `n` on. -/
def blanksAhead (n : Nat) : Scanner Nat := do
  if (← peekAt n).any isBlank then (· |>.blanksAhead (n + 1)) else return n
partial_fixpoint

end Cursor

end Css2
