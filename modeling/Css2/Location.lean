import Css2.Text

/-! # Locations

Where a character stands in a text: its line and column, counted in characters from one, and the
number of bytes of UTF-8 before it.  A line ends after a line feed, after a form feed, and after a
carriage return that no line feed follows, so that the pair of both ends one line.
-/

namespace Css2

structure Location where
  /-- The line, from one. -/
  line : Nat
  /-- The column in characters, from one. -/
  column : Nat
  /-- The bytes of UTF-8 before the position. -/
  offset : Nat
  deriving DecidableEq, Repr, Inhabited

namespace Location

def start : Location := ⟨1, 1, 0⟩

/-- Whether a line ends after `c` when `next` follows it. -/
def endsLine (c : Char) (next : Option Char) : Bool :=
  c = '\n' || c = '\x0c' || (c = '\r' && next != some '\n')

/-- The position after the character `c`, when `next` follows it. -/
def step (loc : Location) (c : Char) (next : Option Char) : Location :=
  if endsLine c next then ⟨loc.line + 1, 1, loc.offset + c.utf8Size⟩
  else ⟨loc.line, loc.column + 1, loc.offset + c.utf8Size⟩

/-- The position `n` characters further, or at the end of the text if it is shorter. -/
def walk (loc : Location) : List Char → Nat → Location
  | [], _ => loc
  | _, 0 => loc
  | c :: cs, n + 1 => (loc.step c cs.head?).walk cs n

/-- The position of the `i`-th character of a text, from zero. -/
def ofIndex (text : List Char) (i : Nat) : Location :=
  start.walk text i

/-- The position after the last character of a text. -/
def ofEnd (text : List Char) : Location :=
  ofIndex text text.length

def describe (loc : Location) : String :=
  "line " ++ toString loc.line ++ ", column " ++ toString loc.column

end Location

end Css2
