import Css2.Location

/-! # Tables of locations

Where the characters of a text stand, looked up by their number.  A table is made in one pass over
the text: it holds the number of the first character of every line and the place of every character
in UTF-8.  The line of a character is found by halving, in the numbers at which lines start.  Lines
and columns are numbers of 32 bits, and one that does not fit is the greatest of these.
-/

namespace Css2

/-- The first index up to `hi` at which an element does not have the property, provided that no
element with it comes later.  The indices before `lo` are known to have it. -/
def partitionFrom (p : Nat → Bool) (xs : Array Nat) (lo hi : Nat) : Nat :=
  if lo < hi then
    let mid := (lo + hi) / 2
    if xs[mid]?.any p then partitionFrom p xs (mid + 1) hi else partitionFrom p xs lo mid
  else lo
termination_by hi - lo

/-- How many elements have the property, if they all stand before those that do not. -/
def partitionPoint (p : Nat → Bool) (xs : Array Nat) : Nat :=
  partitionFrom p xs 0 xs.size

namespace Location

/-- The greatest number of 32 bits. -/
def greatest : Nat := 0xffffffff

/-- A number as one of 32 bits. -/
def fit (n : Nat) : Nat :=
  if n ≤ greatest then n else greatest

structure Table where
  /-- The characters at which the lines start. -/
  lineStarts : Array Nat
  /-- The bytes of UTF-8 before each character. -/
  offsets : Array Nat
  /-- The bytes of the whole text. -/
  size : Nat

namespace Table

/-- The characters behind the ends of lines; `i` is the number of the first character. -/
def linesFrom (i : Nat) : List Char → List Nat
  | [] => []
  | c :: cs =>
    if endsLine c cs.head? then (i + 1) :: linesFrom (i + 1) cs else linesFrom (i + 1) cs

/-- The bytes before each character; there are `n` before the first one. -/
def offsetsFrom (n : Nat) : List Char → List Nat
  | [] => []
  | c :: cs => n :: offsetsFrom (n + c.utf8Size) cs

def ofText (text : String) : Table where
  lineStarts := (0 :: linesFrom 0 text.toList).toArray
  offsets := (offsetsFrom 0 text.toList).toArray
  size := text.utf8ByteSize

def lineOf (t : Table) (i : Nat) : Nat :=
  partitionPoint (fun start => start ≤ i) t.lineStarts - 1

def lineStart (t : Table) (line : Nat) : Nat :=
  t.lineStarts[line]?.getD 0

/-- Where a character stands, or the end of the text. -/
def locate (t : Table) (i : Nat) : Location where
  line := fit (t.lineOf i + 1)
  column := fit (i - t.lineStart (t.lineOf i) + 1)
  offset := t.offsets[i]?.getD t.size

/-- The position behind the last character. -/
def endOf (t : Table) : Location :=
  t.locate t.offsets.size

end Table

end Location

end Css2
