/-! # Characters and words

The character classes of CSS 2.1 § 4.1, and what a document calls a list of words.  Names compare
without regard to the case of ASCII letters, so folding is `String.toLower`, which leaves every
other character alone.  Only these facts about text are shared by the scanner, the printer, the
selectors and the properties.
-/

namespace Css2

/-! ### Classes of characters -/

/-- The characters that end a line: line feed, carriage return and form feed. -/
def isNewline (c : Char) : Bool :=
  c = '\n' || c = '\r' || c = '\x0c'

/-- The white space of a style sheet, which is also what separates the words of an attribute. -/
def isBlank (c : Char) : Bool :=
  c = ' ' || c = '\t' || isNewline c

/-- Characters outside ASCII count as letters in names. -/
def isNonAscii (c : Char) : Bool :=
  0x80 ≤ c.toNat

/-- A character that may open a name: a letter, an underscore, or anything outside ASCII. -/
def isNameStart (c : Char) : Bool :=
  c.isAlpha || c = '_' || isNonAscii c

def isNameChar (c : Char) : Bool :=
  isNameStart c || c.isDigit || c = '-'

def hexValue? (c : Char) : Option Nat :=
  if c.isDigit then some (c.toNat - '0'.toNat)
  else if 'a' ≤ c ∧ c ≤ 'f' then some (c.toNat - 'a'.toNat + 10)
  else if 'A' ≤ c ∧ c ≤ 'F' then some (c.toNat - 'A'.toNat + 10)
  else none

/-- A digit or one of the letters `a` to `f` in either case. -/
def isHexDigit (c : Char) : Bool :=
  (hexValue? c).isSome

def isControl (c : Char) : Bool :=
  c.toNat < 0x20 || (0x7f ≤ c.toNat && c.toNat < 0xa0)

/-- The characters with the Unicode property `White_Space`. -/
def isSpacing (c : Char) : Bool :=
  let n := c.toNat
  (0x09 ≤ n && n ≤ 0x0d) || n = 0x20 || n = 0x85 || n = 0xa0 || n = 0x1680
    || (0x2000 ≤ n && n ≤ 0x200a) || n = 0x2028 || n = 0x2029 || n = 0x202f
    || n = 0x205f || n = 0x3000

/-! ### Names -/

/-- Two names are the same when they differ at most in the case of ASCII letters. -/
def sameName (a b : String) : Bool :=
  a.toLower == b.toLower

/-! ### Words -/

/-- Splits a text at its white space.  `word` holds the characters of the word being read, last
first. -/
def wordsFrom (word : List Char) : List Char → List (List Char)
  | [] => if word.isEmpty then [] else [word.reverse]
  | c :: cs =>
    if isBlank c then
      if word.isEmpty then wordsFrom [] cs else word.reverse :: wordsFrom [] cs
    else wordsFrom (c :: word) cs

/-- The words of a text: its longest parts without white space, in order. -/
def words (text : String) : List String :=
  (wordsFrom [] text.toList).map String.ofList

def beginsWith (start text : String) : Bool :=
  start.toList.isPrefixOf text.toList

end Css2
