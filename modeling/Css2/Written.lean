import Css2.Text

/-! # Written names and strings

How names and strings are written so that scanning them gives them back.  A character that cannot
stand in a name is written behind a backslash, or as its hexadecimal code and a blank: control
characters, which a backslash alone would not protect, and a digit where a name may not have one.
-/

namespace Css2

namespace Written

/-- A character as a backslash, its hexadecimal code, and the blank that ends the code. -/
def hexEscape (c : Char) : List Char :=
  '\\' :: (Nat.toDigits 16 c.toNat ++ [' '])

def nameChar (c : Char) : List Char :=
  if isNameChar c then [c]
  else if isControl c then hexEscape c
  else ['\\', c]

/-- The characters of a name behind a number sign, where any of them may come first. -/
def name (cs : List Char) : List Char :=
  cs.flatMap nameChar

def nameStart (c : Char) : List Char :=
  if c.isDigit then hexEscape c else nameChar c

def ident : List Char → List Char
  | ['-'] => ['\\', '-']
  | '-' :: c :: cs => '-' :: (nameStart c ++ name cs)
  | c :: cs => nameStart c ++ name cs
  | [] => []

/-- A unit behind a number, where `e` could be taken for an exponent. -/
def unit : List Char → List Char
  | c :: cs => if c = 'e' ∨ c = 'E' then hexEscape c ++ name cs else ident (c :: cs)
  | [] => []

def stringChar (c : Char) : List Char :=
  if c = '\x22' ∨ c = '\\' then ['\\', c]
  else if isNewline c then hexEscape c
  else [c]

def string (cs : List Char) : List Char :=
  '\x22' :: (cs.flatMap stringChar ++ ['\x22'])

end Written

def identText (name : String) : String :=
  String.ofList (Written.ident name.toList)

def hashText (name : String) : String :=
  String.ofList (Written.name name.toList)

def unitText (unit : String) : String :=
  String.ofList (Written.unit unit.toList)

def stringText (value : String) : String :=
  String.ofList (Written.string value.toList)

end Css2
