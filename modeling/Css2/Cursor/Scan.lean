import Css2.Cursor.Part
import Css2.Location.Table

/-! # Scanning with a cursor

The next token is told by its first character, which is read before anything else.  Where it turns
out to belong to a number or to a name, the cursor steps back over it and takes the whole; where an
exclamation mark is not followed by `important`, it goes back over all the trivia that it has
skipped.  `tokenize` goes on until there are no more characters.
-/

namespace Css2

namespace Cursor

/-! ### Lexemes of several parts -/

/-- A number with the unit or the percent sign behind it. -/
def numeric : Scanner Lexeme := do
  let (value, form) ← number
  if ← startsName then
    let unit ← name
    return .dimension value form (String.ofList unit)
  else if (← peek) = some '%' then
    let _ ← consume
    return .percentage value
  else return .number value form

/-- A name, with an address or an opening parenthesis behind it.  `url(` before a quoted string is
a function like any other. -/
def named : Scanner Lexeme := do
  let text := String.ofList (← name)
  if sameName text "url" && (← peek) = some '(' then
    let _ ← consume
    let ahead ← blanksAhead 0
    if (← peekAt ahead).any fun c => c = '\x22' || c = '\x27' then return .function text
    else
      match ← url with
      | some value => return .url (String.ofList value)
      | none => return .badUrl
  else if (← peek) = some '(' then
    let _ ← consume
    return .function text
  else return .ident text

def skipTrivia : Scanner Unit := do
  if (← peek).any isBlank then
    skipBlanks
    (· |>.skipTrivia)
  else if (← peek) = some '/' && (← peekAt 1) = some '*' then
    let _ ← consume
    let _ ← consume
    let _ ← comment
    (· |>.skipTrivia)
  else return
partial_fixpoint

/-- `important` behind trivia.  If there is something else then nothing is read. -/
def important : Scanner Lexeme := do
  let start := (← get).position
  skipTrivia
  if ← startsName then
    let word ← name
    if sameName (String.ofList word) "important" then return .important
  moveTo start
  return .delim '!'

/-- Whether `+` and a first digit of a Unicode range come next. -/
def startsUnicodeRange : Scanner Bool := do
  return (← peek) = some '+' && (← peekAt 1).any Scan.isRangeChar

def unicodeRange : Scanner Lexeme := do
  let _ ← consume
  let first ← upTo Scan.isRangeChar 6
  if !first.contains '?' && (← peek) = some '-' && (← peekAt 1).any isHexDigit then
    let hyphen ← one
    let second ← upTo isHexDigit 6
    return .unicodeRange (String.ofList (first ++ hyphen ++ second))
  else return .unicodeRange (String.ofList first)

/-- What a number sign begins: a hash, if a character of a name follows. -/
def hash : Scanner Lexeme := do
  if (← peek).any isNameChar || opensEscape (← peek) (← peekAt 1) then
    let isIdent ← startsName
    let value ← name
    return .hash (String.ofList value) isIdent
  else return .delim '#'

/-- What a quote begins: a string, if it is closed or the text ends in it. -/
def quoted (quote : Char) : Scanner Lexeme := do
  match ← string quote with
  | some value => return .string (String.ofList value)
  | none => return .badString

/-! ### Tokens -/

/-- What a character begins that is read already: a number or a name if it is one of theirs, and
itself otherwise. -/
def plain (c : Char) : Scanner Lexeme := do
  if c.isDigit then
    reconsume
    numeric
  else if isNameStart c then
    reconsume
    named
  else return .delim c

/-- The lexeme that begins with the character `c`, which is read already. -/
def lexeme (c : Char) : Scanner Lexeme := do
  if isBlank c then
    skipBlanks
    return .whitespace
  else match c with
    | '\x22' | '\x27' => quoted c
    | '#' => hash
    | '(' => return .mark .openParen
    | ')' => return .mark .closeParen
    | '+' | '.' =>
      if ← startsNumber c then
        reconsume
        numeric
      else return .delim c
    | ',' => return .mark .comma
    | '-' =>
      if ← startsNumber '-' then
        reconsume
        numeric
      else if (← peek) = some '-' && (← peekAt 1) = some '>' then
        let _ ← consume
        let _ ← consume
        return .mark .closeComment
      else if opensName (some '-') (← peek) (← peekAt 1) then
        reconsume
        named
      else return .delim '-'
    | '/' =>
      if (← peek) = some '*' then
        let _ ← consume
        return .comment (String.ofList (← comment))
      else plain '/'
    | ':' => return .mark .colon
    | ';' => return .mark .semicolon
    | '<' =>
      if (← peek) = some '!' && (← peekAt 1) = some '-' && (← peekAt 2) = some '-' then
        let _ ← consume
        let _ ← consume
        let _ ← consume
        return .mark .openComment
      else return .delim '<'
    | '@' =>
      if ← startsName then
        return .atKeyword (String.ofList (← name))
      else return .delim '@'
    | '[' => return .mark .openBracket
    | ']' => return .mark .closeBracket
    | '\x7b' => return .mark .openBrace
    | '\x7d' => return .mark .closeBrace
    | '\\' =>
      if opensEscape (some '\\') (← peek) then
        reconsume
        named
      else return .delim '\\'
    | '~' =>
      if (← peek) = some '=' then
        let _ ← consume
        return .mark .includes
      else plain '~'
    | '|' =>
      if (← peek) = some '=' then
        let _ ← consume
        return .mark .dashMatch
      else plain '|'
    | '!' => important
    | 'u' | 'U' =>
      if ← startsUnicodeRange then unicodeRange else plain c
    | c => plain c

/-- Takes the next token; there is none at the end of the text. -/
def next? : Scanner (Option Lexeme) := do
  match ← consume with
  | none => return none
  | some c => return some (← lexeme c)

/-- Takes all tokens that there are, each with the place where it begins. -/
def tokens (table : Location.Table) : Scanner (List Token) := do
  let start := (← get).position
  match ← next? with
  | none => return []
  | some l =>
    let more ← (· |>.tokens table)
    return ⟨l, table.locate start⟩ :: more
partial_fixpoint

end Cursor

/-- The tokens of a text, and the cursor behind them.  There are none if the scanner goes on for
ever. -/
def tokenize (text : String) : Option (List Token × Cursor) :=
  Cursor.tokens (.ofText text) (.ofText text)

end Css2
