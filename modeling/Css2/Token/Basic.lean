import Css2.Decimal.Shortest
import Css2.Location

/-! # Tokens

The tokens of CSS 2.1 § 4.1.1.  A lexeme is what was written, with its escapes resolved, and a
token is a lexeme with the place where it starts.  Comments are kept as tokens, and together with
white space they make up the trivia that most productions skip.
-/

namespace Css2

/-- The marks of fixed spelling that the grammar is built from. -/
inductive Mark where
  /-- The mark `:` -/
  | colon
  /-- The mark `;` -/
  | semicolon
  /-- The mark `,` -/
  | comma
  | openBracket
  | closeBracket
  | openParen
  | closeParen
  | openBrace
  | closeBrace
  /-- The mark `~=` -/
  | includes
  /-- The mark `|=` -/
  | dashMatch
  /-- The mark `<!--` -/
  | openComment
  /-- The mark `-->` -/
  | closeComment
  deriving DecidableEq, Repr, Inhabited

def Mark.text : Mark → String
  | colon => ":"
  | semicolon => ";"
  | comma => ","
  | openBracket => "["
  | closeBracket => "]"
  | openParen => "("
  | closeParen => ")"
  | openBrace => "\x7b"
  | closeBrace => "\x7d"
  | includes => "~="
  | dashMatch => "|="
  | openComment => "<!--"
  | closeComment => "-->"

/-- Whether a number was written without a point and an exponent. -/
inductive NumberForm where
  | integer
  | real
  deriving DecidableEq, Repr, Inhabited

inductive Lexeme where
  | ident (name : String)
  /-- A name with an opening parenthesis right behind it. -/
  | function (name : String)
  /-- An at sign and a name. -/
  | atKeyword (name : String)
  /-- A number sign and a name; `isIdent` says whether the name could stand alone. -/
  | hash (name : String) (isIdent : Bool)
  | string (value : String)
  /-- A string that a line break cuts short. -/
  | badString
  /-- The address in an unquoted `url(...)`. -/
  | url (value : String)
  | badUrl
  /-- Any other single character. -/
  | delim (char : Char)
  | number (value : Float) (form : NumberForm)
  | percentage (value : Float)
  | dimension (value : Float) (form : NumberForm) (unit : String)
  /-- The part of a Unicode range behind `U+`. -/
  | unicodeRange (range : String)
  /-- An exclamation mark and `important`, with trivia in between. -/
  | important
  | whitespace
  | comment (text : String)
  | mark (m : Mark)
  deriving BEq, Repr, Inhabited

namespace Lexeme

def isTrivia : Lexeme → Bool
  | whitespace => true
  | comment _ => true
  | _ => false

/-- Whether the lexeme is the given single character. -/
def isDelim (c : Char) : Lexeme → Bool
  | delim d => d == c
  | _ => false

def isMark (m : Mark) : Lexeme → Bool
  | mark n => n == m
  | _ => false

def quoted (text : String) : String :=
  "\x27" ++ text ++ "\x27"

def describe : Lexeme → String
  | ident name => "ident " ++ quoted name
  | function name => "function " ++ quoted (name ++ "(")
  | atKeyword name => quoted ("@" ++ name)
  | hash name _ => quoted ("#" ++ name)
  | string value => "string \x22" ++ value ++ "\x22"
  | badString => "unterminated string"
  | url value => quoted ("url(" ++ value ++ ")")
  | badUrl => "malformed url"
  | delim c => quoted (String.singleton c)
  | number value _ => "number " ++ numberText value
  | percentage value => "percentage " ++ numberText value ++ "%"
  | dimension value _ unit => "dimension " ++ numberText value ++ unit
  | unicodeRange range => quoted ("U+" ++ range)
  | important => quoted "!important"
  | whitespace => "whitespace"
  | comment _ => "comment"
  | mark m => quoted m.text

end Lexeme

structure Token where
  lexeme : Lexeme
  loc : Location
  deriving BEq, Repr, Inhabited

end Css2
