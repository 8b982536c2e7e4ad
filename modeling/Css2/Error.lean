import Css2.Token.Basic

/-! # Errors

Why a text, or a request, was not accepted.  A `Cause` says what is wrong and a `Failure` adds the
token that it was found at; the productions of the grammar know no more than that.  A `ParseError`
is a failure with its place in the text, or the news that a statement could not even be skipped,
or that a token may not be pushed back.  The wording of all of them is in this file.
-/

namespace Css2

/-! ### Causes -/

inductive Expectation where
  | mark (m : Mark)
  | atKeyword (name : String)
  | charsetName
  | url
  | urlOrString
  | medium
  | pageSelector
  | combinator
  | selector
  | idName
  | className
  | attributeName
  | attributeTest
  | attributeValue
  | pseudoName
  | pseudoArgument
  | propertyName
  | declarationEnd
  deriving DecidableEq, Repr

open Lexeme (quoted) in
/-- What was looked for, as it is named in messages. -/
def Expectation.describe : Expectation → String
  | mark m => quoted m.text
  | atKeyword name => quoted ("@" ++ name)
  | charsetName => "a charset name"
  | url => "a url"
  | urlOrString => "a url or string"
  | medium => "a medium"
  | pageSelector => "a page selector"
  | combinator => "a combinator"
  | selector => "a selector"
  | idName => "an identifier after " ++ quoted "#"
  | className => "a class name"
  | attributeName => "an attribute name"
  | attributeTest =>
    quoted "=" ++ ", " ++ quoted "~=" ++ ", " ++ quoted "|=" ++ " or " ++ quoted "]"
  | attributeValue => "an identifier or string"
  | pseudoName => "a pseudo-class name"
  | pseudoArgument => "a pseudo-class argument"
  | propertyName => "a property name"
  | declarationEnd => quoted ";" ++ " or " ++ quoted "\x7d"

inductive Cause where
  /-- The text ends inside a production. -/
  | endOfInput
  | expected (what : Expectation) (found : Lexeme)
  /-- The token cannot be a term of a value. -/
  | notATerm (found : Lexeme)
  /-- A sign stands before something that is neither a number nor a function. -/
  | misplacedSign
  /-- The token cannot be part of any statement. -/
  | stray (found : Lexeme)
  /-- More blocks and brackets are open than the limit allows. -/
  | tooDeep (limit : Nat)
  | charsetNotFirst
  | importTooLate
  | unknownAtRule (name : String)
  /-- The token follows a complete construct. -/
  | leftover (found : Lexeme)
  deriving BEq, Repr

def Cause.message : Cause → String
  | endOfInput => "unexpected end of input"
  | expected what found => "expected " ++ what.describe ++ ", found " ++ found.describe
  | notATerm found => "unexpected " ++ found.describe ++ " in a value"
  | misplacedSign => "a sign may only precede a number or function"
  | stray found => "unexpected " ++ found.describe
  | tooDeep limit => "nesting deeper than " ++ toString limit ++ " levels"
  | charsetNotFirst => "@charset must be the first statement"
  | importTooLate => "@import must precede all rulesets"
  | unknownAtRule name => "unknown at-rule " ++ Lexeme.quoted ("@" ++ name)
  | leftover found => "unexpected " ++ found.describe ++ " after the end of the input"

/-- A cause and where the token stands that shows it; no place means the end of the text. -/
structure Failure where
  cause : Cause
  place : Option Location
  deriving BEq, Repr

/-! ### Errors with a place -/

inductive Refusal where
  /-- A token was pushed back already since the last one was read. -/
  | alreadyPushedBack
  /-- The token is not the one that was just read. -/
  | notJustRead
  deriving DecidableEq, Repr

def Refusal.message : Refusal → String
  | alreadyPushedBack => "only one token can be pushed back between reads"
  | notJustRead => "pushed back token is not the token just read"

inductive ErrorStatus where
  | badParameter
  | malformed
  | endOfInput
  | unrecoverable
  deriving DecidableEq, Repr

def ErrorStatus.text : ErrorStatus → String
  | badParameter => "bad parameter"
  | malformed => "syntax error"
  | endOfInput => "end of input"
  | unrecoverable => "unrecoverable"

inductive ParseError where
  | badParameter (why : Refusal)
  /-- The text does not match the production that was tried. -/
  | failed (cause : Cause) (loc : Location)
  /-- The statement that starts at `loc` could be neither read nor skipped. -/
  | unrecoverable (cause : Cause) (loc : Location)
  deriving BEq, Repr

namespace ParseError

def status : ParseError → ErrorStatus
  | badParameter _ => .badParameter
  | failed .endOfInput _ => .endOfInput
  | failed _ _ => .malformed
  | unrecoverable _ _ => .unrecoverable

def location? : ParseError → Option Location
  | badParameter _ => none
  | failed _ loc => some loc
  | unrecoverable _ loc => some loc

def message : ParseError → String
  | badParameter why => why.message
  | failed cause _ => cause.message
  | unrecoverable cause _ => cause.message

def text : ParseError → String
  | badParameter why => "bad parameter: " ++ why.message
  | failed .endOfInput loc => "unexpected end of input at " ++ loc.describe
  | failed cause loc => "syntax error at " ++ loc.describe ++ ": " ++ cause.message
  | unrecoverable cause loc =>
    "unrecoverable parse error at " ++ loc.describe ++ ": " ++ cause.message

end ParseError

/-- The error of a failure, in a text that ends at `stop`. -/
def Failure.toError (stop : Location) (f : Failure) : ParseError :=
  .failed f.cause (f.place.getD stop)

/-! ### Diagnostics -/

structure Diagnostic where
  message : String
  status : ErrorStatus
  loc : Location
  deriving DecidableEq, Repr

namespace Diagnostic

/-- The note on an error, which stands at `fallback` if the error has no place of its own. -/
def ofError (fallback : Location) (e : ParseError) : Diagnostic :=
  ⟨e.message, e.status, e.location?.getD fallback⟩

def text (d : Diagnostic) : String :=
  d.loc.describe ++ " (" ++ d.status.text ++ "): " ++ d.message

end Diagnostic

end Css2
