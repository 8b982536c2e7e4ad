import Css2.Token.Scan
import Css2.Error

/-! # Token streams

A cursor over the tokens of a text, for readers that look ahead and go back.  One token may be
pushed back after each read, and only the token that was read; a mark remembers a place to return
to, however far away.
-/

namespace Css2

/-- The tokens of a text and how many of them have been read. -/
structure TokenStream where
  tokens : List Token
  /-- The number of tokens that have been read. -/
  cursor : Nat
  /-- Where the text ends. -/
  stop : Location
  /-- Whether a token was pushed back since the last read. -/
  pushedBack : Bool
  deriving Repr

namespace TokenStream

structure Mark where
  index : Nat
  loc : Location
  deriving DecidableEq, Repr

/-- A stream of tokens of which none has been read. -/
def ofTokens (tokens : List Token) (stop : Location) : TokenStream :=
  ⟨tokens, 0, stop, false⟩

def ofText (text : String) : TokenStream :=
  ofTokens (scan text) (endOf text)

def unread (s : TokenStream) : List Token :=
  s.tokens.drop s.cursor

def remaining (s : TokenStream) : Nat :=
  s.tokens.length - s.cursor

def peek (s : TokenStream) : Option Token :=
  s.tokens[s.cursor]?

def next (s : TokenStream) : Option Token × TokenStream :=
  match s.peek with
  | none => (none, s)
  | some t => (some t, { s with cursor := s.cursor + 1, pushedBack := false })

def lastRead (s : TokenStream) : Option Token :=
  match s.cursor with
  | 0 => none
  | n + 1 => s.tokens[n]?

def pushBack (s : TokenStream) (t : Token) : Except Refusal TokenStream :=
  if s.pushedBack then .error .alreadyPushedBack
  else if s.lastRead == some t then .ok { s with cursor := s.cursor - 1, pushedBack := true }
  else .error .notJustRead

/-- Where the next token starts, or where the text ends. -/
def location (s : TokenStream) : Location :=
  (s.peek.map Token.loc).getD s.stop

def mark (s : TokenStream) : Mark :=
  ⟨s.cursor, s.location⟩

/-- Returns to a remembered place; a place past the last token is the end. -/
def restore (s : TokenStream) (m : Mark) : TokenStream :=
  { s with cursor := min m.index s.tokens.length, pushedBack := false }

end TokenStream

end Css2
