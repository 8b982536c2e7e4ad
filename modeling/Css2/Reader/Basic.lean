import Css2.Grammar.Statement
import Css2.Options.Basic
import Css2.Token.Stream

/-! # Readers

A reader works its way through a stream of tokens.  It takes tokens one by one, sets marks and goes
back to them, counts the blocks and brackets that it is inside of, reports what it has read, and
notes what it could not read.

A production is a step of a reader that reads one construct.  Unlike a function on lists of tokens
it has one state to work on: what it has changed stays changed when it fails, so whoever wants to
go on after a failure has to put things back.  `attempt` does so for the place in the stream, and
`nested` for the count of open brackets.  A production that goes on for ever has no result.

A production calls itself on the reader that it has come to, which is written `(· |>.p)`.  This is
the production `p`.  Written without the reader, the call would put its own place in the file into
the definition.
-/

namespace Css2

structure Reader where
  source : TokenStream
  options : ParseOptions := {}
  activity : Activity := .ready
  /-- Notes on what was skipped or could not be read. -/
  diagnostics : List Diagnostic := []
  /-- The number of blocks and brackets that the reader is inside of. -/
  depth : Nat := 0
  /-- The greatest depth so far.  No production looks at it. -/
  deepest : Nat := 0
  /-- What was reported. -/
  events : List Event := []

/-- A step of a reader, which gives a value or fails.  Either way the reader goes on from the state
that the step leaves behind. -/
abbrev Production (α : Type) := ExceptT ParseError (StateT Reader Option) α

/-- The error at the statement that starts at `loc`, where `e` kept it from being skipped.  The
refusal of a token that is pushed back has no such form. -/
def ParseError.atStatement (loc : Location) : ParseError → ParseError
  | failed cause _ => unrecoverable cause loc
  | unrecoverable cause _ => unrecoverable cause loc
  | badParameter why => badParameter why

namespace Reader

variable {α : Type}

/-! ### The state -/

/-- The reader at another depth.  The depth does not change in any other way, so that `deepest` has
seen each of them. -/
def atDepth (r : Reader) (depth : Nat) : Reader :=
  { r with depth, deepest := max r.deepest depth }

def peek : Production (Option Token) := do
  return (← get).source.peek

def bump : Production (Option Token) := do
  let r ← get
  let (t, source) := r.source.next
  set { r with source }
  return t

/-- Whether there is a next token and it is of a kind. -/
def nextIs (kind : Lexeme → Bool) : Production Bool := do
  return (← peek).any fun t => kind t.lexeme

def emit (e : Event) : Production Unit :=
  modify fun r => { r with events := r.events ++ [e] }

def become (a : Activity) : Production Unit :=
  modify fun r => { r with activity := a }

def clearNotes : Production Unit :=
  modify fun r => { r with diagnostics := [] }

/-! ### Failures -/

/-- Fails at the next token, or at the end of the text. -/
def failHere (cause : Cause) : Production α := do
  throw (.failed cause (← get).source.location)

/-- Fails because something else was wanted than the next token. -/
def unexpected (what : Expectation) : Production α := do
  match ← peek with
  | some t => throw (.failed (.expected what t.lexeme) t.loc)
  | none => failHere .endOfInput

/-- The result of a production, be it a value or a failure. -/
def outcome (p : Production α) : Production (Except ParseError α) :=
  (do return .ok (← p.run) : StateT Reader Option (Except ParseError (Except ParseError α)))

/-- Runs a production.  If it fails, the reader goes back to where it began, and notes the
failure. -/
def attempt (p : Production α) : Production α := do
  let mark := (← get).source.mark
  let result ← outcome p
  if let .error e := result then
    modify fun r => { r with
      source := r.source.restore mark
      diagnostics := r.diagnostics ++ [Diagnostic.ofError mark.loc e] }
  ofExcept result

/-- Runs a production one level deeper, if the limit allows.  The level is left again whether the
production succeeds or fails. -/
abbrev nested (p : Production α) : Production α :=
  (do
    let r ← get
    if r.options.maxNesting ≤ r.depth then
      return .error (.failed (.tooDeep r.options.maxNesting) r.source.location)
    set (r.atDepth (r.depth + 1))
    let result ← p.run
    modify fun r => r.atDepth (r.depth - 1)
    return result : StateT Reader Option (Except ParseError α))

/-! ### Trivia -/

/-- Drops white space and comments, and says whether there was white space among them. -/
def skipTrivia : Production Bool := do
  match ← peek with
  | none => return false
  | some t =>
    if t.lexeme.isTrivia then
      let _ ← bump
      let more ← (· |>.skipTrivia)
      return t.lexeme == .whitespace || more
    else return false
partial_fixpoint

def skipBetween : Production Unit := do
  match ← peek with
  | none => return
  | some t =>
    if t.lexeme.isTrivia || t.lexeme.isMark .openComment || t.lexeme.isMark .closeComment then
      let _ ← bump
      (· |>.skipBetween)
    else return
partial_fixpoint

/-! ### Single tokens -/

def expect (m : Mark) : Production Unit := do
  if ← nextIs (·.isMark m) then
    let _ ← bump
  else unexpected (.mark m)

def ident (what : Expectation) : Production String := do
  match ← peek with
  | some ⟨.ident name, _⟩ =>
    let _ ← bump
    return name
  | _ => unexpected what

def string (what : Expectation) : Production String := do
  match ← peek with
  | some ⟨.string value, _⟩ =>
    let _ ← bump
    return value
  | _ => unexpected what

def atKeyword (keyword : String) : Production Unit := do
  match ← peek with
  | some ⟨.atKeyword name, _⟩ =>
    if sameName name keyword then
      let _ ← bump
    else unexpected (.atKeyword keyword)
  | _ => unexpected (.atKeyword keyword)

end Reader

end Css2
