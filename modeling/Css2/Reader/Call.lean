import Css2.Parser
import Css2.Reader.Statement

/-! # The calls of a reader

What a reader may be asked to read: a sheet, a statement, a list of declarations, one declaration,
one selector, one value, or the end of the text.  One reader may be called many times, and goes on
from where the last call left it.  Each call begins with no notes, the check for the end apart, and
reports to a handler of its own.
-/

namespace Css2

namespace Reader

def ofStream (source : TokenStream) (options : ParseOptions) : Reader :=
  { source, options }

/-! ### Sheets -/

/-- Ends the sheet at the statement that starts at `start`, because `e` kept it from being
skipped. -/
def giveUp (e : ParseError) (start : TokenStream.Mark) : Production Unit := do
  let error := e.atStatement start.loc
  modify fun r => { r with
    diagnostics := r.diagnostics ++ [Diagnostic.ofError start.loc error] }
  emit (.unrecoverable error)
  throw error

/-- Reads a statement of a sheet, or skips it if it is malformed and the options say so. -/
def topLevelStatement (phase : Phase) : Production Unit := do
  let r ← get
  let start := r.source.mark
  match ← outcome (attempt (cssStatement phase)) with
  | .ok () => clearNotes
  | .error e =>
    if r.options.forwardCompatible then
      match ← outcome (attempt coreStatement) with
      | .ok () =>
        emit (.error e)
        clearNotes
        become .running
      | .error e' => giveUp e' start
    else giveUp e start

def statements (phase : Phase) : Production Unit := do
  skipBetween
  match ← peek with
  | none => return
  | some t =>
    topLevelStatement phase
    (· |>.statements (Parser.nextPhase phase (Grammar.keyword? [t])))
partial_fixpoint

def sheet : Production Unit := do
  clearNotes
  become .running
  emit .startDocument
  let result ← outcome (statements .start)
  emit .endDocument
  become .finished
  ofExcept result

/-! ### Single constructs -/

/-- Runs a production, and reports its failure if it fails. -/
def reported {α : Type} (p : Production α) : Production α := do
  let result ← outcome p
  if let .error e := result then emit (.error e)
  ofExcept result

/-- Reads one statement, as if it were the first of a sheet. -/
def statement : Production Unit := do
  clearNotes
  skipBetween
  reported (attempt (cssStatement .start))

/-- Reads declarations up to the end of the text, skipping those that are malformed. -/
def declarationList : Production (List Declaration) := do
  clearNotes
  become .running
  let result ← outcome (declarations false fun _ => pure ())
  become .finished
  ofExcept result

def construct {α : Type} (p : Production α) : Production α := do
  clearNotes
  let _ ← skipTrivia
  attempt p

def expectEnd : Production Unit := do
  let _ ← skipTrivia
  match ← peek with
  | none => return
  | some t => throw (.failed (.leftover t.lexeme) t.loc)

end Reader

/-! ### Calls -/

inductive Call where
  | sheet
  | statement
  | declarationList
  | declaration
  | selector
  | value
  /-- Only trivia may follow. -/
  | theEnd
  deriving DecidableEq, Repr

inductive Call.Answer where
  | done
  | declarations (ds : List Declaration)
  | declaration (d : Declaration)
  | selector (s : Selector)
  | value (v : List Term)

def Call.production : Call → Production Call.Answer
  | sheet => do Reader.sheet; return .done
  | statement => do Reader.statement; return .done
  | declarationList => do return .declarations (← Reader.declarationList)
  | declaration => do return .declaration (← Reader.construct Reader.declaration)
  | selector => do return .selector (← Reader.construct Reader.selector)
  | value => do return .value (← Reader.construct Reader.terms)
  | theEnd => do Reader.expectEnd; return .done

namespace Reader

/-- Calls a reader.  The events that it has afterwards are those of this call. -/
def call (c : Call) (r : Reader) : Option (Except ParseError Call.Answer × Reader) :=
  c.production { r with events := [] }

/-- Calls a reader several times, whatever the calls give back. -/
def calls (cs : List Call) (r : Reader) : Option Reader :=
  cs.foldlM (fun r c => (r.call c).map Prod.snd) r

end Reader

end Css2
