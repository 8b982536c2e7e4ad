import Css2.Grammar.Statement
import Css2.Options.Basic
import Css2.Sheet.Builder
import Css2.Token.Scan

/-! # The parser

A parser holds the tokens of a text that are still to be read.  Each of its operations reads one
construct and gives back the result, the events, and the parser that goes on from there.  An
operation that fails leaves the tokens where the construct begins.  Nothing but the tokens is
carried from one operation to the next: the diagnostics are those of the last one.
-/

namespace Css2

structure Parser where
  options : ParseOptions := {}
  /-- The tokens still to be read. -/
  tokens : List Token
  /-- Where the text ends. -/
  stop : Location
  activity : Activity := .ready
  /-- Notes on what was skipped or could not be read. -/
  diagnostics : List Diagnostic := []

structure Parser.Outcome (α : Type) where
  result : Except ParseError α
  events : List Event := []
  parser : Parser

namespace Parser

/-- A parser for tokens of a text that ends at `stop`. -/
def ofTokens (tokens : List Token) (stop : Location) (options : ParseOptions) : Parser :=
  { options := options, tokens := tokens, stop := stop }

def ofText (text : String) (options : ParseOptions) : Parser :=
  ofTokens (scan text) (endOf text) options

/-- The nesting that a construct at the top starts with. -/
def nesting (p : Parser) : Nesting :=
  ⟨p.options.maxNesting, 0⟩

/-- Where the next token starts, or where the text ends. -/
def location (p : Parser) : Location :=
  (Grammar.place p.tokens).getD p.stop

/-- The note on a failure, in a text that ends at `stop`. -/
def note (stop : Location) (e : Failure) : Diagnostic :=
  Diagnostic.ofError stop (e.toError stop)

/-! ### Single constructs -/

def construct {α : Type} (read : Nesting → List Token → Except Failure (α × List Token))
    (p : Parser) : Outcome α :=
  let ts := Grammar.skipTrivia p.tokens
  match read p.nesting ts with
  | .ok (value, rest) =>
    { result := .ok value, parser := { p with tokens := rest, diagnostics := [] } }
  | .error e =>
    { result := .error (e.toError p.stop)
      parser := { p with tokens := ts, diagnostics := [note p.stop e] } }

def declaration (p : Parser) : Outcome Declaration :=
  p.construct Grammar.declaration

def selector (p : Parser) : Outcome Selector :=
  p.construct fun _ => Grammar.selector

def value (p : Parser) : Outcome (List Term) :=
  p.construct Grammar.terms

/-- Reads declarations up to the end of the text, skipping those that are malformed. -/
def declarations (p : Parser) : List Declaration × Parser :=
  let r := Grammar.declarations p.nesting false p.tokens
  (r.value, { p with
    tokens := r.rest
    activity := .finished
    diagnostics := r.skipped.map (note p.stop) })

def expectEnd (p : Parser) : Except ParseError Unit × Parser :=
  let ts := Grammar.skipTrivia p.tokens
  let rest := { p with tokens := ts }
  match ts with
  | [] => (.ok (), rest)
  | t :: _ => (.error (.failed (.leftover t.lexeme) t.loc), rest)

/-! ### Statements -/

/-- Drops what may stand between statements: trivia and the marks of a comment in the text
around the sheet. -/
def skipBetween (ts : List Token) : List Token :=
  ts.dropWhile fun t =>
    t.lexeme.isTrivia || t.lexeme.isMark .openComment || t.lexeme.isMark .closeComment

theorem skipBetween_le (ts : List Token) : (skipBetween ts).length ≤ ts.length :=
  (List.dropWhile_sublist _).length_le

/-- Reads one statement, as if it were the first of a sheet. -/
def statement (p : Parser) : Outcome Unit :=
  let ts := skipBetween p.tokens
  let a := Grammar.tryStatement p.nesting .start ts
  let activity := a.activity.getD p.activity
  let skipped := a.skipped.map (note p.stop)
  match a.result with
  | .ok rest =>
    { result := .ok (), events := a.events
      parser := { p with tokens := rest, activity, diagnostics := skipped } }
  | .error e =>
    let error := e.toError p.stop
    { result := .error error, events := a.events ++ [.error error]
      parser := { p with
        tokens := ts, activity, diagnostics := skipped ++ [note p.stop e] } }

/-! ### Sheets -/

def nextPhase (phase : Phase) (keyword : Option String) : Phase :=
  match phase, keyword with
  | .body, _ => .body
  | _, some "charset" => .imports
  | _, some "import" => .imports
  | _, _ => .body

structure Statements where
  events : List Event
  /-- The error at the statement that could be neither read nor skipped. -/
  result : Except ParseError Unit
  /-- The notes on that statement. -/
  diagnostics : List Diagnostic
  rest : List Token

def Statements.after (events : List Event) (s : Statements) : Statements :=
  { s with events := events ++ s.events }

/-- The end of a sheet at a statement that can be neither read nor skipped. -/
def Statements.broken (events : List Event) (diagnostics : List Diagnostic) (cause : Cause)
    (loc : Location) (rest : List Token) : Statements :=
  let error := ParseError.unrecoverable cause loc
  { events := events ++ [.unrecoverable error]
    result := .error error
    diagnostics := diagnostics ++ [Diagnostic.ofError loc error]
    rest }

/-- Reads the statements of a sheet, skipping those that are malformed if the options say so. -/
def statements (options : ParseOptions) (stop : Location) (phase : Phase) (ts : List Token) :
    Statements :=
  match _hs : skipBetween ts with
  | [] => ⟨[], .ok (), [], []⟩
  | t :: rest =>
    let n : Nesting := ⟨options.maxNesting, 0⟩
    let phase' := nextPhase phase (Grammar.keyword? (t :: rest))
    match _ha : Grammar.tryStatement n phase (t :: rest) with
    | ⟨.ok after, events, _, _⟩ => (statements options stop phase' after).after events
    | ⟨.error e, events, skipped, _⟩ =>
      let notes := (skipped ++ [e]).map (note stop)
      if options.forwardCompatible then
        match _hk : Grammar.skipStatement n (t :: rest) with
        | .ok after =>
          (statements options stop phase' after).after (events ++ [.error (e.toError stop)])
        | .error e' =>
          Statements.broken events (notes ++ [note stop e']) e'.cause t.loc (t :: rest)
      else Statements.broken events notes e.cause t.loc (t :: rest)
termination_by ts.length
decreasing_by
  all_goals
    have hle := skipBetween_le ts
    rw [_hs] at hle
  · have hr : (Grammar.tryStatement n phase (t :: rest)).result = .ok after := by rw [_ha]
    exact Nat.lt_of_lt_of_le (Grammar.tryStatement_lt hr) hle
  · exact Nat.lt_of_lt_of_le (Grammar.skipStatement_lt _hk) hle

/-- The statements of a sheet, as an equation. -/
theorem statements_eq (options : ParseOptions) (stop : Location) (phase : Phase)
    (ts : List Token) :
    statements options stop phase ts = (match skipBetween ts with
      | [] => ⟨[], .ok (), [], []⟩
      | t :: rest =>
        let n : Nesting := ⟨options.maxNesting, 0⟩
        let phase' := nextPhase phase (Grammar.keyword? (t :: rest))
        let a := Grammar.tryStatement n phase (t :: rest)
        match a.result with
        | .ok after => (statements options stop phase' after).after a.events
        | .error e =>
          let notes := (a.skipped ++ [e]).map (note stop)
          if options.forwardCompatible then
            match Grammar.skipStatement n (t :: rest) with
            | .ok after =>
              (statements options stop phase' after).after (a.events ++ [.error (e.toError stop)])
            | .error e' =>
              Statements.broken a.events (notes ++ [note stop e']) e'.cause t.loc (t :: rest)
          else Statements.broken a.events notes e.cause t.loc (t :: rest)) := by
  rw [statements]
  split
  · next h => rw [h]
  · next t rest h =>
    rw [h]
    dsimp only
    split
    · next ha => rw [ha]
    · next ha =>
      rw [ha]
      dsimp only
      split
      · split <;> (next h' => rw [h'])
      · rfl

def sheet (p : Parser) : Outcome Unit :=
  let s := statements p.options p.stop .start p.tokens
  { result := s.result
    events := .startDocument :: (s.events ++ [.endDocument])
    parser := { p with
      tokens := s.rest, activity := .finished, diagnostics := s.diagnostics } }

end Parser

/-! ### Whole texts -/

/-- A sheet that ends at a statement that can be neither read nor skipped. -/
structure BrokenSheet where
  error : ParseError
  /-- The statements before that one. -/
  built : Sheet

/-- Reads a sheet from the tokens of a text that ends at `stop`. -/
def Sheet.parseTokens (options : ParseOptions) (tokens : List Token) (stop : Location) :
    Except BrokenSheet Sheet :=
  let r := (Parser.ofTokens tokens stop options).sheet
  let built := Sheet.ofEvents r.events
  match r.result with
  | .ok () => .ok built
  | .error error => .error ⟨error, built⟩

def Sheet.parseWith (options : ParseOptions) (text : String) : Except BrokenSheet Sheet :=
  Sheet.parseTokens options (scan text) (endOf text)

def Sheet.parse (text : String) : Except BrokenSheet Sheet :=
  Sheet.parseWith {} text

/-- Reads the declarations of a style attribute.  Malformed ones are left out. -/
def Declaration.parseList (text : String) : List Declaration :=
  (Parser.ofText text {}).declarations.1

/-- Reads exactly one declaration, which may have a semicolon behind it. -/
def Declaration.parse (text : String) : Except ParseError Declaration := do
  let r := (Parser.ofText text {}).declaration
  let d ← r.result
  let p := r.parser
  let rest := match Grammar.expect .semicolon p.tokens with
    | .ok rest => rest
    | .error _ => p.tokens
  ({ p with tokens := rest } : Parser).expectEnd.1
  pure d

def Selector.parse (text : String) : Except ParseError Selector := do
  let r := (Parser.ofText text {}).selector
  let s ← r.result
  r.parser.expectEnd.1
  pure s

def parseValue (text : String) : Except ParseError (List Term) := do
  let r := (Parser.ofText text {}).value
  let v ← r.result
  r.parser.expectEnd.1
  pure v

end Css2
