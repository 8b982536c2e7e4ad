import Css2.Proofs.Reader.Call

/-!
# What calls of a reader leave behind

A reader carries a place, notes, an activity and a count of open brackets from one call to the next.
Here are the three things that whoever calls it several times relies on, whatever was called before:

* A sheet is read to its end, or up to a statement that can be neither read nor skipped, and then
  the reader stands at the first token of that statement (`Reader.call_sheet`).
* A single construct that cannot be read is not touched, however deep inside of it the failure is
  (`Reader.call_failed`).
* A call does what a new reader would do with the tokens that are left (`Reader.call_fresh`).

That they hold of one call of a parser is short to see.  That they hold of a reader is what
`Reader.call_eq` and `Reader.calls_eq` are for.
-/

namespace Css2

/-! ### Sheets -/

theorem Parser.statements_ok {options : ParseOptions} {stop : Location} {phase : Phase}
    {ts : List Token} (h : (statements options stop phase ts).result = .ok ()) :
    (statements options stop phase ts).rest = [] ∧
      (statements options stop phase ts).diagnostics = [] := by
  fun_induction statements options stop phase ts with
  | case1 => exact ⟨rfl, rfl⟩
  | case2 _ _ _ _ _ _ _ _ _ _ _ _ ih => exact ih h
  | case3 _ _ _ _ _ _ _ _ _ _ _ _ _ _ _ ih => exact ih h
  | case4 => cases h
  | case5 => cases h

/-- A sheet is read to its end, or the next token is the first one of a statement that can be
neither read nor skipped. -/
theorem Parser.sheet_outcome (p : Parser) :
    p.sheet.result = .ok () ∧ p.sheet.parser.tokens = [] ∧ p.sheet.parser.diagnostics = [] ∨
      ∃ cause t tail events phase rest,
        p.sheet.result = .error (.unrecoverable cause t.loc) ∧
        p.sheet.parser.tokens = t :: tail ∧
        p.sheet.parser.diagnostics.getLast?
          = some (Diagnostic.ofError t.loc (.unrecoverable cause t.loc)) ∧
        Reaches p.options p.stop p.tokens events phase rest ∧ skipBetween rest = t :: tail ∧
        Stuck p.options phase (t :: tail) := by
  unfold sheet
  dsimp only
  cases hr : (statements p.options p.stop .start p.tokens).result with
  | ok _ => exact .inl ⟨rfl, statements_ok hr⟩
  | error error =>
    obtain ⟨events, phase, rest, t, tail, hreach, hs, hstuck⟩ := Reaches.stuck .start hr
    obtain ⟨cause, notes, hbroken⟩ := hstuck.statements_eq hs p.stop
    rw [hreach.statements_eq, hbroken] at hr ⊢
    refine .inr ⟨cause, t, tail, events, phase, rest, ?_, rfl, ?_, hreach, hs, hstuck⟩
    · exact hr.symm
    · exact List.getLast?_concat

namespace Reader

/-- **The outcome of a sheet.**  After any calls, a sheet is read to its end without a note, or the
error is that a statement is unrecoverable.  In that case the next token is the first one of that
statement, the error stands where this token does, and it is the last thing noted. -/
theorem call_sheet (source : TokenStream) (options : ParseOptions) (cs : List Call) :
    ∃ r result r', (ofStream source options).calls cs = some r ∧ r.call .sheet = some (result, r') ∧
      (result = .ok .done ∧ r'.unread = [] ∧ r'.diagnostics = [] ∨
        ∃ cause t tail events phase rest,
          result = .error (.unrecoverable cause t.loc) ∧
          r'.unread = t :: tail ∧ r'.source.location = t.loc ∧
          r'.diagnostics.getLast? = some (Diagnostic.ofError t.loc (.unrecoverable cause t.loc)) ∧
          Parser.Reaches options source.stop r.unread events phase rest ∧
          Parser.skipBetween rest = t :: tail ∧ Parser.Stuck options phase (t :: tail)) := by
  obtain ⟨r, hr, hk, -⟩ := calls_eq cs (ofStream source options) rfl
  obtain ⟨r', hr', hk', -, hp'⟩ := call_eq .sheet r hk.depth
  refine ⟨r, _, r', hr, hr', ?_⟩
  have htokens : r'.unread = r.parser.sheet.parser.tokens := congrArg Parser.tokens hp'
  have hdiagnostics : r'.diagnostics = r.parser.sheet.parser.diagnostics :=
    congrArg Parser.diagnostics hp'
  have houtcome := r.parser.sheet_outcome
  rw [show r.parser.options = options from hk.options,
    show r.parser.stop = source.stop from hk.stop, ← htokens, ← hdiagnostics] at houtcome
  rw [show (Call.sheet.outcome r.parser).result = r.parser.sheet.result.map fun _ => .done from rfl]
  rcases houtcome with ⟨hok, hrest, hnone⟩ |
    ⟨cause, t, tail, events, phase, rest, herror, hrest, hlast, hstuck⟩
  · rw [hok]
    exact .inl ⟨rfl, hrest, hnone⟩
  · rw [herror]
    refine .inr ⟨cause, t, tail, events, phase, rest, rfl, hrest, ?_, hlast, hstuck⟩
    rw [r'.source.location_eq, show r'.source.unread = t :: tail from hrest]
    rfl

end Reader

/-! ### Single constructs -/

def Call.isSingle : Call → Bool
  | statement | declaration | selector | value => true
  | _ => false

/-- What a call that reads a single construct passes over before it. -/
def Call.lead : Call → List Token → List Token
  | statement => Parser.skipBetween
  | _ => Grammar.skipTrivia

theorem Parser.construct_error {α : Type}
    {g : Nesting → List Token → Except Failure (α × List Token)} {p : Parser} {e : ParseError}
    (h : (p.construct g).result = .error e) :
    (p.construct g).parser.tokens = Grammar.skipTrivia p.tokens := by
  unfold construct at h ⊢
  dsimp only at h ⊢
  cases hr : g p.nesting (Grammar.skipTrivia p.tokens) with
  | ok x =>
    rw [hr] at h
    cases h
  | error e => rfl

theorem Parser.statement_error {p : Parser} {e : ParseError} (h : p.statement.result = .error e) :
    p.statement.parser.tokens = skipBetween p.tokens := by
  unfold statement at h ⊢
  dsimp only at h ⊢
  cases hr : (Grammar.tryStatement p.nesting .start (skipBetween p.tokens)).result with
  | ok rest =>
    rw [hr] at h
    cases h
  | error e => rfl

theorem Parser.Outcome.map_error {α β : Type} {f : α → β} {o : Parser.Outcome α} {e : ParseError}
    (h : (o.map f).result = .error e) : o.result = .error e := by
  unfold map at h
  cases hr : o.result with
  | ok a =>
    rw [hr] at h
    cases h
  | error e' =>
    rw [hr] at h
    exact congrArg Except.error (Except.error.inj h)

theorem Call.outcome_error {c : Call} (hc : c.isSingle = true) {p : Parser} {e : ParseError}
    (h : (c.outcome p).result = .error e) : (c.outcome p).parser.tokens = c.lead p.tokens := by
  cases c with
  | statement => exact Parser.statement_error (Parser.Outcome.map_error h)
  | declaration => exact Parser.construct_error (Parser.Outcome.map_error h)
  | selector => exact Parser.construct_error (Parser.Outcome.map_error h)
  | value => exact Parser.construct_error (Parser.Outcome.map_error h)
  | _ => cases hc

namespace Reader

/-- **A construct that cannot be read is not touched.**  After any calls, a call that reads a single
construct leaves the reader as deep as it was, and if it fails the reader stands in the same text
at the tokens of that construct. -/
theorem call_failed (source : TokenStream) (options : ParseOptions) (cs : List Call) {c : Call}
    (hc : c.isSingle = true) :
    ∃ r result r', (ofStream source options).calls cs = some r ∧ r.call c = some (result, r') ∧
      r'.depth = r.depth ∧ ∀ e, result = .error e →
        r'.source.tokens = r.source.tokens ∧ r'.source.unread = c.lead r.source.unread := by
  obtain ⟨r, hr, hk, -⟩ := calls_eq cs (ofStream source options) rfl
  obtain ⟨r', hr', hk', -, hp'⟩ := call_eq c r hk.depth
  refine ⟨r, _, r', hr, hr', hk'.depth, fun e he => ⟨hk'.tokens, ?_⟩⟩
  have htokens : r'.unread = (c.outcome r.parser).parser.tokens := congrArg Parser.tokens hp'
  exact htokens.trans (Call.outcome_error hc he)

/-- A declaration that fails two functions deep is left as it was, behind the comment before it and
the ruleset that was read before that. -/
theorem call_failed_inside :
    ∃ r e r',
      (ofStream (TokenStream.ofText "p\x7b\x7d /**/a:f(g(\x7b") {}).calls [.statement] = some r ∧
      r.call .declaration = some (.error e, r') ∧ e.location? = some ⟨1, 15, 14⟩ ∧
      r'.depth = r.depth ∧ r'.source.tokens = r.source.tokens ∧
      r'.source.unread = Grammar.skipTrivia r.source.unread := by
  obtain ⟨r, result, r', hr, hcall, hdepth, hfail⟩ :=
    call_failed (TokenStream.ofText "p\x7b\x7d /**/a:f(g(\x7b") {} [.statement]
      (c := .declaration) rfl
  have hresult := result_of_calls hr hcall
  rw [show (Call.outcome _ _).result
      = .error (.failed (.notATerm (.mark .openBrace)) ⟨1, 15, 14⟩) by with_unfolding_all rfl]
    at hresult
  obtain ⟨htokens, hunread⟩ := hfail _ hresult
  exact ⟨r, _, r', hr, hresult ▸ hcall, rfl, hdepth, htokens, hunread⟩

end Reader

/-! ### History -/

/-- The outcomes `o` and `o'` differ in nothing but the options and the activity at most. -/
structure Parser.Outcome.Same {α : Type} (o o' : Parser.Outcome α) : Prop where
  result : o.result = o'.result
  events : o.events = o'.events
  tokens : o.parser.tokens = o'.parser.tokens
  diagnostics : o.parser.diagnostics = o'.parser.diagnostics

theorem Parser.Outcome.Same.map {α β : Type} {o o' : Parser.Outcome α} (h : Same o o') (f : α → β) :
    Same (o.map f) (o'.map f) :=
  { h with result := congrArg (Except.map f) h.result }

section

variable {p q : Parser} (ho : q.options = p.options) (ht : q.tokens = p.tokens)
  (hs : q.stop = p.stop)

include ho ht hs

theorem Parser.construct_same {α : Type}
    (g : Nesting → List Token → Except Failure (α × List Token)) :
    (q.construct g).Same (p.construct g) := by
  unfold construct nesting
  rw [ho, ht, hs]
  dsimp only
  cases g ⟨p.options.maxNesting, 0⟩ (Grammar.skipTrivia p.tokens) <;> exact ⟨rfl, rfl, rfl, rfl⟩

theorem Parser.statement_same : q.statement.Same p.statement := by
  unfold statement nesting
  rw [ho, ht, hs]
  dsimp only
  cases (Grammar.tryStatement ⟨p.options.maxNesting, 0⟩ .start (skipBetween p.tokens)).result <;>
    exact ⟨rfl, rfl, rfl, rfl⟩

theorem Parser.sheet_same : q.sheet.Same p.sheet := by
  unfold sheet
  rw [ho, ht, hs]
  exact ⟨rfl, rfl, rfl, rfl⟩

theorem Call.outcome_same {c : Call} (hc : c ≠ .theEnd) : (c.outcome q).Same (c.outcome p) := by
  cases c with
  | sheet => exact (Parser.sheet_same ho ht hs).map _
  | statement => exact (Parser.statement_same ho ht hs).map _
  | declarationList =>
    unfold Call.outcome Parser.declarations Parser.nesting
    dsimp only
    rw [ho, ht, hs]
    exact ⟨rfl, rfl, rfl, rfl⟩
  | declaration => exact (Parser.construct_same ho ht hs _).map _
  | selector => exact (Parser.construct_same ho ht hs _).map _
  | value => exact (Parser.construct_same ho ht hs _).map _
  | theEnd => exact absurd rfl hc

end

namespace Reader

/-- **A reader does not depend on its history.**  After any calls, the next one gives the same
result, reports the same events, makes the same notes and leaves the same tokens as it would for a
new reader with the same options in front of the tokens that are left. -/
theorem call_fresh (source : TokenStream) (options : ParseOptions) (cs : List Call) {c : Call}
    (hc : c ≠ .theEnd) :
    ∃ r result r' s, (ofStream source options).calls cs = some r ∧
      r.call c = some (result, r') ∧
      (ofStream (TokenStream.ofTokens r.source.unread r.source.stop) options).call c
        = some (result, s) ∧
      r'.events = s.events ∧ r'.diagnostics = s.diagnostics ∧
      r'.source.unread = s.source.unread := by
  obtain ⟨r, hr, hk, -⟩ := calls_eq cs (ofStream source options) rfl
  obtain ⟨r', hr', -, he', hp'⟩ := call_eq c r hk.depth
  obtain ⟨s, hs, -, he, hp⟩ :=
    call_eq c (ofStream (TokenStream.ofTokens r.source.unread r.source.stop) options) rfl
  -- the two parsers differ in their activity and their old notes at most
  have hsame := Call.outcome_same (p := r.parser)
    (q := (ofStream (TokenStream.ofTokens r.source.unread r.source.stop) options).parser)
    hk.options.symm rfl rfl hc
  refine ⟨r, _, r', s, hr, hr', hsame.result ▸ hs, ?_, ?_, ?_⟩
  · rw [he', he, hsame.events]
  · have h' : r'.diagnostics = _ := congrArg Parser.diagnostics hp'
    have h : s.diagnostics = _ := congrArg Parser.diagnostics hp
    rw [h', h, hsame.diagnostics]
  · have h' : r'.source.unread = _ := congrArg Parser.tokens hp'
    have h : s.source.unread = _ := congrArg Parser.tokens hp
    rw [h', h, hsame.tokens]

/-- A selector is read as by a new reader, once a declaration could not be read and a ruleset could
be. -/
theorem call_fresh_selector :
    ∃ r r' s, (ofStream (TokenStream.ofText "p\x7b\x7d/**/q>r") {}).calls [.declaration, .statement]
        = some r ∧
      r.call .selector
        = some (.ok (.selector ⟨[⟨[⟨some "q", [], .first⟩, ⟨some "r", [], .child⟩]⟩]⟩), r') ∧
      (ofStream (TokenStream.ofTokens r.source.unread r.source.stop) {}).call .selector
        = some (.ok (.selector ⟨[⟨[⟨some "q", [], .first⟩, ⟨some "r", [], .child⟩]⟩]⟩), s) ∧
      r'.events = s.events ∧ r'.diagnostics = s.diagnostics ∧
      r'.source.unread = s.source.unread := by
  obtain ⟨r, result, r', s, hr, hcall, hfresh, hsame⟩ :=
    call_fresh (TokenStream.ofText "p\x7b\x7d/**/q>r") {} [.declaration, .statement]
      (c := .selector) (by decide)
  have hresult := result_of_calls hr hcall
  rw [show (Call.outcome _ _).result
      = .ok (.selector ⟨[⟨[⟨some "q", [], .first⟩, ⟨some "r", [], .child⟩]⟩]⟩) by
    with_unfolding_all rfl] at hresult
  subst hresult
  exact ⟨r, r', s, hr, hcall, hfresh, hsame⟩

end Reader

end Css2
