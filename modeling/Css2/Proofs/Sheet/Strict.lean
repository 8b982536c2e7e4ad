import Css2.Proofs.Sheet.Account

/-!
# Parsing without skipping

The options say whether a malformed statement is skipped or ends the parse.  The choice makes no
difference before the first malformed statement: what the loop reaches without skipping it reaches
with it too, by the same events (`Parser.Reaches.lenient`), and these are the events of whole
statements (`Parser.Reaches.exists_statements`).

So a sheet that is read without skipping is read with it, and nothing is reported as an error.
Where a parse without skipping ends, the other one reports an error too
(`Parser.statements_rejected`), and it may go on.  What it builds behind that point is added to what
was built before (`Builder.prefix_run`).
-/

namespace Css2

namespace ParseOptions

/-- The same options, but malformed statements are skipped. -/
def lenient (options : ParseOptions) : ParseOptions :=
  { options with forwardCompatible := true }

/-- The same options, but a malformed statement ends the parse. -/
def strict (options : ParseOptions) : ParseOptions :=
  { options with forwardCompatible := false }

end ParseOptions

/-! ### Statements that are read -/

namespace Statement

theorem error_not_mem_events (s : Statement) (e : ParseError) : Event.error e ∉ s.events := by
  cases s <;> simp [events, Ruleset.events]

end Statement

/-- **A statement that is read is reported as a whole.** -/
theorem Grammar.exists_statement {n : Nesting} {phase : Phase} {ts rest : List Token}
    (h : (tryStatement n phase ts).result = .ok rest) :
    ∃ s : Statement, (tryStatement n phase ts).events = s.events := by
  cases Protocol.ends_tryStatement n phase ts with
  | statement s _ hevents => exact ⟨s, hevents⟩
  | nothing hresult _ =>
    rw [hresult] at h
    cases h
  | media _ _ hresult _ =>
    rw [hresult] at h
    cases h

/-! ### What is built stays -/

namespace Builder

theorem prefix_push (b : Builder) (s : Statement) :
    b.sheet.statements <+: (b.push s).sheet.statements :=
  List.prefix_append _ _

theorem prefix_addRuleset (b : Builder) (r : Ruleset) :
    b.sheet.statements <+: (b.addRuleset r).sheet.statements := by
  rw [addRuleset]
  split
  · exact List.prefix_rfl
  · exact b.prefix_push _

theorem prefix_step (b : Builder) (e : Event) :
    b.sheet.statements <+: (b.step e).sheet.statements := by
  cases e with
  | charset name => exact b.prefix_push _
  | importSheet names url => exact b.prefix_push _
  | property d =>
    simp only [step]
    split <;> exact List.prefix_rfl
  | endSelector =>
    simp only [step]
    split
    · exact prefix_addRuleset { b with current := none } _
    · exact List.prefix_rfl
  | endMedia =>
    simp only [step]
    split
    · exact prefix_push _ _
    · exact List.prefix_rfl
  | endPage =>
    simp only [step]
    split
    · exact prefix_push _ _
    · exact List.prefix_rfl
  | endFontFace =>
    simp only [step]
    split
    · exact prefix_push _ _
    · exact List.prefix_rfl
  | _ => exact List.prefix_rfl

/-- **What is built stays at the front of the sheet**, whatever is received later. -/
theorem prefix_run (b : Builder) (es : List Event) :
    b.sheet.statements <+: (b.run es).sheet.statements := by
  induction es generalizing b with
  | nil => exact List.prefix_rfl
  | cons e es ih => exact (b.prefix_step e).trans (ih (b.step e))

end Builder

/-! ### The turns without skipping -/

namespace Parser

variable {options : ParseOptions} {stop : Location} {ts rest : List Token} {events : List Event}
  {phase : Phase}

/-- **What the loop reaches without skipping it reaches with it**, by the same events. -/
theorem Reaches.lenient (h : Reaches options.strict stop ts events phase rest) :
    Reaches options.lenient stop ts events phase rest := by
  induction h with
  | start => exact .start
  | read _ hs hr ih => exact .read ih hs hr
  | skipped _ _ _ hf => cases hf

theorem Reaches.exists_statements (h : Reaches options.strict stop ts events phase rest) :
    ∃ ss : List Statement, events = ss.flatMap Statement.events := by
  induction h with
  | start => exact ⟨[], rfl⟩
  | read _ _ hr ih =>
    obtain ⟨ss, rfl⟩ := ih
    obtain ⟨s, hs⟩ := Grammar.exists_statement hr
    refine ⟨ss ++ [s], ?_⟩
    rw [hs, List.flatMap_append, List.flatMap_singleton]
  | skipped _ _ _ hf => cases hf

/-- **Where a sheet ends well, the loop reaches the end of the text.** -/
theorem Reaches.ended (h : Reaches options stop ts events phase rest)
    (hok : (statements options stop phase rest).result = .ok ()) :
    ∃ all phase' rest', Reaches options stop ts all phase' rest' ∧ skipBetween rest' = [] := by
  fun_induction statements options stop phase rest generalizing events
  · next phase rest hs => exact ⟨events, phase, rest, h, hs⟩
  · next phase rest t tail hs n phase' after es skipped activity ha ih =>
    exact ih (h.read hs (by rw [ha])) hok
  · next phase rest t tail hs n phase' e es skipped activity ha hf after hk ih =>
    exact ih (h.skipped hs (by rw [ha]) hf hk) hok
  · cases hok
  · cases hok

/-- A loop that reaches the end of the text has reported all its events by then. -/
theorem Reaches.statements_of_ended (h : Reaches options stop ts events phase rest)
    (hs : skipBetween rest = []) :
    statements options stop .start ts = ⟨events, .ok (), [], []⟩ := by
  rw [h.statements_eq, Parser.statements_eq, hs]
  rw [Statements.after]
  simp

/-- **A statement that cannot be read is reported**, whether it is skipped or not. -/
theorem statements_rejected {tail : List Token} {t : Token} {e : Failure}
    (hs : skipBetween rest = t :: tail)
    (hr : (Grammar.tryStatement ⟨options.maxNesting, 0⟩ phase (t :: tail)).result = .error e) :
    ∃ error, Event.error error ∈ (statements options stop phase rest).events ∨
      Event.unrecoverable error ∈ (statements options stop phase rest).events := by
  rw [Parser.statements_eq, hs]
  dsimp only
  rw [hr]
  dsimp only
  split
  · split
    · exact ⟨e.toError stop, .inl (by simp [Statements.after])⟩
    · next e' _ => exact ⟨.unrecoverable e'.cause t.loc, .inr (by simp [Statements.broken])⟩
  · exact ⟨.unrecoverable e.cause t.loc, .inr (by simp [Statements.broken])⟩

/-- **A sheet that is read without skipping is read with it**, and all its events are those of whole
statements. -/
theorem statements_of_strict (h : (statements options.strict stop .start ts).result = .ok ()) :
    statements options.lenient stop .start ts = statements options.strict stop .start ts ∧
      ∃ ss : List Statement,
        (statements options.strict stop .start ts).events = ss.flatMap Statement.events := by
  obtain ⟨events, phase, rest, hreach, hs⟩ := Reaches.ended .start h
  obtain ⟨ss, rfl⟩ := hreach.exists_statements
  rw [hreach.statements_of_ended hs, hreach.lenient.statements_of_ended hs]
  exact ⟨rfl, ss, rfl⟩

/-- **Both parses report the same before the statement that cannot be read.**  One of them gives it
up and ends.  The other one reports an error too, there or later. -/
theorem statements_of_strict_error {error : ParseError}
    (h : (statements options.strict stop .start ts).result = .error error) :
    ∃ before fs more cause,
      (statements options.strict stop .start ts).events
        = before ++ (fs ++ [.unrecoverable cause]) ∧ Protocol.Abandoned fs ∧
      (statements options.lenient stop .start ts).events = before ++ more ∧
      ∃ e, Event.error e ∈ more ∨ Event.unrecoverable e ∈ more := by
  obtain ⟨before, phase, rest, t, tail, hreach, hs, hstuck⟩ := Reaches.stuck .start h
  obtain ⟨cause, notes, hbroken⟩ := hstuck.statements_eq hs stop
  have habandoned := hstuck.abandoned
  obtain ⟨e, hr, -⟩ := hstuck
  rw [hreach.statements_eq, hreach.lenient.statements_eq, hbroken]
  exact ⟨before, _, _, _, rfl, habandoned, rfl,
    @statements_rejected options.lenient stop rest phase tail t e hs hr⟩

end Parser

/-! ### Sheets -/

namespace Sheet

/-- What a parse has built, be it the sheet or the statements before an unrecoverable error. -/
def builtBy : Except BrokenSheet Sheet → Sheet
  | .ok s => s
  | .error b => b.built

variable {options : ParseOptions} {ts : List Token} {stop : Location}

theorem parseTokens_of_ok (h : (Parser.statements options stop .start ts).result = .ok ()) :
    parseTokens options ts stop
      = .ok (ofEvents (.startDocument :: (Parser.statements options stop .start ts).events)) := by
  rw [← ofEvents_document, parseTokens, Parser.sheet, Parser.ofTokens]
  dsimp only
  rw [h]

theorem parseTokens_of_error {error : ParseError}
    (h : (Parser.statements options stop .start ts).result = .error error) :
    parseTokens options ts stop = .error ⟨error,
      ofEvents (.startDocument :: (Parser.statements options stop .start ts).events)⟩ := by
  rw [← ofEvents_document, parseTokens, Parser.sheet, Parser.ofTokens]
  dsimp only
  rw [h]

theorem builtBy_parseTokens :
    builtBy (parseTokens options ts stop)
      = ofEvents (.startDocument :: (Parser.statements options stop .start ts).events) := by
  cases h : (Parser.statements options stop .start ts).result with
  | ok _ => rw [parseTokens_of_ok h, builtBy]
  | error error => rw [parseTokens_of_error h, builtBy]

theorem prefix_ofEvents (es fs : List Event) :
    (ofEvents es).statements <+: (ofEvents (es ++ fs)).statements := by
  unfold ofEvents
  rw [Builder.run_append]
  exact Builder.prefix_run _ _

/-- **Parsing with and without skipping agree.**  If malformed statements are skipped and no error
is reported, the sheet is the same without skipping.  A sheet that is read without skipping is the
same with it, and no error is reported.  If the parse without skipping ends early, then what it has
built is at the front of what the other one builds, and that one reports an error as well. -/
theorem parseTokens_strict (options : ParseOptions) (ts : List Token) (stop : Location) :
    let events := (Parser.ofTokens ts stop options.lenient).sheet.events
    (∀ s, parseTokens options.lenient ts stop = .ok s → (∀ e, Event.error e ∉ events) →
      parseTokens options.strict ts stop = .ok s) ∧
    (∀ s, parseTokens options.strict ts stop = .ok s →
      parseTokens options.lenient ts stop = .ok s ∧ ∀ e, Event.error e ∉ events) ∧
    ∀ b, parseTokens options.strict ts stop = .error b →
      b.built.statements <+: (builtBy (parseTokens options.lenient ts stop)).statements ∧
      ∃ e, Event.error e ∈ events ∨ Event.unrecoverable e ∈ events := by
  intro events
  have hevents : events = .startDocument ::
      ((Parser.statements options.lenient stop .start ts).events ++ [.endDocument]) := rfl
  cases hs : (Parser.statements options.strict stop .start ts).result with
  | ok _ =>
    obtain ⟨hsame, ss, hss⟩ := Parser.statements_of_strict hs
    have hequal : parseTokens options.lenient ts stop = parseTokens options.strict ts stop := by
      rw [parseTokens_of_ok hs, parseTokens_of_ok (hsame ▸ hs), hsame]
    have hnone : ∀ e, Event.error e ∉ events := by
      intro e
      rw [hevents, hsame, hss]
      simp [Statement.error_not_mem_events]
    refine ⟨fun s h _ => hequal ▸ h, fun s h => ⟨hequal.trans h, hnone⟩, fun b h => ?_⟩
    rw [parseTokens_of_ok hs] at h
    cases h
  | error error =>
    obtain ⟨before, fs, more, cause, hstrict, habandoned, hlenient, e, he⟩ :=
      Parser.statements_of_strict_error hs
    have hmem : Event.error e ∈ events ∨ Event.unrecoverable e ∈ events := by
      rw [hevents, hlenient]
      exact he.imp (fun h => by simp [h]) fun h => by simp [h]
    rw [parseTokens_of_error hs]
    refine ⟨fun s h hnone => ?_, fun s h => ?_, fun b h => ?_⟩
    · -- without an error there is the unrecoverable one, and then there is no sheet
      have hbroken : (Parser.statements options.lenient stop .start ts).result = .error e :=
        ((Parser.report _).unrecoverable_mem_iff e).1 (hmem.resolve_left (hnone e))
      rw [parseTokens_of_error hbroken] at h
      cases h
    · cases h
    · cases h
      refine ⟨?_, e, hmem⟩
      rw [builtBy_parseTokens, hstrict, hlenient, ofEvents_abandoned habandoned, ← List.cons_append]
      exact prefix_ofEvents _ _

/-- A ruleset alone is the same sheet either way.  If a statement that no grammar knows stands
between two rulesets, then the parse without skipping has built the first of them. -/
theorem parseTokens_strict_unknown :
    let a : Statement := .ruleset ⟨⟨[⟨[⟨some "a", [], .first⟩]⟩]⟩, []⟩
    let c : Statement := .ruleset ⟨⟨[⟨[⟨some "c", [], .first⟩]⟩]⟩, []⟩
    let strict := ParseOptions.strict {}
    let lenient := ParseOptions.lenient {}
    (parseTokens strict (scan "a\x7b\x7d") ⟨1, 4, 3⟩ = .ok ⟨[a]⟩ ∧
      parseTokens lenient (scan "a\x7b\x7d") ⟨1, 4, 3⟩ = .ok ⟨[a]⟩) ∧
    ∃ b, parseTokens strict (scan "a\x7b\x7d@b;c\x7b\x7d") ⟨1, 10, 9⟩ = .error b ∧
      parseTokens lenient (scan "a\x7b\x7d@b;c\x7b\x7d") ⟨1, 10, 9⟩ = .ok ⟨[a, c]⟩ ∧
      b.built.statements = [a] ∧ b.built.statements <+: [a, c] := by
  intro a c strict lenient
  have hlenient : parseTokens lenient (scan "a\x7b\x7d") ⟨1, 4, 3⟩ = .ok ⟨[a]⟩ := by
    with_unfolding_all rfl
  have hevents : (Parser.ofTokens (scan "a\x7b\x7d") ⟨1, 4, 3⟩ lenient).sheet.events
      = .startDocument :: (a.events ++ [.endDocument]) := by
    with_unfolding_all rfl
  have hstrict : parseTokens strict (scan "a\x7b\x7d") ⟨1, 4, 3⟩ = .ok ⟨[a]⟩ := by
    refine (parseTokens_strict {} _ _).1 _ hlenient fun e => ?_
    rw [hevents]
    simp [Statement.error_not_mem_events]
  have hskipped : parseTokens lenient (scan "a\x7b\x7d@b;c\x7b\x7d") ⟨1, 10, 9⟩ = .ok ⟨[a, c]⟩ := by
    with_unfolding_all rfl
  have hbroken : parseTokens strict (scan "a\x7b\x7d@b;c\x7b\x7d") ⟨1, 10, 9⟩
      = .error ⟨.unrecoverable (.unknownAtRule "b") ⟨1, 4, 3⟩, ⟨[a]⟩⟩ := by
    with_unfolding_all rfl
  obtain ⟨hbuilt, -⟩ := (parseTokens_strict {} _ _).2.2 _ hbroken
  rw [show parseTokens (ParseOptions.lenient {}) _ _ = _ from hskipped] at hbuilt
  obtain ⟨hlenient', -⟩ := (parseTokens_strict {} _ _).2.1 _ hstrict
  exact ⟨⟨hstrict, hlenient'⟩, _, hbroken, hskipped, rfl, hbuilt⟩

end Sheet

end Css2
