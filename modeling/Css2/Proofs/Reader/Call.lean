import Css2.Proofs.Reader.Sheet

/-!
# Readers and parsers

A reader that is called many times does what a parser does whose operations are applied one after
another (`Reader.call_eq`): the results, the events, the notes, the activity and the tokens that are
left are those of the parser, at every call.  A parser has neither a place in a text nor a count of
open brackets; the count of a reader is back at zero after each call, whatever the call gave back.
-/

namespace Css2

/-! ### Calls as operations -/

/-- An operation that gives back its result in another form. -/
def Parser.Outcome.map {α β : Type} (f : α → β) (o : Parser.Outcome α) : Parser.Outcome β :=
  { result := o.result.map f, events := o.events, parser := o.parser }

/-- The outcome of an attempt that leaves the trace `x` behind. -/
def Parser.attempted {α : Type} (p : Parser) (x : Trace α) : Parser.Outcome α :=
  let activity := x.activity.getD p.activity
  let skipped := p.diagnostics ++ x.skipped.map (note p.stop)
  match x.result with
  | .ok (a, rest) =>
    { result := .ok a, events := x.events
      parser := { p with tokens := rest, activity, diagnostics := skipped } }
  | .error e =>
    { result := .error (e.toError p.stop), events := x.events
      parser := { p with activity, diagnostics := skipped ++ [note p.stop e] } }

theorem Parser.construct_eq {α : Type}
    (read : Nesting → List Token → Except Failure (α × List Token)) (p : Parser) :
    p.construct read =
      ({ p with tokens := Grammar.skipTrivia p.tokens, diagnostics := [] } : Parser).attempted
        { result := read p.nesting (Grammar.skipTrivia p.tokens) } := by
  unfold construct
  dsimp only
  cases read p.nesting (Grammar.skipTrivia p.tokens) <;> rfl

def Parser.Outcome.reported {α : Type} (o : Parser.Outcome α) : Parser.Outcome α :=
  { o with events := o.events ++ match o.result with
    | .ok _ => []
    | .error e => [.error e] }

theorem Parser.statement_eq (p : Parser) :
    p.statement =
      (({ p with tokens := skipBetween p.tokens, diagnostics := [] } : Parser).attempted
        (Grammar.tryStatement p.nesting .start (skipBetween p.tokens)).trace).reported := by
  unfold statement
  dsimp only
  generalize Grammar.tryStatement p.nesting .start (skipBetween p.tokens) = a
  obtain ⟨result, events, skipped, activity⟩ := a
  cases result with
  | ok rest => simp [attempted, Outcome.reported, Attempt.trace, Except.map]
  | error e => simp [attempted, Outcome.reported, Attempt.trace, Except.map]

/-- The operation of a parser that a call stands for. -/
def Call.outcome (p : Parser) : Call → Parser.Outcome Call.Answer
  | sheet => p.sheet.map fun _ => .done
  | statement => p.statement.map fun _ => .done
  | declarationList =>
    { result := .ok (.declarations p.declarations.1), parser := p.declarations.2 }
  | declaration => p.declaration.map .declaration
  | selector => p.selector.map .selector
  | value => p.value.map .value
  | theEnd => { result := p.expectEnd.1.map fun _ => .done, parser := p.expectEnd.2 }

namespace Reader

variable {r r' : Reader}

/-- The parser that a reader is, apart from its place in the text and its open brackets. -/
def parser (r : Reader) : Parser :=
  { options := r.options
    tokens := r.unread
    stop := r.stop
    activity := r.activity
    diagnostics := r.diagnostics }

theorem Kept.parser_eq (h : Kept r r') : r'.parser = { r.parser with
    tokens := r'.unread, activity := r'.activity, diagnostics := r'.diagnostics } := by
  rw [parser, h.options, h.stop]
  rfl

theorem Moved.parser_eq (h : Moved r r') : r'.parser = { r.parser with tokens := r'.unread } := by
  rw [h.kept.parser_eq, h.diagnostics_eq, h.activity_eq]
  rfl

/-- The production `p`, begun in the state `r`, ends as the operation with the outcome `o`. -/
def Performs {α : Type} (p : Production α) (r : Reader) (o : Parser.Outcome α) : Prop :=
  ∃ r', p r = some (o.result, r') ∧ Kept r r' ∧ r'.events = r.events ++ o.events ∧
    r'.parser = o.parser

theorem nesting_of_depth (h : r.depth = 0) : r.nesting = r.parser.nesting := by
  rw [nesting, h]
  rfl

theorem Performs.map {α β : Type} {p : Production α} {o : Parser.Outcome α} (f : α → β)
    (h : Performs p r o) : Performs (do return f (← p)) r (o.map f) := by
  obtain ⟨r', h, hk, he, hp⟩ := h
  refine ⟨r', ?_, hk, he, hp⟩
  rw [Parser.Outcome.map]
  cases hr : o.result with
  | ok a =>
    rw [hr] at h
    rw [bind_of_ok h]
    rfl
  | error e =>
    rw [hr] at h
    rw [bind_of_error h]
    rfl

theorem Performs.seq {α β : Type} {p : Production α} {k : α → Production β} {a : α}
    {o : Parser.Outcome β} (hp : p r = some (.ok a, r')) (hk : Kept r r')
    (he : r'.events = r.events) (h : Performs (k a) r' o) : Performs (p >>= k) r o := by
  obtain ⟨r'', h, hk', he', hp'⟩ := h
  refine ⟨r'', ?_, hk.trans hk', by rw [he', he], hp'⟩
  rw [bind_of_ok hp]
  exact h

theorem Does.performs {α : Type} {p : Production α} {x : Trace α} (h : Does p r x) :
    Performs (attempt p) r (r.parser.attempted x) := by
  obtain ⟨r', hm, h⟩ := h.tried
  have hk := hm.kept_of_marked
  have he := hm.events_eq
  have hp := hm.parser_eq
  obtain ⟨result, events, skipped, activity⟩ := x
  cases result with
  | ok y =>
    obtain ⟨h, hu⟩ := h
    refine ⟨r', of_outcome h, hk, he, ?_⟩
    rw [hp, hu]
    rfl
  | error e =>
    obtain ⟨h, hu⟩ := h
    refine ⟨r', of_outcome h, hk, he, ?_⟩
    rw [hp, hu]
    simp [Parser.attempted, parser, marked, Trace.tried, stop, unread]

theorem Performs.reported {α : Type} {p : Production α} {o : Parser.Outcome α}
    (h : Performs p r o) : Performs (Reader.reported p) r o.reported := by
  obtain ⟨r', h, hk, he, hp⟩ := h
  obtain ⟨result, events, parser⟩ := o
  cases result with
  | ok a =>
    refine ⟨r', ?_, hk, ?_, hp⟩
    · rw [Reader.reported, bind_of_ok (outcome_of_eq h)]
      rfl
    · rw [he]
      simp [Parser.Outcome.reported]
  | error e =>
    refine ⟨{ r' with events := r'.events ++ [.error e] }, ?_, { hk with }, ?_, hp⟩
    · rw [Reader.reported, bind_of_ok (outcome_of_eq h)]
      rfl
    · rw [he]
      simp [Parser.Outcome.reported]

/-! ### One call each -/

theorem performs_sheet (r : Reader) (h : r.depth = 0) : Performs sheet r r.parser.sheet := by
  have hs : Leaves (statements .start)
      { r with events := r.events ++ [.startDocument], diagnostics := [], activity := .running }
      (Parser.statements r.options r.stop .start r.unread) := leaves_statements .start _ h rfl
  show Performs sheet r
    (let s := Parser.statements r.options r.stop .start r.unread
     { result := s.result
       events := .startDocument :: (s.events ++ [.endDocument])
       parser := { r.parser with
         tokens := s.rest, activity := .finished, diagnostics := s.diagnostics } })
  generalize Parser.statements r.options r.stop .start r.unread = s at hs ⊢
  obtain ⟨events, result, diagnostics, rest⟩ := s
  obtain ⟨r₁, h₁, hk₁, hu₁, he₁, hd₁⟩ := hs
  have hk : Kept r { r₁ with events := r₁.events ++ [.endDocument], activity := .finished } :=
    { hk₁ with }
  refine ⟨_, ?_, hk, ?_, ?_⟩
  · unfold sheet
    rw [bind_of_ok (show clearNotes r = some (.ok (), _) from rfl)]
    rw [bind_of_ok (show become _ _ = some (.ok (), _) from rfl)]
    rw [bind_of_ok (show emit _ _ = some (.ok (), _) from rfl)]
    rw [bind_of_ok (outcome_of_eq h₁)]
    cases result <;> rfl
  · dsimp only at he₁ ⊢
    rw [he₁]
    simp
  · rw [hk.parser_eq]
    dsimp only at hd₁ hu₁ ⊢
    rw [← hd₁, ← hu₁]
    rfl

theorem performs_statement (r : Reader) (h : r.depth = 0) :
    Performs statement r r.parser.statement := by
  have hclear : clearNotes r = some (.ok (), { r with diagnostics := [] }) := rfl
  refine .seq hclear { Kept.refl r with } rfl ?_
  obtain ⟨r₁, hm₁, h₁, hu₁⟩ := passes_skipBetween { r with diagnostics := [] }
  refine .seq h₁ hm₁.kept hm₁.events_eq ?_
  have hread := (does_cssStatement .start r₁).performs
  rw [hm₁.nesting_eq, hm₁.parser_eq, hu₁] at hread
  rw [Parser.statement_eq, ← nesting_of_depth h]
  exact hread.reported

theorem performs_declarationList (r : Reader) (h : r.depth = 0) :
    Performs declarationList r
      { result := .ok r.parser.declarations.1, parser := r.parser.declarations.2 } := by
  have hread : Does (declarations false fun _ => pure ())
      { r with diagnostics := [], activity := .running }
      ((Grammar.declarations r.nesting false r.unread).trace []) := by
    refine (@does_declarations _ (fun _ => []) (fun _ _ => (Reads.pure () rfl).does) false
      { r with diagnostics := [], activity := .running }).congr ?_
    rw [List.flatMap_eq_nil_iff.2 fun _ _ => rfl]
    rfl
  unfold Parser.declarations
  rw [← nesting_of_depth h]
  dsimp only
  rw [show r.parser.tokens = r.unread from rfl]
  generalize Grammar.declarations r.nesting false r.unread = l at hread ⊢
  obtain ⟨r₁, hm₁, h₁, hu₁⟩ := hread
  have hk : Kept r { r₁ with activity := .finished } := { hm₁.kept_of_marked with }
  refine ⟨_, ?_, hk, hm₁.events_eq, ?_⟩
  · unfold declarationList
    rw [bind_of_ok (show clearNotes r = some (.ok (), _) from rfl)]
    rw [bind_of_ok (show become _ _ = some (.ok (), _) from rfl)]
    rw [bind_of_ok (outcome_of_eq h₁)]
    rfl
  · rw [hk.parser_eq]
    show ({ r.parser with
      tokens := r₁.unread, activity := .finished, diagnostics := r₁.diagnostics } : Parser) = _
    rw [hu₁, hm₁.diagnostics_eq]
    rfl

/-- The construct behind the trivia is read, or the reader is where it begins. -/
theorem performs_construct {α : Type} {p : Production α}
    {g : Nesting → List Token → Except Failure (α × List Token)}
    (hread : ∀ r, Reads p r (g r.nesting r.unread)) (r : Reader) (h : r.depth = 0) :
    Performs (construct p) r (r.parser.construct g) := by
  have hclear : clearNotes r = some (.ok (), { r with diagnostics := [] }) := rfl
  refine .seq hclear { Kept.refl r with } rfl ?_
  obtain ⟨r₁, hm₁, h₁, hu₁⟩ := reads_skipTrivia { r with diagnostics := [] }
  refine .seq h₁ hm₁.kept hm₁.events_eq ?_
  have hread₁ := (hread r₁).does.performs
  rw [hm₁.nesting_eq, hm₁.parser_eq, hu₁] at hread₁
  rw [Parser.construct_eq, ← nesting_of_depth h]
  exact hread₁

theorem performs_expectEnd (r : Reader) :
    Performs expectEnd r { result := r.parser.expectEnd.1, parser := r.parser.expectEnd.2 } := by
  obtain ⟨r₁, hm₁, h₁, hu₁⟩ := reads_skipTrivia r
  refine .seq h₁ hm₁.kept hm₁.events_eq ?_
  refine .seq (peek_apply r₁) (.refl r₁) rfl ?_
  have hp := hm₁.parser_eq
  unfold Parser.expectEnd
  dsimp only
  rw [hu₁] at hp ⊢
  rw [show r.parser.tokens = r.unread from rfl]
  generalize Grammar.skipTrivia r.unread = ts at hp ⊢
  cases ts with
  | nil => exact ⟨r₁, rfl, .refl r₁, (List.append_nil _).symm, hp⟩
  | cons t rest => exact ⟨r₁, rfl, .refl r₁, (List.append_nil _).symm, hp⟩

/-! ### Any calls -/

theorem performs_production (c : Call) (r : Reader) (h : r.depth = 0) :
    Performs c.production r (c.outcome r.parser) := by
  cases c with
  | sheet => exact (performs_sheet r h).map fun _ => Call.Answer.done
  | statement => exact (performs_statement r h).map fun _ => Call.Answer.done
  | declarationList => exact (performs_declarationList r h).map Call.Answer.declarations
  | declaration => exact (performs_construct reads_declaration r h).map Call.Answer.declaration
  | selector =>
    exact (performs_construct (g := fun _ => Grammar.selector) reads_selector r h).map
      Call.Answer.selector
  | value => exact (performs_construct reads_terms r h).map Call.Answer.value
  | theEnd => exact (performs_expectEnd r).map fun _ => Call.Answer.done

/-- **A call of a reader is an operation of a parser**, and leaves no bracket open. -/
theorem call_eq (c : Call) (r : Reader) (h : r.depth = 0) :
    ∃ r', r.call c = some ((c.outcome r.parser).result, r') ∧ Kept r r' ∧
      r'.events = (c.outcome r.parser).events ∧ r'.parser = (c.outcome r.parser).parser := by
  obtain ⟨r', hr, hk, he, hp⟩ := performs_production c { r with events := [] } h
  exact ⟨r', hr, { hk with }, he, hp⟩

/-- **Calls of a reader are operations of a parser one after another.** -/
theorem calls_eq (cs : List Call) (r : Reader) (h : r.depth = 0) :
    ∃ r', r.calls cs = some r' ∧ Kept r r' ∧
      r'.parser = cs.foldl (fun p c => (c.outcome p).parser) r.parser := by
  induction cs generalizing r with
  | nil => exact ⟨r, rfl, .refl r, rfl⟩
  | cons c cs ih =>
    obtain ⟨r₁, h₁, hk₁, -, hp₁⟩ := call_eq c r h
    obtain ⟨r₂, h₂, hk₂, hp₂⟩ := ih r₁ (hk₁.depth.trans h)
    refine ⟨r₂, ?_, hk₁.trans hk₂, ?_⟩
    · rw [calls, List.foldlM_cons, h₁]
      exact h₂
    · rw [hp₂, hp₁, List.foldl_cons]

theorem result_of_calls {source : TokenStream} {options : ParseOptions} {cs : List Call} {c : Call}
    {result : Except ParseError Call.Answer} (h : (ofStream source options).calls cs = some r)
    (hc : r.call c = some (result, r')) :
    result = (c.outcome (cs.foldl (fun p c => (c.outcome p).parser)
      (Parser.ofTokens source.unread source.stop options))).result := by
  obtain ⟨r₁, h₁, hk₁, hp₁⟩ := calls_eq cs (ofStream source options) rfl
  obtain rfl := Option.some.inj (h₁.symm.trans h)
  obtain ⟨r₂, h₂, -⟩ := call_eq c r₁ hk₁.depth
  have hresult := congrArg Prod.fst (Option.some.inj (hc.symm.trans h₂))
  rw [hp₁] at hresult
  exact hresult

end Reader

end Css2
