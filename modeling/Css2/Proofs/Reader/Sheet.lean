import Css2.Proofs.Reader.Statement
import Css2.Reader.Call

/-!
# Readers of sheets

The loop over the statements of a sheet goes back to where a statement starts, skips it from there,
forgets its notes when that is done, and stops at the first one that it can neither read nor skip.
On every path it leaves the reader as `Parser.statements` says (`Reader.leaves_statements`).

Notes are not only added here but also dropped, so what is left is compared as a whole and not with
what was there before.
-/

namespace Css2

namespace Reader

variable {r r' : Reader}

/-! ### What is left -/

/-- From `r` to `r'` the options, the text and the count of open brackets are the same, and the
limit was kept to. -/
structure Kept (r r' : Reader) : Prop extends Sunk r r' where
  options : r'.options = r.options
  tokens : r'.source.tokens = r.source.tokens
  stop : r'.stop = r.stop
  depth : r'.depth = r.depth

theorem Kept.refl (r : Reader) : Kept r r :=
  ⟨.of_eq rfl, rfl, rfl, rfl, rfl⟩

theorem Kept.trans {r'' : Reader} (h : Kept r r') (h' : Kept r' r'') : Kept r r'' :=
  ⟨h.toSunk.trans h.options h'.toSunk, h'.options.trans h.options, h'.tokens.trans h.tokens,
    h'.stop.trans h.stop, h'.depth.trans h.depth⟩

theorem Moved.kept (h : Moved r r') : Kept r r' := by
  have hdepth := congrArg Reader.depth h.rewound_eq
  have htokens := congrArg TokenStream.tokens h.source_eq
  exact ⟨h.toSunk, h.options_eq, htokens, h.stop_eq, hdepth⟩

theorem Moved.kept_of_marked {α : Type} {x : Trace α} (h : Moved (r.marked x) r') : Kept r r' :=
  (⟨.of_eq rfl, rfl, rfl, rfl, rfl⟩ : Kept r (r.marked x)).trans h.kept

theorem Moved.events_eq (h : Moved r r') : r'.events = r.events := by
  have hevents := congrArg Reader.events h.rewound_eq
  exact hevents

theorem Moved.activity_eq (h : Moved r r') : r'.activity = r.activity := by
  have hactivity := congrArg Reader.activity h.rewound_eq
  exact hactivity

theorem Moved.diagnostics_eq (h : Moved r r') : r'.diagnostics = r.diagnostics := by
  have hdiagnostics := congrArg Reader.diagnostics h.rewound_eq
  exact hdiagnostics

/-- The production `p`, begun in the state `r`, ends as `s` says. -/
def Leaves (p : Production Unit) (r : Reader) (s : Parser.Statements) : Prop :=
  ∃ r', p r = some (s.result, r') ∧ Kept r r' ∧ r'.unread = s.rest ∧
    r'.events = r.events ++ s.events ∧ r'.diagnostics = s.diagnostics

theorem Leaves.seq {α : Type} {p : Production α} {k : α → Production Unit} {a : α}
    {events : List Event} {s : Parser.Statements} (hp : p r = some (.ok a, r')) (hk : Kept r r')
    (he : r'.events = r.events ++ events) (h : Leaves (k a) r' s) :
    Leaves (p >>= k) r (s.after events) := by
  obtain ⟨r'', h, hk', hu, he', hd⟩ := h
  refine ⟨r'', ?_, hk.trans hk', hu, ?_, hd⟩
  · rw [bind_of_ok hp]
    exact h
  · rw [he', he]
    exact List.append_assoc _ _ _

theorem Leaves.step {α : Type} {p : Production α} {k : α → Production Unit} {a : α}
    {rest : List Token} {s : Parser.Statements} (hp : Reads p r (.ok (a, rest)))
    (hk : ∀ r', Moved r r' → r'.unread = rest → Leaves (k a) r' s) : Leaves (p >>= k) r s := by
  obtain ⟨r', hm, hp, hu⟩ := hp
  exact .seq hp hm.kept (hm.events_eq.trans (List.append_nil _).symm) (s := s) (hk r' hm hu)

theorem Leaves.peek {k : Option Token → Production Unit} {s : Parser.Statements}
    (h : Leaves (k r.unread.head?) r s) : Leaves (Reader.peek >>= k) r s := by
  rw [Leaves, bind_of_ok (peek_apply r)]
  exact h

theorem Leaves.get {k : Reader → Production Unit} {s : Parser.Statements}
    (h : Leaves (k r) r s) : Leaves (MonadState.get >>= k) r s :=
  h

/-! ### One statement -/

theorem passes_skipBetween (r : Reader) :
    Passes skipBetween r (.ok (Parser.skipBetween r.unread)) := by
  induction hts : r.unread generalizing r with
  | nil =>
    rw [skipBetween.eq_1]
    refine .peek ?_
    rw [hts]
    exact .pure _ hts
  | cons t rest ih =>
    rw [skipBetween.eq_1]
    refine .peek ?_
    rw [hts, Parser.skipBetween, List.dropWhile_cons]
    dsimp only [List.head?_cons]
    split
    · exact .bump hts fun r₁ _ hu₁ => ih r₁ hu₁
    · exact .pure _ hts

/-- What one turn of the loop leaves behind, at a statement that starts with `t`. -/
def turn (options : ParseOptions) (stop : Location) (phase : Phase) (t : Token)
    (rest : List Token) : Parser.Statements :=
  let n : Nesting := ⟨options.maxNesting, 0⟩
  let a := Grammar.tryStatement n phase (t :: rest)
  match a.result with
  | .ok after => ⟨a.events, .ok (), [], after⟩
  | .error e =>
    let notes := (a.skipped ++ [e]).map (Parser.note stop)
    if options.forwardCompatible then
      match Grammar.skipStatement n (t :: rest) with
      | .ok after => ⟨a.events ++ [.error (e.toError stop)], .ok (), [], after⟩
      | .error e' =>
        .broken a.events (notes ++ [Parser.note stop e']) e'.cause t.loc (t :: rest)
    else .broken a.events notes e.cause t.loc (t :: rest)

theorem statements_eq_turn (options : ParseOptions) (stop : Location) (phase : Phase)
    (ts : List Token) :
    Parser.statements options stop phase ts = (match Parser.skipBetween ts with
      | [] => ⟨[], .ok (), [], []⟩
      | t :: rest =>
        let s := turn options stop phase t rest
        match s.result with
        | .ok () => (Parser.statements options stop
            (Parser.nextPhase phase (Grammar.keyword? (t :: rest))) s.rest).after s.events
        | .error _ => s) := by
  rw [Parser.statements_eq]
  cases Parser.skipBetween ts with
  | nil => rfl
  | cons t rest =>
    dsimp only
    unfold turn
    dsimp only
    cases (Grammar.tryStatement ⟨options.maxNesting, 0⟩ phase (t :: rest)).result with
    | ok after => rfl
    | error e =>
      dsimp only
      split
      · cases Grammar.skipStatement ⟨options.maxNesting, 0⟩ (t :: rest) <;> rfl
      · rfl

theorem leaves_giveUp (e : Failure) (stop : Location) (start : TokenStream.Mark) (r : Reader) :
    Leaves (giveUp (e.toError stop) start) r
      (.broken [] r.diagnostics e.cause start.loc r.unread) :=
  ⟨{ r with
    diagnostics := r.diagnostics ++
      [Diagnostic.ofError start.loc (.unrecoverable e.cause start.loc)]
    events := r.events ++ [.unrecoverable (.unrecoverable e.cause start.loc)] },
    rfl, ⟨.of_eq rfl, rfl, rfl, rfl, rfl⟩, rfl, rfl, rfl⟩

theorem leaves_skipping (error : ParseError) (start : TokenStream.Mark) (r : Reader) :
    Leaves (do
      match ← outcome (attempt coreStatement) with
      | .ok () =>
        emit (.error error)
        clearNotes
        become .running
      | .error e => giveUp e start) r
      (match Grammar.skipStatement r.nesting r.unread with
      | .ok after => ⟨[.error error], .ok (), [], after⟩
      | .error e =>
        .broken [] (r.diagnostics ++ [Parser.note r.stop e]) e.cause start.loc r.unread) := by
  have hskip := (passes_coreStatement r).does.tried
  cases hs : Grammar.skipStatement r.nesting r.unread with
  | ok after =>
    rw [hs] at hskip
    obtain ⟨r₁, hm₁, h₁, hu₁⟩ := hskip
    refine .seq h₁ hm₁.kept_of_marked hm₁.events_eq (s := ⟨[.error error], .ok (), [], after⟩) ?_
    exact ⟨{ r₁ with
      events := r₁.events ++ [.error error]
      diagnostics := []
      activity := .running }, rfl, { Kept.refl r₁ with }, hu₁, rfl, rfl⟩
  | error e =>
    rw [hs] at hskip
    obtain ⟨r₁, hm₁, h₁, hu₁⟩ := hskip
    have hgive := leaves_giveUp e r.stop start r₁
    rw [hu₁, hm₁.diagnostics_eq] at hgive
    exact .seq h₁ hm₁.kept_of_marked hm₁.events_eq
      (s := .broken [] _ e.cause start.loc r.unread) hgive

/-- **A turn of the loop goes as the statement and the options say.** -/
theorem leaves_topLevelStatement {phase : Phase} {t : Token} {rest : List Token}
    (hu : r.unread = t :: rest) (hdepth : r.depth = 0) (hnone : r.diagnostics = []) :
    Leaves (topLevelStatement phase) r (turn r.options r.stop phase t rest) := by
  have hnesting : r.nesting = ⟨r.options.maxNesting, 0⟩ := by rw [nesting, hdepth]
  have hloc : r.source.mark.loc = t.loc := by
    show r.source.location = _
    rw [r.source.location_eq, show r.source.unread = t :: rest from hu]
    rfl
  have htry := (does_cssStatement phase r).tried
  rw [hnesting, hu] at htry
  unfold topLevelStatement turn
  refine .get ?_
  dsimp only
  generalize Grammar.tryStatement ⟨r.options.maxNesting, 0⟩ phase (t :: rest) = a at htry ⊢
  obtain ⟨result, events, skipped, activity⟩ := a
  obtain ⟨r₁, hm₁, h₁⟩ := htry
  have hk₁ := hm₁.kept_of_marked
  have he₁ := hm₁.events_eq
  have hn₁ : r₁.nesting = ⟨r.options.maxNesting, 0⟩ := hm₁.nesting_eq.trans hnesting
  cases result with
  | ok after =>
    obtain ⟨h₁, hu₁⟩ := h₁
    have hclear : Leaves clearNotes r₁ ⟨[], .ok (), [], after⟩ :=
      ⟨{ r₁ with diagnostics := [] }, rfl, { Kept.refl r₁ with }, hu₁,
        (List.append_nil _).symm, rfl⟩
    rw [← List.append_nil events]
    exact .seq h₁ hk₁ he₁ (s := ⟨[], .ok (), [], after⟩) hclear
  | error e =>
    obtain ⟨h₁, hu₁⟩ := h₁
    -- the turn begins without notes, so all there are now come from the attempt
    have hd₁ : r₁.diagnostics = (skipped ++ [e]).map (Parser.note r.stop) := by
      rw [hm₁.diagnostics_eq]
      simp [marked, Trace.tried, Attempt.trace, Except.map, hnone]
    dsimp only
    by_cases hf : r.options.forwardCompatible = true
    · have hskip := leaves_skipping (e.toError r.stop) r.source.mark r₁
      rw [hloc, hn₁, hu₁, hd₁, hk₁.stop] at hskip
      rw [if_pos hf]
      cases hs : Grammar.skipStatement ⟨r.options.maxNesting, 0⟩ (t :: rest) with
      | ok after =>
        rw [hs] at hskip
        refine .seq h₁ hk₁ he₁ (s := ⟨[.error (e.toError r.stop)], .ok (), [], after⟩) ?_
        dsimp only
        rw [if_pos hf]
        exact hskip
      | error e' =>
        rw [hs] at hskip
        refine .seq h₁ hk₁ he₁ (s := .broken [] _ e'.cause t.loc (t :: rest)) ?_
        dsimp only
        rw [if_pos hf]
        exact hskip
    · have hgive := leaves_giveUp e r.stop r.source.mark r₁
      rw [hloc, hu₁, hd₁] at hgive
      rw [if_neg hf]
      refine .seq h₁ hk₁ he₁ (s := .broken [] _ e.cause t.loc (t :: rest)) ?_
      dsimp only
      rw [if_neg hf]
      exact hgive

/-! ### The loop -/

theorem turn_ok {options : ParseOptions} {stop : Location} {phase : Phase} {t : Token}
    {rest : List Token} (h : (turn options stop phase t rest).result = .ok ()) :
    (turn options stop phase t rest).diagnostics = [] ∧
      (turn options stop phase t rest).rest.length < (t :: rest).length := by
  unfold turn at h ⊢
  dsimp only at h ⊢
  cases hr : (Grammar.tryStatement ⟨options.maxNesting, 0⟩ phase (t :: rest)).result with
  | ok after =>
    exact ⟨rfl, Grammar.tryStatement_lt hr⟩
  | error e =>
    rw [hr] at h
    dsimp only at h ⊢
    by_cases hf : options.forwardCompatible = true
    · rw [if_pos hf] at h ⊢
      cases hs : Grammar.skipStatement ⟨options.maxNesting, 0⟩ (t :: rest) with
      | ok after => exact ⟨rfl, Grammar.skipStatement_lt hs⟩
      | error e' =>
        rw [hs] at h
        cases h
    · rw [if_neg hf] at h
      cases h

/-- **A reader reads the statements of a sheet as the parser does.** -/
theorem leaves_statements (phase : Phase) (r : Reader) (hdepth : r.depth = 0)
    (hnone : r.diagnostics = []) :
    Leaves (statements phase) r (Parser.statements r.options r.stop phase r.unread) := by
  induction hn : r.unread.length using Nat.strongRecOn generalizing r phase with
  | ind n ih =>
    subst hn
    rw [statements.eq_1, statements_eq_turn]
    refine .step (passes_skipBetween r) fun r₁ hm₁ hu₁ => .peek ?_
    have hle := Parser.skipBetween_le r.unread
    rw [← hm₁.kept.stop, ← hm₁.kept.options, hu₁]
    have hdepth₁ : r₁.depth = 0 := hm₁.kept.depth.trans hdepth
    have hnone₁ : r₁.diagnostics = [] := hm₁.diagnostics_eq.trans hnone
    cases hs : Parser.skipBetween r.unread with
    | nil => exact ⟨r₁, rfl, .refl r₁, hu₁.trans hs, (List.append_nil _).symm, hnone₁⟩
    | cons t rest =>
      rw [hs] at hu₁ hle
      dsimp only [List.head?_cons]
      have hturn := @leaves_topLevelStatement r₁ phase t rest hu₁ hdepth₁ hnone₁
      have hok := @turn_ok r₁.options r₁.stop phase t rest
      generalize turn r₁.options r₁.stop phase t rest = s at hturn hok ⊢
      obtain ⟨r₂, h₂, hk₂, hu₂, he₂, hd₂⟩ := hturn
      obtain ⟨events, result, diagnostics, after⟩ := s
      cases result with
      | error e => exact ⟨r₂, bind_of_error h₂, hk₂, hu₂, he₂, hd₂⟩
      | ok _ =>
        obtain ⟨hempty, hlt⟩ := hok rfl
        refine .seq h₂ hk₂ he₂ ?_
        rw [← hk₂.stop, ← hk₂.options, ← show r₂.unread = after from hu₂]
        rw [show Grammar.keyword? [t] = Grammar.keyword? (t :: rest) from keyword?_head (t :: rest)]
        refine ih _ ?_ _ r₂ (hk₂.depth.trans hdepth₁) (hd₂.trans hempty) rfl
        rw [show r₂.unread = after from hu₂]
        exact Nat.lt_of_lt_of_le hlt hle

end Reader

end Css2
