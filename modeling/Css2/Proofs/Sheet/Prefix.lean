import Css2.Proofs.Grammar.Confinement.Statement
import Css2.Proofs.Sheet.Protocol

/-!
# The tokens before a statement

The statements of a sheet do not depend on what follows them.  Wherever the loop over the
statements starts one, the tokens before that one are a sheet of their own, and it holds the
statements that were built so far (`Sheet.parseTokens_take`).  So the sheet that comes with an
unrecoverable error is the sheet of the tokens before the statement that is to blame.

`Parser.Reaches` follows the loop turn by turn and collects the events.  One turn goes the same way
without the tokens behind it, because a statement does not look past its end; that the run does so
too is an induction over the turns (`Parser.Reaches.of_append`).
-/

namespace Css2

namespace Parser

/-! ### The turns of the loop -/

/-- The loop over the statements of `ts` comes to `rest` in the given phase, and by then it has
reported the events. -/
inductive Reaches (options : ParseOptions) (stop : Location) (ts : List Token) :
    List Event → Phase → List Token → Prop
  | start : Reaches options stop ts [] .start ts
  | read {events : List Event} {phase : Phase} {rest tail after : List Token} {t : Token} :
      Reaches options stop ts events phase rest → skipBetween rest = t :: tail →
      (Grammar.tryStatement ⟨options.maxNesting, 0⟩ phase (t :: tail)).result = .ok after →
      Reaches options stop ts
        (events ++ (Grammar.tryStatement ⟨options.maxNesting, 0⟩ phase (t :: tail)).events)
        (nextPhase phase (Grammar.keyword? (t :: tail))) after
  | skipped {events : List Event} {phase : Phase} {rest tail after : List Token} {t : Token}
      {e : Failure} :
      Reaches options stop ts events phase rest → skipBetween rest = t :: tail →
      (Grammar.tryStatement ⟨options.maxNesting, 0⟩ phase (t :: tail)).result = .error e →
      options.forwardCompatible = true →
      Grammar.skipStatement ⟨options.maxNesting, 0⟩ (t :: tail) = .ok after →
      Reaches options stop ts
        (events ++ ((Grammar.tryStatement ⟨options.maxNesting, 0⟩ phase (t :: tail)).events
          ++ [.error (e.toError stop)]))
        (nextPhase phase (Grammar.keyword? (t :: tail))) after

/-- The loop starts a statement at the token of index `i`, and by then it has reported the
events. -/
def StartsAt (options : ParseOptions) (stop : Location) (ts : List Token) (i : Nat)
    (events : List Event) : Prop :=
  i < ts.length ∧ ∃ phase rest, Reaches options stop ts events phase rest ∧
    skipBetween rest = ts.drop i

theorem Statements.after_after (es fs : List Event) (s : Statements) :
    (s.after fs).after es = s.after (es ++ fs) := by
  unfold Statements.after
  simp

/-- **What the loop reaches is on its way**: the statements of the sheet are those that are read
from there on, with the events up to there before theirs. -/
theorem Reaches.statements_eq {options : ParseOptions} {stop : Location} {ts rest : List Token}
    {events : List Event} {phase : Phase} (h : Reaches options stop ts events phase rest) :
    statements options stop .start ts = (statements options stop phase rest).after events := by
  induction h with
  | start => rfl
  | read _ hs hr ih =>
    rw [ih, Parser.statements_eq options stop _ _, hs]
    dsimp only
    rw [hr]
    exact Statements.after_after _ _ _
  | skipped _ hs hr hf hk ih =>
    rw [ih, Parser.statements_eq options stop _ _, hs]
    dsimp only
    rw [hr]
    dsimp only
    rw [if_pos hf, hk]
    exact Statements.after_after _ _ _

theorem skipBetween_suffix (ts : List Token) : skipBetween ts <:+ ts :=
  List.dropWhile_suffix _

theorem Reaches.suffix {options : ParseOptions} {stop : Location} {ts rest : List Token}
    {events : List Event} {phase : Phase} (h : Reaches options stop ts events phase rest) :
    rest <:+ ts := by
  induction h with
  | start => exact List.suffix_refl ts
  | @read events phase rest tail after t _ hs hr ih =>
    by_cases hafter : after = []
    · rw [hafter]
      exact List.nil_suffix
    · have hsuf := (Grammar.tryStatement_behind hr hafter).suffix
      rw [← hs] at hsuf
      exact hsuf.trans ((skipBetween_suffix rest).trans ih)
  | @skipped events phase rest tail after t e _ hs hr hf hk ih =>
    by_cases hafter : after = []
    · rw [hafter]
      exact List.nil_suffix
    · have hsuf := (Grammar.skipStatement_behind hk hafter).suffix
      rw [← hs] at hsuf
      exact hsuf.trans ((skipBetween_suffix rest).trans ih)

end Parser

/-! ### What is built -/

namespace Builder

theorem run_append (b : Builder) (es fs : List Event) : b.run (es ++ fs) = (b.run es).run fs :=
  List.foldl_append

theorem run_properties {ps : List Event} (h : ∀ p ∈ ps, p.isProperty) (b : Builder) :
    (b.run ps).sheet = b.sheet ∧ (b.run ps).media = b.media := by
  induction ps generalizing b with
  | nil => exact ⟨rfl, rfl⟩
  | cons p ps ih =>
    have hp := h p (by simp)
    obtain ⟨hsheet, hmedia⟩ := ih (fun q hq => h q (by simp [hq])) (b.step p)
    have hstep : (b.step p).sheet = b.sheet ∧ (b.step p).media = b.media := by
      cases p with
      | property d =>
        simp only [step]
        split <;> exact ⟨rfl, rfl⟩
      | _ => cases hp
    exact ⟨hsheet.trans hstep.1, hmedia.trans hstep.2⟩

/-- Inside of `@media`, rulesets do not touch the sheet. -/
theorem run_rulesets {es : List Event} (h : Protocol.Rulesets es) {b : Builder}
    (hb : b.media.isSome) : (b.run es).sheet = b.sheet := by
  induction h generalizing b with
  | nil => rfl
  | @cons s g gs hg _ ih =>
    obtain ⟨he, hps⟩ := hg
    rename_i e ps
    cases he
    obtain ⟨hsheet, hmedia⟩ := run_properties hps (b.step (.startSelector s))
    have hend : ((((b.step (.startSelector s)).run ps).step .endSelector).sheet = b.sheet) ∧
        (((b.step (.startSelector s)).run ps).step .endSelector).media.isSome := by
      have hsome : ((b.step (.startSelector s)).run ps).media.isSome := by
        rw [hmedia]
        exact hb
      generalize (b.step (.startSelector s)).run ps = c at hsheet hsome
      obtain ⟨x, hx⟩ := Option.isSome_iff_exists.1 hsome
      simp only [step]
      split
      · rw [addRuleset]
        dsimp only
        rw [hx]
        exact ⟨hsheet, rfl⟩
      · exact ⟨hsheet, hsome⟩
    have hsplit : b.run (.startSelector s :: (ps ++ [.endSelector]) ++ gs)
        = (((b.step (.startSelector s)).run ps).step .endSelector).run gs := by
      rw [run_append]
      unfold run
      rw [List.foldl_cons, List.foldl_append]
      rfl
    rw [hsplit, ih hend.2, hend.1]

/-- **A statement that is given up is not built.** -/
theorem run_abandoned {es : List Event} (h : Protocol.Abandoned es) (b : Builder) :
    (b.run es).sheet = b.sheet := by
  cases h with
  | nothing => rfl
  | media names hg => exact run_rulesets (b := b.step (.startMedia names)) hg rfl

theorem run_error {es : List Event} (h : Protocol.Abandoned es) (b : Builder) (e : ParseError) :
    b.run (es ++ [.error e]) = b.discard := by
  rw [run_append]
  show (b.run es).discard = b.discard
  unfold discard
  rw [run_abandoned h]

end Builder

/-! ### The tokens before a statement -/

namespace Parser

/-- Where a statement starts with tokens to be left over behind it, it starts without them too. -/
theorem skipBetween_append {rest tail after more : List Token} {t : Token}
    (hs : skipBetween rest = t :: tail) (hb : Grammar.Behind (t :: tail) (after ++ more)) :
    ∃ us vs, rest = us ++ more ∧ tail = vs ++ more ∧ skipBetween us = t :: vs := by
  obtain ⟨ps, x, heq, _⟩ := hb
  have hsplit : t :: tail = (ps ++ x :: after) ++ more := by rw [heq]; simp
  obtain ⟨us, rfl⟩ : ∃ us, rest = us ++ more := by
    have hsuf := skipBetween_suffix rest
    rw [hs, hsplit] at hsuf
    exact Grammar.exists_append_of_suffix hsuf
  cases hps : ps ++ x :: after with
  | nil => simp at hps
  | cons y vs =>
    rw [hps, List.cons_append, List.cons.injEq] at hsplit
    obtain ⟨rfl, rfl⟩ := hsplit
    exact ⟨us, vs, rfl, rfl, Grammar.dropWhile_append_cons hs⟩

theorem map_append_eq_ok {r : Except Failure (List Token)} {rest more : List Token}
    (h : r.map (· ++ more) = .ok (rest ++ more)) : r = .ok rest := by
  obtain ⟨us, rfl, heq⟩ := Grammar.map_eq_ok h
  rw [List.append_cancel_right heq]

theorem map_append_eq_error {r : Except Failure (List Token)} {more : List Token} {e : Failure}
    (h : r.map (· ++ more) = .error e) : r = .error e := by
  cases r with
  | error e' => exact h
  | ok us => cases h

/-- **The loop goes the same way without the tokens that are still to come.**  The events are the
same but for the errors in them, and those are not built. -/
theorem Reaches.of_append {options : ParseOptions} {stop : Location} {ts more rest : List Token}
    {events : List Event} {phase : Phase} (hm : more ≠ [])
    (h : Reaches options stop (ts ++ more) events phase (rest ++ more)) (stop' : Location) :
    ∃ events', Reaches options stop' ts events' phase rest ∧
      ∀ b : Builder, b.run events' = b.run events := by
  generalize hr : rest ++ more = r at h
  induction h generalizing rest with
  | start =>
    rw [List.append_cancel_right hr]
    exact ⟨[], .start, fun _ => rfl⟩
  | @read events phase r₀ tail after t _ hs hok ih =>
    subst hr
    obtain ⟨us, vs, rfl, rfl, hus⟩ :=
      skipBetween_append hs (Grammar.tryStatement_behind hok (by simp [hm]))
    obtain ⟨events', hreach, hrun⟩ := ih rfl
    have hstep := @Grammar.tryStatement_append _ phase (t :: vs) _ hm (.inl ⟨rest, hok⟩)
    rw [← List.cons_append] at hok ⊢
    rw [hstep] at hok ⊢
    rw [Grammar.keyword?_append (by simp)]
    refine ⟨_, .read hreach hus (map_append_eq_ok hok), fun b => ?_⟩
    rw [Builder.run_append b events', Builder.run_append b events, hrun]
    rfl
  | @skipped events phase r₀ tail after t e _ hs herr hf hk ih =>
    subst hr
    obtain ⟨us, vs, rfl, rfl, hus⟩ :=
      skipBetween_append hs (Grammar.skipStatement_behind hk (by simp [hm]))
    obtain ⟨events', hreach, hrun⟩ := ih rfl
    have hskip := @Grammar.skipStatement_append _ (t :: vs) _ hm (.inr ⟨rest, hk⟩)
    have hstep :=
      @Grammar.tryStatement_append _ phase (t :: vs) _ hm (.inr ⟨⟨e, herr⟩, _, rest, hk⟩)
    rw [← List.cons_append] at hk herr ⊢
    rw [hskip] at hk
    rw [hstep] at herr ⊢
    rw [Grammar.keyword?_append (by simp)]
    refine ⟨_, .skipped hreach hus (map_append_eq_error herr) hf (map_append_eq_ok hk),
      fun b => ?_⟩
    have habandoned := Protocol.reported_tryStatement ⟨options.maxNesting, 0⟩ phase (t :: vs)
    rw [Protocol.Reported] at habandoned
    rw [map_append_eq_error herr] at habandoned
    rw [Builder.run_append b events', Builder.run_append b events, hrun]
    exact (Builder.run_error habandoned _ _).trans (Builder.run_error habandoned _ _).symm

/-- **The tokens before a statement are a sheet**, with nothing left over, and it has what was
built so far. -/
theorem Reaches.statements_before {options : ParseOptions} {stop : Location}
    {ts more rest : List Token} {events : List Event} {phase : Phase} (hm : more ≠ [])
    (h : Reaches options stop (ts ++ more) events phase rest) (hs : skipBetween rest = more)
    (stop' : Location) :
    ∃ events', statements options stop' .start ts = ⟨events', .ok (), [], []⟩ ∧
      ∀ b : Builder, b.run events' = b.run events := by
  -- what stands between the last statement and this one is left of the tokens before it
  obtain ⟨us, rfl⟩ : ∃ us, rest = us ++ more := by
    have hsuf := skipBetween_suffix rest
    rw [hs] at hsuf
    exact @Grammar.exists_append_of_suffix _ [] _ hsuf
  have hus : skipBetween us = [] := by
    cases hd : skipBetween us with
    | nil => rfl
    | cons t vs =>
      rw [skipBetween] at hs hd
      rw [List.dropWhile_append, hd] at hs
      have hlen := congrArg List.length hs
      simp only [List.isEmpty_cons, Bool.false_eq_true, if_false, List.cons_append,
        List.length_cons, List.length_append] at hlen
      omega
  obtain ⟨events', hreach, hrun⟩ := h.of_append hm stop'
  refine ⟨events', ?_, hrun⟩
  rw [hreach.statements_eq, Parser.statements_eq, hus]
  rw [Statements.after]
  simp

/-- The statement at the front of `ts` cannot be read, and it cannot be skipped either, if that is
allowed at all. -/
def Stuck (options : ParseOptions) (phase : Phase) (ts : List Token) : Prop :=
  ∃ e, (Grammar.tryStatement ⟨options.maxNesting, 0⟩ phase ts).result = .error e ∧
    (options.forwardCompatible = true →
      ∃ e', Grammar.skipStatement ⟨options.maxNesting, 0⟩ ts = .error e')

theorem Stuck.statements_eq {options : ParseOptions} {phase : Phase} {rest tail : List Token}
    {t : Token} (h : Stuck options phase (t :: tail)) (hs : skipBetween rest = t :: tail)
    (stop : Location) :
    ∃ cause notes, statements options stop phase rest = Statements.broken
      (Grammar.tryStatement ⟨options.maxNesting, 0⟩ phase (t :: tail)).events notes cause t.loc
      (t :: tail) := by
  obtain ⟨e, hr, hskip⟩ := h
  rw [Parser.statements_eq, hs]
  dsimp only
  rw [hr]
  dsimp only
  by_cases hf : options.forwardCompatible = true
  · obtain ⟨e', hk⟩ := hskip hf
    rw [if_pos hf, hk]
    exact ⟨_, _, rfl⟩
  · rw [if_neg hf]
    exact ⟨_, _, rfl⟩

/-- What was reported of a statement that can be neither read nor skipped has no end. -/
theorem Stuck.abandoned {options : ParseOptions} {phase : Phase} {ts : List Token}
    (h : Stuck options phase ts) :
    Protocol.Abandoned (Grammar.tryStatement ⟨options.maxNesting, 0⟩ phase ts).events := by
  obtain ⟨e, hr, -⟩ := h
  have hreported := Protocol.reported_tryStatement ⟨options.maxNesting, 0⟩ phase ts
  rw [Protocol.Reported, hr] at hreported
  exact hreported

/-- **Where a sheet does not end well, the loop reaches a statement that can be neither read nor
skipped.** -/
theorem Reaches.stuck {options : ParseOptions} {stop : Location} {ts rest : List Token}
    {events : List Event} {phase : Phase} {error : ParseError}
    (h : Reaches options stop ts events phase rest)
    (hb : (statements options stop phase rest).result = .error error) :
    ∃ before phase' rest' t tail, Reaches options stop ts before phase' rest' ∧
      skipBetween rest' = t :: tail ∧ Stuck options phase' (t :: tail) := by
  fun_induction statements options stop phase rest generalizing events
  · cases hb
  · next phase rest t tail hs n phase' after es skipped activity ha ih =>
    exact ih (h.read hs (by rw [ha])) hb
  · next phase rest t tail hs n phase' e es skipped activity ha hf after hk ih =>
    exact ih (h.skipped hs (by rw [ha]) hf hk) hb
  · next phase rest t tail hs n e es skipped activity ha notes hf e' hk =>
    exact ⟨events, phase, rest, t, tail, h, hs, e, by rw [ha], fun _ => ⟨e', hk⟩⟩
  · next phase rest t tail hs n e es skipped activity ha notes hf =>
    exact ⟨events, phase, rest, t, tail, h, hs, e, by rw [ha], fun hf' => absurd hf' hf⟩

/-- The events of a sheet that does not end well are those of the statements before, and then those
of a statement that is given up. -/
theorem Reaches.broken {options : ParseOptions} {stop : Location} {ts rest : List Token}
    {events : List Event} {phase : Phase} {error : ParseError}
    (h : Reaches options stop ts events phase rest)
    (hb : (statements options stop phase rest).result = .error error) :
    ∃ before phase' rest' t tail cause abandoned,
      Reaches options stop ts before phase' rest' ∧ skipBetween rest' = t :: tail ∧
      error = .unrecoverable cause t.loc ∧ Protocol.Abandoned abandoned ∧
      events ++ (statements options stop phase rest).events
        = before ++ (abandoned ++ [.unrecoverable error]) := by
  obtain ⟨before, phase', rest', t, tail, hreach, hs, hstuck⟩ := h.stuck hb
  obtain ⟨cause, notes, hbroken⟩ := hstuck.statements_eq hs stop
  have hab := hstuck.abandoned
  -- both ways through the loop begin at the same tokens, so they end the same way
  have hsame := h.statements_eq.symm.trans hreach.statements_eq
  rw [hbroken] at hsame
  have herror : error = .unrecoverable cause t.loc := by
    have hresult := congrArg Statements.result hsame
    exact Except.error.inj (hb.symm.trans hresult)
  refine ⟨before, phase', rest', t, tail, cause, _, hreach, hs, herror, hab, ?_⟩
  rw [herror]
  exact congrArg Statements.events hsame

end Parser

/-! ### Sheets -/

theorem Sheet.ofEvents_document (es : List Event) :
    Sheet.ofEvents (.startDocument :: (es ++ [.endDocument]))
      = Sheet.ofEvents (.startDocument :: es) := by
  rw [Sheet.ofEvents]
  rw [← List.cons_append, Builder.run_append]
  rfl

theorem Sheet.ofEvents_abandoned {es fs : List Event} (h : Protocol.Abandoned fs)
    (e : ParseError) :
    Sheet.ofEvents (.startDocument :: (es ++ (fs ++ [.unrecoverable e])))
      = Sheet.ofEvents (.startDocument :: es) := by
  rw [Sheet.ofEvents]
  rw [← List.cons_append, Builder.run_append, Builder.run_append]
  exact Builder.run_abandoned h _

theorem Sheet.ofEvents_congr {es fs : List Event} (h : ∀ b : Builder, b.run es = b.run fs) :
    Sheet.ofEvents (.startDocument :: es) = Sheet.ofEvents (.startDocument :: fs) :=
  congrArg Builder.sheet (h (Builder.empty.step .startDocument))

/-- **Where a statement starts, the tokens before it are a sheet by themselves.** -/
theorem Parser.StartsAt.parseTokens {options : ParseOptions} {stop : Location} {ts : List Token}
    {i : Nat} {events : List Event} (h : Parser.StartsAt options stop ts i events)
    (stop' : Location) :
    Sheet.parseTokens options (ts.take i) stop'
      = .ok (Sheet.ofEvents (.startDocument :: events)) := by
  obtain ⟨hi, phase, rest, hreach, hs⟩ := h
  have hm : ts.drop i ≠ [] := by simpa using hi
  rw [← List.take_append_drop i ts] at hreach
  obtain ⟨events', hstatements, hrun⟩ :=
    Parser.Reaches.statements_before hm hreach hs stop'
  rw [Sheet.parseTokens, Parser.sheet, Parser.ofTokens]
  dsimp only
  rw [hstatements]
  dsimp only
  rw [Sheet.ofEvents_document, Sheet.ofEvents_congr hrun]

/-- **Prefix stability.**  Wherever the loop over the statements of `ts` starts one, the tokens
before that one are a sheet by themselves, with the same options and wherever the text is said to
end, and the sheet has exactly what was built by then.  An unrecoverable error names the first
token of such a statement, and the sheet that comes with it is the sheet of the tokens before. -/
theorem Sheet.parseTokens_take (options : ParseOptions) (ts : List Token)
    (stop stop' : Location) :
    (∀ i events, Parser.StartsAt options stop ts i events →
      Sheet.parseTokens options (ts.take i) stop'
        = .ok (Sheet.ofEvents (.startDocument :: events))) ∧
    ∀ b, Sheet.parseTokens options ts stop = .error b →
      ∃ i events cause t, Parser.StartsAt options stop ts i events ∧ ts[i]? = some t ∧
        b.error = .unrecoverable cause t.loc ∧
        Sheet.parseTokens options (ts.take i) stop' = .ok b.built := by
  refine ⟨fun i events h => h.parseTokens stop', fun b hb => ?_⟩
  rw [Sheet.parseTokens, Parser.sheet, Parser.ofTokens] at hb
  dsimp only at hb
  split at hb
  · cases hb
  · next error herror =>
    cases hb
    obtain ⟨before, phase, rest, t, tail, cause, abandoned, hreach, hs, hcause, hab, hevents⟩ :=
      Parser.Reaches.broken .start herror
    rw [List.nil_append] at hevents
    have hsuf := Parser.skipBetween_suffix rest
    rw [hs] at hsuf
    obtain ⟨ps, hps⟩ := hsuf.trans hreach.suffix
    have hdrop : ts.drop ps.length = t :: tail := by rw [← hps, List.drop_left]
    have hstart : Parser.StartsAt options stop ts ps.length before := by
      refine ⟨?_, phase, rest, hreach, by rw [hs, hdrop]⟩
      rw [← hps, List.length_append, List.length_cons]
      omega
    refine ⟨ps.length, before, cause, t, hstart, ?_, hcause, ?_⟩
    · rw [← hps, List.getElem?_append_right (Nat.le_refl _), Nat.sub_self]
      rfl
    · rw [hstart.parseTokens stop', hevents, Sheet.ofEvents_document, Sheet.ofEvents_abandoned hab]

/-- The sheet that comes with the error at a stray brace is the sheet of the tokens before the
brace: one ruleset, a malformed statement behind it being skipped. -/
theorem Sheet.parseTokens_take_stray :
    ∃ i s, Sheet.parseTokens {} (scan "a\x7b\x7d@b;\x7dc") ⟨1, 9, 8⟩
        = .error ⟨.unrecoverable (.stray (.mark .closeBrace)) ⟨1, 7, 6⟩, s⟩ ∧
      Sheet.parseTokens {} ((scan "a\x7b\x7d@b;\x7dc").take i) ⟨1, 1, 0⟩ = .ok s ∧
      s = ⟨[.ruleset ⟨⟨[⟨[⟨some "a", [], .first⟩]⟩]⟩, []⟩]⟩ := by
  have h : Sheet.parseTokens {} (scan "a\x7b\x7d@b;\x7dc") ⟨1, 9, 8⟩
      = .error ⟨.unrecoverable (.stray (.mark .closeBrace)) ⟨1, 7, 6⟩,
          ⟨[.ruleset ⟨⟨[⟨[⟨some "a", [], .first⟩]⟩]⟩, []⟩]⟩⟩ := by
    with_unfolding_all rfl
  obtain ⟨i, _, _, _, _, _, _, hi⟩ :=
    (Sheet.parseTokens_take {} (scan "a\x7b\x7d@b;\x7dc") ⟨1, 9, 8⟩ ⟨1, 1, 0⟩).2 _ h
  exact ⟨i, _, h, hi, rfl⟩

end Css2
