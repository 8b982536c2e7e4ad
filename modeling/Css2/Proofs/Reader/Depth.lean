import Css2.Proofs.Reader.Call
import Css2.Proofs.Sheet.Depth

/-!
# How deep a reader goes

The options set a limit to the number of blocks and brackets that a reader is inside of at once.  It
keeps to the limit in every call, also on the paths that fail and on those that skip
(`Reader.call_depth`): `Reader.deepest` remembers all that the count ever was, and `Sunk` bounds it
across each step.  When a call ends the count is zero again, so that the next call has as many
levels as the first one.

The count is exact, so what is read is no deeper either: the functions of a value are as many as
there are levels, and those in a sheet leave room for the blocks around them.
-/

namespace Css2

/-! ### What calls give back -/

def Call.Answer.values : Call.Answer → List (List Term)
  | declarations ds => ds.map Declaration.value
  | declaration d => [d.value]
  | value v => [v]
  | done | selector _ => []

theorem Parser.construct_result {α : Type}
    {g : Nesting → List Token → Except Failure (α × List Token)} {p : Parser} {a : α}
    (h : (p.construct g).result = .ok a) :
    ∃ rest, g p.nesting (Grammar.skipTrivia p.tokens) = .ok (a, rest) := by
  unfold construct at h
  dsimp only at h
  cases hr : g p.nesting (Grammar.skipTrivia p.tokens) with
  | ok x =>
    rw [hr] at h
    cases h
    exact ⟨x.2, rfl⟩
  | error e =>
    rw [hr] at h
    cases h

theorem Parser.Outcome.map_ok {α β : Type} {f : α → β} {o : Parser.Outcome α} {b : β}
    (h : (o.map f).result = .ok b) : ∃ a, o.result = .ok a ∧ f a = b := by
  unfold map at h
  cases hr : o.result with
  | ok a =>
    rw [hr] at h
    exact ⟨a, rfl, Except.ok.inj h⟩
  | error e =>
    rw [hr] at h
    cases h

theorem Parser.construct_events {α : Type}
    (p : Parser) (g : Nesting → List Token → Except Failure (α × List Token)) :
    (p.construct g).events = [] := by
  unfold construct
  dsimp only
  cases g p.nesting (Grammar.skipTrivia p.tokens) <;> rfl

/-- **The functions of the values that a call gives back are no deeper than the limit.** -/
theorem Call.outcome_functionDepth {c : Call} {p : Parser} {answer : Call.Answer}
    (h : (c.outcome p).result = .ok answer) :
    ∀ v ∈ answer.values, Term.functionDepthAll v ≤ p.options.maxNesting := by
  cases c with
  | declarationList =>
    cases h
    intro v hv
    obtain ⟨d, hd, rfl⟩ := List.mem_map.1 hv
    exact Grammar.declarations_functionDepth p.nesting false p.tokens d hd
  | declaration =>
    obtain ⟨d, hd, rfl⟩ := Parser.Outcome.map_ok h
    obtain ⟨rest, hread⟩ := Parser.construct_result hd
    intro v hv
    obtain rfl := List.mem_singleton.1 hv
    exact Grammar.declaration_functionDepth hread
  | value =>
    obtain ⟨v, hv, rfl⟩ := Parser.Outcome.map_ok h
    obtain ⟨rest, hread⟩ := Parser.construct_result hv
    intro w hw
    obtain rfl := List.mem_singleton.1 hw
    exact Grammar.terms_functionDepth hread
  | theEnd =>
    change p.expectEnd.1.map _ = _ at h
    cases hr : p.expectEnd.1 with
    | ok _ =>
      rw [hr] at h
      cases h
      simp [Answer.values]
    | error e =>
      rw [hr] at h
      cases h
  | _ =>
    -- the others give back no value
    obtain ⟨a, -, rfl⟩ := Parser.Outcome.map_ok h
    simp [Answer.values]

/-- **The functions of a statement that is read by itself fit**, too. -/
theorem Parser.fits_statement (p : Parser) :
    ∀ s ∈ (Sheet.ofEvents p.statement.events).statements, s.Fits p.options.maxNesting := by
  have hidle : Builder.empty.Idle := ⟨rfl, rfl⟩
  unfold statement
  dsimp only
  cases hr : (Grammar.tryStatement p.nesting .start (skipBetween p.tokens)).result with
  | ok rest =>
    obtain ⟨s, hs, hfits⟩ := Grammar.tryStatement_fits hr
    dsimp only
    rw [hs, Sheet.ofEvents, Builder.run_statement hidle]
    intro t ht
    obtain rfl := List.mem_singleton.1 ht
    exact hfits
  | error e =>
    have habandoned := Protocol.reported_tryStatement p.nesting .start (skipBetween p.tokens)
    rw [Protocol.Reported, hr] at habandoned
    dsimp only
    rw [Sheet.ofEvents, Builder.run_error habandoned]
    exact fun _ hs => by cases hs

/-- **The functions in the statements that a call reports fit.** -/
theorem Call.fits_outcome (c : Call) (p : Parser) :
    ∀ s ∈ (Sheet.ofEvents (c.outcome p).events).statements, s.Fits p.options.maxNesting := by
  have hnone : ∀ s ∈ (Sheet.ofEvents []).statements, s.Fits p.options.maxNesting :=
    fun _ hs => by cases hs
  cases c with
  | sheet => exact Sheet.fits_ofEvents p
  | statement => exact p.fits_statement
  | declaration => exact (p.construct_events Grammar.declaration).symm ▸ hnone
  | selector => exact (p.construct_events fun _ => Grammar.selector).symm ▸ hnone
  | value => exact (p.construct_events Grammar.terms).symm ▸ hnone
  | _ => exact hnone

namespace Reader

/-- **The limit bounds everything.**  After any calls, any call leaves the count of open blocks and
brackets at zero, and up to then the count was never greater than the limit.  The functions of a
value that the call gives back are no deeper than the limit, and those in the statements that it
reports leave room for the blocks around them, one for `@media` and one for the declarations.  So do
those in a sheet, whether it is whole or ends at an unrecoverable error. -/
theorem call_depth (source : TokenStream) (options : ParseOptions) (cs : List Call) (c : Call) :
    ∃ r result r', (ofStream source options).calls cs = some r ∧ r.call c = some (result, r') ∧
      r.deepest ≤ r'.deepest ∧ r'.deepest ≤ options.maxNesting ∧ r'.depth = 0 ∧
      (∀ answer, result = .ok answer → ∀ v ∈ answer.values,
        Term.functionDepthAll v ≤ options.maxNesting) ∧
      (∀ s ∈ (Sheet.ofEvents r'.events).statements, ∀ d ∈ s.declarations,
        Term.functionDepthAll d.value + s.depth ≤ options.maxNesting) ∧
      ∀ s ∈ (Sheet.builtBy (Sheet.parseTokens options source.unread source.stop)).statements,
        ∀ d ∈ s.declarations, Term.functionDepthAll d.value + s.depth ≤ options.maxNesting := by
  obtain ⟨r, hr, hk, -⟩ := calls_eq cs (ofStream source options) rfl
  obtain ⟨r', hr', hk', he', -⟩ := call_eq c r hk.depth
  have hoptions : r.options = options := hk.options
  have hdeepest : r.deepest ≤ options.maxNesting := by
    have hle := hk.le_max
    exact Nat.le_trans hle (Nat.max_le.2 ⟨Nat.zero_le _, Nat.le_refl _⟩)
  refine ⟨r, _, r', hr, hr', hk'.le, ?_, hk'.depth.trans hk.depth, ?_, ?_, ?_⟩
  · have hle := hk'.le_max
    rw [hoptions] at hle
    exact Nat.le_trans hle (Nat.max_le.2 ⟨hdeepest, Nat.le_refl _⟩)
  · intro answer hanswer
    rw [← hoptions]
    exact Call.outcome_functionDepth hanswer
  · rw [he', ← hoptions]
    exact c.fits_outcome r.parser
  · rw [Sheet.builtBy_parseTokens, ← Sheet.ofEvents_document]
    exact Sheet.fits_ofEvents (Parser.ofTokens source.unread source.stop options)

/-- Where two levels are allowed, a value has both of them, also behind a ruleset that used them. -/
theorem call_depth_reached :
    ∃ r v r', (ofStream (TokenStream.ofText "a\x7bb:c(d)\x7df(g(h))") { maxNesting := 2 }).calls
        [.statement] = some r ∧
      r.call .value = some (.ok (.value v), r') ∧ Term.functionDepthAll v = 2 ∧
      r'.deepest ≤ 2 ∧ r'.depth = 0 := by
  obtain ⟨r, result, r', hr, hcall, -, hdeepest, hdepth, -⟩ :=
    call_depth (TokenStream.ofText "a\x7bb:c(d)\x7df(g(h))") { maxNesting := 2 } [.statement] .value
  have hresult := result_of_calls hr hcall
  rw [show (Call.outcome _ _).result = .ok (.value [⟨.function "f"
      [⟨.function "g" [⟨.ident "h", none, none⟩], none, none⟩], none, none⟩]) by
    with_unfolding_all rfl] at hresult
  subst hresult
  exact ⟨r, _, r', hr, hcall, rfl, hdeepest, hdepth⟩

end Reader

end Css2
