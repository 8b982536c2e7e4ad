import Css2.Proofs.Reader.Depth
import Css2.Proofs.Sheet.Places
import Css2.Proofs.Term.Signs

/-!
# The signs of what a reader reads

The terms that a call gives back or reports are written among the tokens that were unread
(`Reader.call_signs`): a number is that of its token, the sign that the token has included, and a
sign of its own is the delimiter right before this token.  So only tokens in which a number has a
sign right before it, and texts in which two signs are side by side, give a number a sign of its
own.
-/

namespace Css2

/-- The terms of a declaration that is read are written there, with the colon before them. -/
theorem Declaration.ReadIn.written {ts : List Token} {d : Declaration} (h : d.ReadIn ts) :
    ∀ u ∈ d.terms, u.WrittenIn ts := by
  obtain ⟨n, us, rest, hus, hd⟩ := h
  rw [Grammar.declaration] at hd
  obtain ⟨⟨property, vs⟩, hproperty, hd⟩ := Grammar.bind_eq_ok hd
  obtain ⟨ws, hcolon, hd⟩ := Grammar.bind_eq_ok hd
  obtain ⟨⟨value, final⟩, hterms, hd⟩ := Grammar.bind_eq_ok hd
  obtain ⟨loc, hcolon⟩ := Grammar.expect_eq_ok hcolon
  have hvalue : d.value = value := by
    dsimp only at hd
    split at hd <;> (cases hd; rfl)
  have hsuffix : ⟨.mark .colon, loc⟩ :: ws <:+ ts := by
    rw [← hcolon]
    calc Grammar.skipTrivia vs <:+ vs := Grammar.skipTrivia_suffix vs
      _ <:+ us := (Grammar.ident_stretch hproperty).suffix
      _ <:+ ts := hus
  obtain ⟨mid, rfl, hmid⟩ :=
    (Grammar.Leaves.of_suffix hsuffix rfl).trans (Grammar.leaves_skipTrivia ws)
  rw [terms, hvalue]
  exact Grammar.terms_written hmid hterms

/-! ### What calls give back -/

/-- **The terms that a call gives back are written among the tokens.** -/
theorem Call.outcome_written {c : Call} {p : Parser} {answer : Call.Answer}
    (h : (c.outcome p).result = .ok answer) :
    ∀ v ∈ answer.values, ∀ u ∈ Term.nestedAll v, u.WrittenIn p.tokens := by
  cases c with
  | declarationList =>
    cases h
    intro v hv
    obtain ⟨d, hd, rfl⟩ := List.mem_map.1 hv
    exact (Grammar.declarations_readIn p.nesting false p.tokens d hd).written
  | declaration =>
    obtain ⟨d, hd, rfl⟩ := Parser.Outcome.map_ok h
    obtain ⟨rest, hread⟩ := Parser.construct_result hd
    intro v hv
    obtain rfl := List.mem_singleton.1 hv
    exact Declaration.ReadIn.written ⟨_, _, _, Grammar.skipTrivia_suffix p.tokens, hread⟩
  | value =>
    obtain ⟨v, hv, rfl⟩ := Parser.Outcome.map_ok h
    obtain ⟨rest, hread⟩ := Parser.construct_result hv
    obtain ⟨blank, hblank, hsign⟩ := Grammar.leaves_skipTrivia p.tokens
    intro w hw
    obtain rfl := List.mem_singleton.1 hw
    rw [hblank]
    exact Grammar.terms_written hsign hread
  | theEnd =>
    change p.expectEnd.1.map _ = _ at h
    cases hr : p.expectEnd.1 with
    | ok _ =>
      rw [hr] at h
      cases h
      exact fun _ hv => absurd hv List.not_mem_nil
    | error e =>
      rw [hr] at h
      cases h
  | _ =>
    -- the others give back no value
    obtain ⟨a, -, rfl⟩ := Parser.Outcome.map_ok h
    exact fun _ hv => absurd hv List.not_mem_nil

/-- **The terms in the statements that a call reports are written among the tokens.** -/
theorem Call.written_outcome (c : Call) (p : Parser) :
    ∀ s ∈ (Sheet.ofEvents (c.outcome p).events).statements, ∀ d ∈ s.declarations,
      ∀ u ∈ d.terms, u.WrittenIn p.tokens := by
  have hnone : ∀ s ∈ (Sheet.ofEvents []).statements, ∀ d ∈ s.declarations,
      ∀ u ∈ d.terms, u.WrittenIn p.tokens := fun _ hs => absurd hs List.not_mem_nil
  cases c with
  | sheet => exact fun s hs d hd => (p.readIn_sheet s hs d hd).written
  | statement => exact fun s hs d hd => (p.readIn_statement s hs d hd).written
  | declaration => exact (p.construct_events Grammar.declaration).symm ▸ hnone
  | selector => exact (p.construct_events fun _ => Grammar.selector).symm ▸ hnone
  | value => exact (p.construct_events Grammar.terms).symm ▸ hnone
  | _ => exact hnone

/-- The signs of a term that is read from the tokens: it is written among them, and if no number
there has a sign right before its token, the sign of a number is in its token alone. -/
def Term.SignedBy (ts : List Token) (u : Term) : Prop :=
  u.WrittenIn ts ∧ (Unsigned ts → ∀ q, u.value = .number q → u.sign = none)

theorem Term.WrittenIn.signedBy {ts : List Token} {u : Term} (h : u.WrittenIn ts) : u.SignedBy ts :=
  ⟨h, fun hts _ => h.sign_eq_none hts⟩

theorem Sheet.signed_builtBy (options : ParseOptions) (ts : List Token) (stop : Location) :
    ∀ s ∈ (Sheet.builtBy (Sheet.parseTokens options ts stop)).statements,
      ∀ d ∈ s.declarations, ∀ u ∈ d.terms, u.SignedBy ts := by
  rw [Sheet.builtBy_parseTokens, ← Sheet.ofEvents_document]
  exact fun s hs d hd u hu =>
    (Call.written_outcome .sheet (Parser.ofTokens ts stop options) s hs d hd u hu).signedBy

namespace Reader

/-- **A sign of its own is a sign right before the token.**  After any calls, every term that a call
gives back or reports, at any depth, is written among the tokens that were unread: its sign is the
delimiter right before its token, and only numbers and functions have one.  Where no number has a
sign right before its token, only functions have one.  The same is true of the terms of a sheet. -/
theorem call_signs (source : TokenStream) (options : ParseOptions) (cs : List Call) (c : Call) :
    ∃ r result r', (ofStream source options).calls cs = some r ∧ r.call c = some (result, r') ∧
      (∀ answer, result = .ok answer → ∀ v ∈ answer.values, ∀ u ∈ Term.nestedAll v,
        u.SignedBy r.unread) ∧
      (∀ s ∈ (Sheet.ofEvents r'.events).statements, ∀ d ∈ s.declarations, ∀ u ∈ d.terms,
        u.SignedBy r.unread) ∧
      ∀ s ∈ (Sheet.builtBy (Sheet.parseTokens options source.unread source.stop)).statements,
        ∀ d ∈ s.declarations, ∀ u ∈ d.terms, u.SignedBy source.unread := by
  obtain ⟨r, hr, hk, -⟩ := calls_eq cs (ofStream source options) rfl
  obtain ⟨r', hr', -, he', -⟩ := call_eq c r hk.depth
  refine ⟨r, _, r', hr, hr', ?_, ?_, Sheet.signed_builtBy options source.unread source.stop⟩
  · exact fun _ hanswer v hv u hu => (Call.outcome_written hanswer v hv u hu).signedBy
  · rw [he']
    exact fun s hs d hd u hu => (c.written_outcome r.parser s hs d hd u hu).signedBy

/-- **A number may have a sign of its own**: in `-+5` there is one before the token `+5`. -/
theorem not_call_unsigned :
    ¬ ∀ (source : TokenStream) (options : ParseOptions) (v : List Term) (r : Reader),
      (ofStream source options).call .value = some (.ok (.value v), r) →
        ∀ u ∈ Term.nestedAll v, ∀ q, u.value = .number q → u.sign = none := by
  intro h
  obtain ⟨q, hq⟩ : ∃ q, (Call.outcome (Parser.ofText "-+5" {}) .value).result
      = .ok (.value [⟨.number q, some .minus, none⟩]) := by
    refine ⟨⟨(Scan.takeNumber ['+', '5']).1.1.toFloat, .none⟩, ?_⟩
    with_unfolding_all rfl
  obtain ⟨r, hr, -⟩ := call_eq .value (ofStream (TokenStream.ofText "-+5") {}) rfl
  have hresult : (Call.outcome (ofStream (TokenStream.ofText "-+5") {}).parser .value).result
      = .ok (.value [⟨.number q, some .minus, none⟩]) := hq
  rw [hresult] at hr
  cases h _ _ _ _ hr _ (Term.Plain.mem_nestedAll _ _) q rfl

end Reader

/-- **In a text whose signs are apart no number has a sign of its own.** -/
theorem Sheet.signs_parseWith {text : String} (h : Scan.SignsApart text.toList)
    (options : ParseOptions) :
    ∀ u ∈ (Sheet.builtBy (Sheet.parseWith options text)).terms, ∀ q, u.value = .number q →
      u.sign = none := by
  intro u hu q hq
  obtain ⟨s, hs, hu⟩ := List.mem_flatMap.1 hu
  obtain ⟨d, hd, hu⟩ := List.mem_flatMap.1 hu
  exact (signed_builtBy options (scan text) (endOf text) s hs d hd u hu).2 (unsigned_scan h) q hq

end Css2
