import Css2.Proofs.Sheet.Depth

/-!
# Where declarations are read

Every declaration in a list, in a block, in a statement or in a sheet was read by the grammar of
single declarations somewhere among the tokens (`Declaration.ReadIn`), whatever was skipped before
it (`Parser.readIn_sheet`).  What holds of a declaration wherever it is read therefore holds of all
declarations of a sheet.
-/

namespace Css2

/-- The declaration is what the grammar reads somewhere among the tokens. -/
def Declaration.ReadIn (ts : List Token) (d : Declaration) : Prop :=
  ∃ n us rest, us <:+ ts ∧ Grammar.declaration n us = .ok (d, rest)

theorem Declaration.ReadIn.of_suffix {ts us : List Token} {d : Declaration} (h : d.ReadIn us)
    (hs : us <:+ ts) : d.ReadIn ts := by
  obtain ⟨n, vs, rest, hvs, hd⟩ := h
  exact ⟨n, vs, rest, hvs.trans hs, hd⟩

/-- The attempt reports a statement as a whole, and its declarations are read among the tokens. -/
def Attempt.ReadIn (ts : List Token) (a : Attempt) : Prop :=
  ∃ s : Statement, a.events = s.events ∧ ∀ d ∈ s.declarations, d.ReadIn ts

theorem Attempt.ReadIn.of_suffix {ts us : List Token} {a : Attempt} (h : a.ReadIn us)
    (hs : us <:+ ts) : a.ReadIn ts := by
  obtain ⟨s, hevents, hread⟩ := h
  exact ⟨s, hevents, fun d hd => (hread d hd).of_suffix hs⟩

namespace Grammar

/-! ### Lists and blocks -/

theorem declarations_readIn (n : Nesting) (inBlock : Bool) (ts : List Token) :
    ∀ d ∈ (declarations n inBlock ts).value, d.ReadIn ts := by
  fun_induction declarations n inBlock ts with
  | case1 => exact fun _ hd => absurd hd List.not_mem_nil
  | case2 => exact fun _ hd => absurd hd List.not_mem_nil
  | case3 ts t rest hs _ _ ih =>
    have hsuffix : t :: rest <:+ ts := hs ▸ skipTrivia_suffix ts
    exact fun d hd => (ih d hd).of_suffix ((List.suffix_cons t rest).trans hsuffix)
  | case4 ts t rest hs _ _ d after hd more ih =>
    have hsuffix : t :: rest <:+ ts := hs ▸ skipTrivia_suffix ts
    intro e he
    rcases List.mem_cons.1 he with rfl | he
    · rw [listedDeclaration] at hd
      obtain ⟨⟨e', us⟩, hread, hd⟩ := bind_eq_ok hd
      dsimp only at hd
      split at hd
      · cases hd
        exact ⟨n, t :: rest, after, hsuffix, hread⟩
      · cases hd
    · exact (ih e he).of_suffix ((listedDeclaration_stretch hd).suffix.trans hsuffix)
  | case5 ts t rest hs _ _ e hd more ih =>
    have hsuffix : t :: rest <:+ ts := hs ▸ skipTrivia_suffix ts
    exact fun d hd => (ih d hd).of_suffix ((skipDeclaration_suffix inBlock t rest).trans hsuffix)

theorem block_readIn {n : Nesting} {ts : List Token} {b : Lenient (List Declaration)}
    (h : block n ts = .ok b) : ∀ d ∈ b.value, d.ReadIn ts := by
  rw [block] at h
  obtain ⟨us, hbrace, h⟩ := bind_eq_ok h
  obtain ⟨deeper, _, h⟩ := bind_eq_ok h
  cases h
  obtain ⟨loc, rfl⟩ := expect_eq_ok hbrace
  exact fun d hd => (declarations_readIn deeper true us d hd).of_suffix (List.suffix_cons _ us)

/-! ### Statements -/

theorem ruleset_readIn {n : Nesting} {ts : List Token} {r : Lenient Ruleset}
    (h : ruleset n ts = .ok r) : ∀ d ∈ r.value.declarations, d.ReadIn ts := by
  rw [ruleset] at h
  obtain ⟨⟨s, us⟩, hs, h⟩ := bind_eq_ok h
  obtain ⟨b, hb, h⟩ := bind_eq_ok h
  cases h
  exact fun d hd => (block_readIn hb d hd).of_suffix (selector_stretch hs).suffix

theorem readIn_of_behind {ts rest : List Token} {d : Declaration} (hd : d.ReadIn rest)
    (h : rest ≠ [] → Behind ts rest) : d.ReadIn ts := by
  by_cases hrest : rest = []
  · exact hd.of_suffix (hrest ▸ List.nil_suffix)
  · exact hd.of_suffix (h hrest).suffix

theorem mediaBody_readIn (n : Nesting) (ts : List Token) :
    ∀ d ∈ (mediaBody n ts).rules.flatMap Ruleset.declarations, d.ReadIn ts := by
  fun_induction mediaBody n ts with
  | case1 => exact fun _ hd => absurd hd List.not_mem_nil
  | case2 => exact fun _ hd => absurd hd List.not_mem_nil
  | case3 ts t rest hs _ r hr more ih =>
    have hsuffix : t :: rest <:+ ts := hs ▸ skipTrivia_suffix ts
    intro d hd
    rcases List.mem_append.1 hd with hd | hd
    · exact (ruleset_readIn hr d hd).of_suffix hsuffix
    · exact (readIn_of_behind (ih d hd) (ruleset_behind hr)).of_suffix hsuffix
  | case4 => exact fun _ hd => absurd hd List.not_mem_nil
  | case5 ts t rest hs _ e hr after hk more ih =>
    have hsuffix : t :: rest <:+ ts := hs ▸ skipTrivia_suffix ts
    exact fun d hd => (readIn_of_behind (ih d hd) (skipStatement_behind hk)).of_suffix hsuffix

theorem tryRuleset_readIn {n : Nesting} {ts rest : List Token}
    (h : (tryRuleset n ts).result = .ok rest) : (tryRuleset n ts).ReadIn ts := by
  rw [tryRuleset] at h ⊢
  split at h
  · cases h
  · next r hr => exact ⟨.ruleset r.value, rfl, ruleset_readIn hr⟩

theorem tryCharset_readIn {ts rest : List Token} (h : (tryCharset ts).result = .ok rest) :
    (tryCharset ts).ReadIn ts := by
  rw [tryCharset] at h ⊢
  split at h
  · cases h
  · next name _ _ => exact ⟨.charset name, rfl, fun _ hd => absurd hd List.not_mem_nil⟩

theorem tryImport_readIn {ts rest : List Token} (h : (tryImport ts).result = .ok rest) :
    (tryImport ts).ReadIn ts := by
  rw [tryImport] at h ⊢
  split at h
  · cases h
  · next url names _ _ =>
    exact ⟨.importSheet url names, rfl, fun _ hd => absurd hd List.not_mem_nil⟩

theorem tryMedia_readIn {n : Nesting} {ts rest : List Token}
    (h : (tryMedia n ts).result = .ok rest) : (tryMedia n ts).ReadIn ts := by
  rw [tryMedia] at h ⊢
  split at h
  · cases h
  · next names deeper us hm =>
    dsimp only at h ⊢
    split at h
    · exact ⟨.media names _, rfl, fun d hd =>
        (mediaBody_readIn deeper us d hd).of_suffix (mediaHead_suffix hm)⟩
    · cases h

theorem tryPage_readIn {n : Nesting} {ts rest : List Token}
    (h : (tryPage n ts).result = .ok rest) : (tryPage n ts).ReadIn ts := by
  rw [tryPage] at h ⊢
  split at h
  · cases h
  · next name pseudo b hr =>
    rw [page] at hr
    dsimp only at hr
    obtain ⟨⟨pseudo', us⟩, hp, hr⟩ := bind_eq_ok hr
    obtain ⟨b', hb, hr⟩ := bind_eq_ok hr
    cases hr
    refine ⟨.page _ _ b.value, rfl, fun d hd => (block_readIn hb d hd).of_suffix ?_⟩
    calc skipTrivia us <:+ us := skipTrivia_suffix us
      _ <:+ (pageName (skipTrivia ts)).2 := (pagePseudo_stretch hp).suffix
      _ <:+ skipTrivia ts := (pageName_stretch _).suffix
      _ <:+ ts := skipTrivia_suffix ts

theorem tryFontFace_readIn {n : Nesting} {ts rest : List Token}
    (h : (tryFontFace n ts).result = .ok rest) : (tryFontFace n ts).ReadIn ts := by
  rw [tryFontFace] at h ⊢
  split at h
  · cases h
  · next b hb =>
    exact ⟨.fontFace b.value, rfl, fun d hd =>
      (block_readIn hb d hd).of_suffix (skipTrivia_suffix ts)⟩

/-- **The declarations of a statement are read among its tokens.** -/
theorem tryStatement_readIn {n : Nesting} {phase : Phase} {ts rest : List Token}
    (h : (tryStatement n phase ts).result = .ok rest) : (tryStatement n phase ts).ReadIn ts := by
  have htail := List.tail_suffix ts
  rw [tryStatement] at h ⊢
  split at h
  · exact tryRuleset_readIn h
  · split at h
    · next hphase =>
      rw [if_pos hphase]
      exact (tryCharset_readIn h).of_suffix htail
    · cases h
  · split at h
    · cases h
    · next hphase =>
      rw [if_neg hphase]
      exact (tryImport_readIn h).of_suffix htail
  · exact (tryMedia_readIn h).of_suffix htail
  · exact (tryPage_readIn h).of_suffix htail
  · exact (tryFontFace_readIn h).of_suffix htail
  · cases h

end Grammar

/-! ### Sheets -/

namespace Parser

open Protocol

theorem Reaches.readIn {options : ParseOptions} {stop : Location} {ts rest : List Token}
    {events : List Event} {phase : Phase} (h : Reaches options stop ts events phase rest) :
    ∃ ss : List Statement, Accounts events ss ∧
      ∀ s ∈ ss, ∀ d ∈ s.declarations, d.ReadIn ts := by
  induction h with
  | start => exact ⟨[], .nil, fun _ hs => absurd hs List.not_mem_nil⟩
  | @read events phase rest tail after t hreach hs hr ih =>
    obtain ⟨ss, hss, hread⟩ := ih
    obtain ⟨s, hevents, hstatement⟩ := Grammar.tryStatement_readIn hr
    have hsuffix : t :: tail <:+ ts := (hs ▸ skipBetween_suffix rest).trans hreach.suffix
    have hone : Accounts s.events [s] := by simpa using Accounts.statement s .nil
    rw [hevents]
    refine ⟨ss ++ [s], hss.append hone, fun k hk d hd => ?_⟩
    rcases List.mem_append.1 hk with hk | hk
    · exact hread k hk d hd
    · rw [List.mem_singleton.1 hk] at hd
      exact (hstatement d hd).of_suffix hsuffix
  | @skipped events phase rest tail after t e _ _ hr _ _ ih =>
    obtain ⟨ss, hss, hread⟩ := ih
    have habandoned := reported_tryStatement ⟨options.maxNesting, 0⟩ phase (t :: tail)
    rw [Reported, hr] at habandoned
    refine ⟨ss, ?_, hread⟩
    simpa using hss.append (.rejected (e.toError stop) habandoned .nil)

/-- **The declarations of a sheet are read among its tokens**, also if the sheet ends at a statement
that can be neither read nor skipped. -/
theorem readIn_sheet (p : Parser) :
    ∀ s ∈ (Sheet.ofEvents p.sheet.events).statements, ∀ d ∈ s.declarations,
      d.ReadIn p.tokens := by
  have haccount : ∃ ss, Account p.sheet.result p.sheet.events ss ∧
      ∀ s ∈ ss, ∀ d ∈ s.declarations, d.ReadIn p.tokens := by
    rw [sheet]
    dsimp only
    cases hr : (statements p.options p.stop .start p.tokens).result with
    | ok _ =>
      obtain ⟨events, phase, rest, hreach, hs⟩ := Reaches.ended .start hr
      obtain ⟨ss, hss, hread⟩ := hreach.readIn
      rw [hreach.statements_of_ended hs]
      exact ⟨ss, .complete hss, hread⟩
    | error error =>
      obtain ⟨events, phase, rest, t, tail, cause, fs, hreach, -, -, habandoned, hevents⟩ :=
        Reaches.broken .start hr
      obtain ⟨ss, hss, hread⟩ := hreach.readIn
      rw [show (statements p.options p.stop .start p.tokens).events = _ from hevents]
      exact ⟨ss, .broken error hss habandoned, hread⟩
  obtain ⟨ss, hss, hread⟩ := haccount
  rw [hss.ofEvents]
  exact hread

/-- **The declarations of a statement that is read by itself** are read among its tokens, too. -/
theorem readIn_statement (p : Parser) :
    ∀ s ∈ (Sheet.ofEvents p.statement.events).statements, ∀ d ∈ s.declarations,
      d.ReadIn p.tokens := by
  have hidle : Builder.empty.Idle := ⟨rfl, rfl⟩
  unfold statement
  dsimp only
  cases hr : (Grammar.tryStatement p.nesting .start (skipBetween p.tokens)).result with
  | ok rest =>
    obtain ⟨s, hs, hread⟩ := Grammar.tryStatement_readIn hr
    dsimp only
    rw [hs, Sheet.ofEvents, Builder.run_statement hidle]
    intro t ht d hd
    obtain rfl := List.mem_singleton.1 ht
    exact (hread d hd).of_suffix (skipBetween_suffix p.tokens)
  | error e =>
    have habandoned := Protocol.reported_tryStatement p.nesting .start (skipBetween p.tokens)
    rw [Protocol.Reported, hr] at habandoned
    dsimp only
    rw [Sheet.ofEvents, Builder.run_error habandoned]
    exact fun _ hs => absurd hs List.not_mem_nil

end Parser

end Css2
