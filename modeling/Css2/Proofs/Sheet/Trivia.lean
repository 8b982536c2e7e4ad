import Css2.Proofs.Grammar.Trivia
import Css2.Proofs.Sheet.Prefix

/-!
# A sheet does not depend on how trivia is written

What is malformed is skipped token by token, trivia included, so here a run of trivia is read in as
many steps as it has tokens.  None of them leaves a mark: what opens and closes brackets is never
trivia.  With that, the statements of two texts that are alike are the same, those that are dropped
as well as those that are kept, and so are the sheets (`Sheet.parseTokens_alike`), in particular
those of texts in which trivia is only written in another way (`Sheet.parseTokens_condense`).

Selectors and the names of pages are read alike in the heads of blocks only.  What does not head a
block is no ruleset and no page in either text (`ruleset_error`, `page_error`).
-/

namespace Css2

namespace Grammar

variable {ts us : List Token}

/-! ### Skipping with the core grammar -/

theorem contents_trivia (n : Nesting) (closer : Mark) (t : Token) (ts : List Token)
    (ht : t.lexeme.isTrivia = true) : contents n closer (t :: ts) = contents n closer ts := by
  obtain ⟨l, loc⟩ := t
  rw [contents_eq]
  cases l <;> first | rfl | cases ht

theorem contents_alike {n : Nesting} {closer : Mark} (h : Alike ts us) :
    Agree Alike (contents n closer ts) (contents n closer us) := by
  induction hlen : ts.length using Nat.strongRecOn generalizing n closer ts us with
  | ind len ih =>
    cases h with
    | nil =>
      rw [contents_eq]
      exact .ok .nil
    | @token l loc loc' ts us hl hgap h =>
      rw [List.length_cons] at hlen
      rw [contents_eq, contents_eq n closer (_ :: us)]
      dsimp only
      split
      · exact .ok h
      · split
        · refine (enter_alike n ts us).bind ?_
          rintro deeper _ - rfl
          refine (ih _ (by omega) h rfl).bind fun after after' ha h => ?_
          have hle := contents_le ha
          exact ih _ (by omega) h rfl
        · split
          · exact ih _ (by omega) h rfl
          · exact .error
    | @trivia l l' loc loc' ts us hl hl' hs h =>
      -- the runs need not have the same length, so both are skipped before the induction goes on
      rw [contents_trivia _ _ _ _ hl, contents_trivia _ _ _ _ hl',
        eq_skipTrivia (contents_trivia n closer) ts, eq_skipTrivia (contents_trivia n closer) us]
      exact ih _ (hlen ▸ Nat.lt_succ_of_le (skipTrivia_le ts)) h rfl
    | @comments l loc ts us hl hs h =>
      rw [contents_trivia _ _ _ _ hl, eq_skipTrivia (contents_trivia n closer) ts]
      exact ih _ (hlen ▸ Nat.lt_succ_of_le (skipTrivia_le ts)) h rfl

theorem brackets_alike {n : Nesting} {closer : Mark} (h : Alike ts us) :
    Agree Alike (brackets n closer ts) (brackets n closer us) := by
  refine (enter_alike n ts us).bind ?_
  rintro deeper _ - rfl
  exact contents_alike h

theorem skipTail_trivia (n : Nesting) (atRule : Bool) (t : Token) (ts : List Token)
    (ht : t.lexeme.isTrivia = true) : skipTail n atRule (t :: ts) = skipTail n atRule ts := by
  obtain ⟨l, loc⟩ := t
  rw [skipTail_eq]
  cases l <;> first | (cases atRule <;> rfl) | cases ht

theorem skipTail_alike {n : Nesting} {atRule : Bool} (h : Alike ts us) :
    Agree Alike (skipTail n atRule ts) (skipTail n atRule us) := by
  induction hlen : ts.length using Nat.strongRecOn generalizing ts us with
  | ind len ih =>
    cases h with
    | nil =>
      rw [skipTail_eq]
      exact .ok .nil
    | @token l loc loc' ts us hl hgap h =>
      rw [List.length_cons] at hlen
      rw [skipTail_eq, skipTail_eq n atRule (_ :: us)]
      dsimp only
      split
      · exact brackets_alike h
      · split
        · exact .ok h
        · split
          · refine (brackets_alike h).bind fun after after' ha h => ?_
            have hle := brackets_le ha
            exact ih _ (by omega) h rfl
          · split
            · exact ih _ (by omega) h rfl
            · exact .error
    | @trivia l l' loc loc' ts us hl hl' hs h =>
      rw [skipTail_trivia _ _ _ _ hl, skipTail_trivia _ _ _ _ hl',
        eq_skipTrivia (skipTail_trivia n atRule) ts, eq_skipTrivia (skipTail_trivia n atRule) us]
      exact ih _ (hlen ▸ Nat.lt_succ_of_le (skipTrivia_le ts)) h rfl
    | @comments l loc ts us hl hs h =>
      rw [skipTail_trivia _ _ _ _ hl, eq_skipTrivia (skipTail_trivia n atRule) ts]
      exact ih _ (hlen ▸ Nat.lt_succ_of_le (skipTrivia_le ts)) h rfl

/-- **What cannot be read is skipped alike.** -/
theorem skipStatement_alike {n : Nesting} (h : Front ts us) :
    Agree Alike (skipStatement n ts) (skipStatement n us) := by
  obtain ⟨rfl, rfl⟩ | ⟨l, loc, loc', ts, us, hl, rfl, rfl, hrest⟩ := h.cases
  · exact .error
  · cases l with
    | atKeyword name => exact skipTail_alike hrest.alike
    | _ => exact skipTail_alike h.alike

/-! ### Declarations -/

theorem skipRest_trivia (inBlock : Bool) (closers : List Mark) (t : Token) (ts : List Token)
    (ht : t.lexeme.isTrivia = true) :
    skipRest inBlock closers (t :: ts) = skipRest inBlock closers ts := by
  obtain ⟨l, loc⟩ := t
  cases l <;> first | (cases closers <;> cases inBlock <;> rfl) | cases ht

theorem skipRest_alike {inBlock : Bool} {closers : List Mark} (h : Alike ts us) :
    Alike (skipRest inBlock closers ts) (skipRest inBlock closers us) := by
  induction hlen : ts.length using Nat.strongRecOn generalizing closers ts us with
  | ind len ih =>
    cases h with
    | nil => exact .nil
    | @token l loc loc' ts us hl hgap h =>
      unfold skipRest
      dsimp only
      split
      · exact h
      · split
        · exact .token hl hgap h
        · exact ih _ (hlen ▸ Nat.lt_succ_self _) h rfl
    | @trivia l l' loc loc' ts us hl hl' hs h =>
      rw [skipRest_trivia _ _ _ _ hl, skipRest_trivia _ _ _ _ hl',
        eq_skipTrivia (skipRest_trivia inBlock closers) ts,
        eq_skipTrivia (skipRest_trivia inBlock closers) us]
      exact ih _ (hlen ▸ Nat.lt_succ_of_le (skipTrivia_le ts)) h rfl
    | @comments l loc ts us hl hs h =>
      rw [skipRest_trivia _ _ _ _ hl, eq_skipTrivia (skipRest_trivia inBlock closers) ts]
      exact ih _ (hlen ▸ Nat.lt_succ_of_le (skipTrivia_le ts)) h rfl

theorem skipDeclaration_alike {inBlock : Bool} {l : Lexeme} {loc loc' : Location}
    (h : Alike ts us) :
    Alike (skipDeclaration inBlock ⟨l, loc⟩ ts) (skipDeclaration inBlock ⟨l, loc'⟩ us) := by
  unfold skipDeclaration
  dsimp only
  split
  · exact h
  · exact skipRest_alike h

/-- The same value was read, and the rests are alike.  The failures on the way need not be the
same. -/
def SameLenient {α : Type} (x y : Lenient α) : Prop :=
  x.value = y.value ∧ Alike x.rest y.rest

/-- **Declarations are read alike**, and those that are malformed are skipped alike. -/
theorem declarations_alike {n : Nesting} {inBlock : Bool} (h : Alike ts us) :
    SameLenient (declarations n inBlock ts) (declarations n inBlock us) := by
  induction hlen : ts.length using Nat.strongRecOn generalizing ts us with
  | ind len ih =>
    have hle := skipTrivia_le ts
    rw [declarations_eq, declarations_eq n inBlock us]
    rcases h.skipTrivia_cases with ⟨hs, hs'⟩ | ⟨l, loc, loc', ts, us, hl, hs, hs', h⟩
    · rw [hs, hs']
      exact ⟨rfl, .nil⟩
    · rw [hs, List.length_cons] at hle
      rw [hs, hs']
      dsimp only
      split
      · exact ⟨rfl, h.alike⟩
      · split
        · exact ih _ (by omega) h.alike rfl
        · have hfront : Front (⟨l, loc⟩ :: ts) (⟨l, loc'⟩ :: us) := h.cons hl
          have hd := listedDeclaration_alike (n := n) hfront
          have hlt := @listedDeclaration_lt n (⟨l, loc⟩ :: ts)
          generalize listedDeclaration n (⟨l, loc⟩ :: ts) = r at hd hlt
          generalize listedDeclaration n (⟨l, loc'⟩ :: us) = r' at hd
          cases hd with
          | error =>
            have hskip := skipDeclaration_le inBlock ⟨l, loc⟩ ts
            exact ih _ (by omega) (skipDeclaration_alike h.alike) rfl
          | ok hread =>
            obtain ⟨h⟩ := hread
            have hafter := hlt rfl
            rw [List.length_cons] at hafter
            obtain ⟨hvalue, hrest⟩ := ih _ (by omega) h.alike rfl
            exact ⟨congrArg (_ :: ·) hvalue, hrest⟩

theorem block_alike {n : Nesting} (h : Front ts us) :
    Agree SameLenient (block n ts) (block n us) := by
  refine (expect_alike h _).bind fun ts us _ h => ?_
  refine (enter_alike n ts us).bind ?_
  rintro deeper _ - rfl
  exact .ok (declarations_alike h.alike)

/-! ### Statements -/

theorem block_error {n : Nesting} (h : headsBlock ts = false) : ∃ e, block n ts = .error e := by
  rw [block]
  cases he : expect .openBrace ts with
  | error e => exact ⟨e, rfl⟩
  | ok rest =>
    obtain ⟨loc, rfl⟩ := expect_eq_ok he
    cases h

theorem ruleset_error {n : Nesting} (h : headsBlock ts = false) :
    ∃ e, ruleset n ts = .error e := by
  rw [ruleset]
  cases hs : selector ts with
  | error e => exact ⟨e, rfl⟩
  | ok r =>
    obtain ⟨s, rest⟩ := r
    obtain ⟨e, he⟩ := @block_error rest n ((selector_stretch hs).headsBlock.symm.trans h)
    refine ⟨e, ?_⟩
    dsimp only [bind, Except.bind]
    rw [he]

theorem ruleset_alike {n : Nesting} (h : Front ts us) :
    Agree SameLenient (ruleset n ts) (ruleset n us) := by
  cases hhead : headsBlock ts with
  | false => exact .of_errors (ruleset_error hhead) (ruleset_error (h.alike.headsBlock ▸ hhead))
  | true =>
    refine (selector_alike h hhead).bind_read fun s ts us _ h => ?_
    refine (block_alike h).bind fun b b' _ hb => ?_
    exact .ok ⟨congrArg (Ruleset.mk s) hb.1, hb.2⟩

theorem page_error {n : Nesting} (h : headsBlock ts = false) : ∃ e, page n ts = .error e := by
  have hname := (skipTrivia_stretch ts).trans (pageName_stretch (skipTrivia ts))
  rw [page]
  dsimp only
  cases hp : pagePseudo (pageName (skipTrivia ts)).2 with
  | error e => exact ⟨e, rfl⟩
  | ok r =>
    obtain ⟨pseudo, rest⟩ := r
    have hstretch := (hname.trans (pagePseudo_stretch hp)).trans (skipTrivia_stretch rest)
    obtain ⟨e, he⟩ := @block_error (skipTrivia rest) n (hstretch.headsBlock.symm.trans h)
    refine ⟨e, ?_⟩
    dsimp only [bind, Except.bind]
    rw [he]

theorem page_alike {n : Nesting} (h : Alike ts us) :
    Agree (fun x y => x.1 = y.1 ∧ x.2.1 = y.2.1 ∧ SameLenient x.2.2 y.2.2)
      (page n ts) (page n us) := by
  cases hhead : headsBlock ts with
  | false => exact .of_errors (page_error hhead) (page_error (h.headsBlock ▸ hhead))
  | true =>
    have hname := pageName_alike h.skipTrivia
    have hstretch := (skipTrivia_stretch ts).trans (pageName_stretch (skipTrivia ts))
    have hahead := hstretch.headsBlock.symm.trans hhead
    unfold page
    generalize pageName (skipTrivia ts) = x at hname hahead
    generalize pageName (skipTrivia us) = y at hname
    obtain ⟨h⟩ := hname
    refine (pagePseudo_alike h hahead).bind_read fun pseudo ts us _ h => ?_
    exact (block_alike h.skipTrivia).bind fun b b' _ hb => .ok ⟨rfl, rfl, hb⟩

theorem mediaHead_alike {n : Nesting} (h : Alike ts us) :
    Agree (fun x y => x.1 = y.1 ∧ x.2.1 = y.2.1 ∧ Alike x.2.2 y.2.2)
      (mediaHead n ts) (mediaHead n us) := by
  refine (mediaList_alike h.skipTrivia).bind_read fun names ts us _ h => ?_
  refine (expect_alike h _).bind fun ts us _ h => ?_
  refine (enter_alike n ts us).bind ?_
  rintro deeper _ - rfl
  exact .ok ⟨rfl, rfl, h.alike⟩

theorem mediaBody_alike {n : Nesting} (h : Alike ts us) :
    (mediaBody n ts).rules = (mediaBody n us).rules ∧
      Agree Alike (mediaBody n ts).result (mediaBody n us).result := by
  induction hlen : ts.length using Nat.strongRecOn generalizing ts us with
  | ind len ih =>
    have hle := skipTrivia_le ts
    rw [mediaBody_eq, mediaBody_eq n us]
    rcases h.skipTrivia_cases with ⟨hs, hs'⟩ | ⟨l, loc, loc', ts, us, hl, hs, hs', h⟩
    · rw [hs, hs']
      exact ⟨rfl, .ok .nil⟩
    · rw [hs] at hle
      rw [hs, hs']
      dsimp only
      split
      · exact ⟨rfl, .ok h.alike⟩
      · have h : Front (⟨l, loc⟩ :: ts) (⟨l, loc'⟩ :: us) := h.cons hl
        have hr := ruleset_alike (n := n) h
        have hk := skipStatement_alike (n := n) h
        have hrlt := @ruleset_lt n (⟨l, loc⟩ :: ts)
        have hklt := @skipStatement_lt n (⟨l, loc⟩ :: ts)
        generalize ruleset n (⟨l, loc⟩ :: ts) = r at hr hrlt
        generalize ruleset n (⟨l, loc'⟩ :: us) = r' at hr
        generalize skipStatement n (⟨l, loc⟩ :: ts) = k at hk hklt
        generalize skipStatement n (⟨l, loc'⟩ :: us) = k' at hk
        cases hr with
        | @ok r r' hr =>
          obtain ⟨hrules, hresult⟩ := ih _ (hlen ▸ Nat.lt_of_lt_of_le (hrlt rfl) hle) hr.2 rfl
          refine ⟨?_, hresult⟩
          dsimp only
          rw [hr.1, hrules]
        | error =>
          cases hk with
          | error => exact ⟨rfl, .error⟩
          | ok h => exact ih _ (hlen ▸ Nat.lt_of_lt_of_le (hklt rfl) hle) h rfl

/-! ### Attempts -/

/-- Two attempts report the same, and both come to an end behind the statement or both fail. -/
structure SameAttempt (a b : Attempt) : Prop where
  events : a.events = b.events
  result : Agree Alike a.result b.result

theorem sameAttempt_failed (kind : StatementKind) (e e' : Failure) :
    SameAttempt (failed kind e) (failed kind e') :=
  ⟨rfl, .error⟩

theorem sameAttempt_succeeded (kind : StatementKind) {s s' : Statement} (hs : s = s')
    (skipped skipped' : List Failure) (h : Alike ts us) :
    SameAttempt (succeeded kind s skipped ts) (succeeded kind s' skipped' us) :=
  ⟨congrArg Statement.events hs, .ok h⟩

theorem tryRuleset_alike {n : Nesting} (h : Front ts us) :
    SameAttempt (tryRuleset n ts) (tryRuleset n us) := by
  have hr := ruleset_alike (n := n) h
  unfold tryRuleset
  generalize ruleset n ts = r at hr
  generalize ruleset n us = r' at hr
  cases hr with
  | error => exact sameAttempt_failed _ _ _
  | ok hr => exact sameAttempt_succeeded _ (congrArg Statement.ruleset hr.1) _ _ hr.2

theorem tryCharset_alike (h : Alike ts us) : SameAttempt (tryCharset ts) (tryCharset us) := by
  have hr := charset_alike h
  unfold tryCharset
  generalize charset ts = r at hr
  generalize charset us = r' at hr
  cases hr with
  | error => exact sameAttempt_failed _ _ _
  | ok hread =>
    obtain ⟨h⟩ := hread
    exact sameAttempt_succeeded _ rfl _ _ h

theorem tryImport_alike (h : Alike ts us) : SameAttempt (tryImport ts) (tryImport us) := by
  have hr := importSheet_alike h
  unfold tryImport
  generalize importSheet ts = r at hr
  generalize importSheet us = r' at hr
  cases hr with
  | error => exact sameAttempt_failed _ _ _
  | ok hread =>
    obtain ⟨h⟩ := hread
    exact sameAttempt_succeeded _ rfl _ _ h

theorem tryPage_alike {n : Nesting} (h : Alike ts us) :
    SameAttempt (tryPage n ts) (tryPage n us) := by
  have hr := page_alike (n := n) h
  unfold tryPage
  generalize page n ts = r at hr
  generalize page n us = r' at hr
  cases hr with
  | error => exact sameAttempt_failed _ _ _
  | @ok x y hr =>
    obtain ⟨name, pseudo, b⟩ := x
    obtain ⟨_, _, b'⟩ := y
    obtain ⟨rfl, rfl, hb⟩ := hr
    exact sameAttempt_succeeded _ (congrArg (Statement.page name pseudo) hb.1) _ _ hb.2

theorem tryFontFace_alike {n : Nesting} (h : Alike ts us) :
    SameAttempt (tryFontFace n ts) (tryFontFace n us) := by
  have hr := block_alike (n := n) h.skipTrivia
  unfold tryFontFace
  generalize block n (skipTrivia ts) = r at hr
  generalize block n (skipTrivia us) = r' at hr
  cases hr with
  | error => exact sameAttempt_failed _ _ _
  | ok hr => exact sameAttempt_succeeded _ (congrArg Statement.fontFace hr.1) _ _ hr.2

theorem tryMedia_alike {n : Nesting} (h : Alike ts us) :
    SameAttempt (tryMedia n ts) (tryMedia n us) := by
  have hr := mediaHead_alike (n := n) h
  unfold tryMedia
  generalize mediaHead n ts = r at hr
  generalize mediaHead n us = r' at hr
  cases hr with
  | error => exact sameAttempt_failed _ _ _
  | @ok x y hr =>
    obtain ⟨names, deeper, ts⟩ := x
    obtain ⟨_, _, us⟩ := y
    obtain ⟨rfl, rfl, h⟩ := hr
    obtain ⟨hrules, hresult⟩ := mediaBody_alike (n := deeper) h
    dsimp only
    rw [hrules]
    generalize (mediaBody deeper ts).result = r at hresult
    generalize (mediaBody deeper us).result = r' at hresult
    cases hresult with
    | error => exact ⟨rfl, .error⟩
    | ok h => exact sameAttempt_succeeded _ rfl _ _ h

theorem keyword?_alike (h : Front ts us) : keyword? ts = keyword? us := by
  refine h.byHead rfl fun l loc loc' ts us _ _ => ?_
  cases l <;> rfl

theorem Front.tail (h : Front ts us) : Alike ts.tail us.tail := by
  obtain ⟨rfl, rfl⟩ | ⟨l, loc, loc', ts, us, hl, rfl, rfl, hrest⟩ := h.cases
  · exact .nil
  · exact hrest.alike

/-- **A statement is tried alike.** -/
theorem tryStatement_alike (n : Nesting) (phase : Phase) (h : Front ts us) :
    SameAttempt (tryStatement n phase ts) (tryStatement n phase us) := by
  unfold tryStatement
  rw [keyword?_alike h]
  split
  · exact tryRuleset_alike h
  · split
    · exact tryCharset_alike h.tail
    · exact ⟨rfl, .error⟩
  · split
    · exact ⟨rfl, .error⟩
    · exact tryImport_alike h.tail
  · exact tryMedia_alike h.tail
  · exact tryPage_alike h.tail
  · exact tryFontFace_alike h.tail
  · exact ⟨rfl, .error⟩

end Grammar

/-! ### Sheets -/

namespace Parser

open Grammar (Alike Front)

variable {ts us : List Token}

theorem skipBetween_trivia (t : Token) (ts : List Token) (ht : t.lexeme.isTrivia = true) :
    skipBetween (t :: ts) = skipBetween ts :=
  List.dropWhile_cons_of_pos (by simp [ht])

theorem skipBetween_alike (h : Alike ts us) : Front (skipBetween ts) (skipBetween us) := by
  induction h with
  | nil => exact ⟨.nil, rfl⟩
  | @token l loc loc' ts us hl hgap h ih =>
    unfold skipBetween
    rw [List.dropWhile_cons, List.dropWhile_cons]
    split
    · exact ih
    · exact ⟨.token hl hgap h, hl⟩
  | @trivia l l' loc loc' ts us hl hl' hs h ih =>
    rw [skipBetween_trivia _ _ hl, skipBetween_trivia _ _ hl',
      Grammar.eq_skipTrivia skipBetween_trivia ts, Grammar.eq_skipTrivia skipBetween_trivia us]
    exact ih
  | @comments l loc ts us hl hs h ih =>
    rw [skipBetween_trivia _ _ hl, Grammar.eq_skipTrivia skipBetween_trivia ts]
    exact ih

/-- The events build the same, and either both sheets are read to their end or both end at a
statement that can be neither read nor skipped. -/
structure SameBuilt (s s' : Statements) : Prop where
  run : ∀ b : Builder, b.run s.events = b.run s'.events
  result : s.result = .ok () ∧ s'.result = .ok () ∨
    ∃ cause loc cause' loc', s.result = .error (.unrecoverable cause loc) ∧
      s'.result = .error (.unrecoverable cause' loc')

theorem SameBuilt.after {s s' : Statements} (h : SameBuilt s s') {es fs : List Event}
    (hrun : ∀ b : Builder, b.run es = b.run fs) : SameBuilt (s.after es) (s'.after fs) where
  run b := by
    rw [Statements.after, Statements.after, Builder.run_append, Builder.run_append, hrun, h.run]
  result := h.result

theorem sameBuilt_broken (es : List Event) (ds ds' : List Diagnostic) (cause cause' : Cause)
    (loc loc' : Location) (ts us : List Token) :
    SameBuilt (.broken es ds cause loc ts) (.broken es ds' cause' loc' us) where
  run b := by
    rw [Statements.broken, Statements.broken, Builder.run_append, Builder.run_append]
    rfl
  result := .inr ⟨cause, loc, cause', loc', rfl, rfl⟩

/-- **The statements of two texts that are alike build the same.** -/
theorem statements_alike (options : ParseOptions) (stop stop' : Location) (phase : Phase)
    (h : Alike ts us) :
    SameBuilt (statements options stop phase ts) (statements options stop' phase us) := by
  induction hlen : ts.length using Nat.strongRecOn generalizing phase ts us with
  | ind len ih =>
    have hle := skipBetween_le ts
    have hbetween := skipBetween_alike h
    rw [statements_eq, statements_eq options stop' phase us]
    generalize skipBetween ts = vs at hle hbetween
    generalize skipBetween us = ws at hbetween
    cases vs with
    | nil =>
      cases hbetween.alike
      exact ⟨fun _ => rfl, .inl ⟨rfl, rfl⟩⟩
    | cons t vs =>
      cases ws with
      | nil => obtain ⟨h, -⟩ | ⟨l, loc, loc', ts, us, -, -, h, -⟩ := hbetween.cases <;> cases h
      | cons u ws =>
        obtain ⟨hevents, hresult⟩ :=
          Grammar.tryStatement_alike ⟨options.maxNesting, 0⟩ phase hbetween
        have hk := Grammar.skipStatement_alike (n := ⟨options.maxNesting, 0⟩) hbetween
        have hlt := @Grammar.tryStatement_lt ⟨options.maxNesting, 0⟩ phase (t :: vs)
        have hklt := @Grammar.skipStatement_lt ⟨options.maxNesting, 0⟩ (t :: vs)
        dsimp only
        rw [Grammar.keyword?_alike hbetween, hevents]
        generalize (Grammar.tryStatement ⟨options.maxNesting, 0⟩ phase (t :: vs)).result = r
          at hresult hlt
        generalize (Grammar.tryStatement ⟨options.maxNesting, 0⟩ phase (u :: ws)).result = r'
          at hresult
        generalize Grammar.skipStatement ⟨options.maxNesting, 0⟩ (t :: vs) = k at hk hklt
        generalize Grammar.skipStatement ⟨options.maxNesting, 0⟩ (u :: ws) = k' at hk
        cases hresult with
        | ok h =>
          exact (ih _ (hlen ▸ Nat.lt_of_lt_of_le (hlt rfl) hle) _ h rfl).after fun _ => rfl
        | error =>
          dsimp only
          split
          · cases hk with
            | error => exact sameBuilt_broken _ _ _ _ _ _ _ _ _
            | ok h =>
              -- the discarded events differ in their causes, which a builder does not look at
              refine (ih _ (hlen ▸ Nat.lt_of_lt_of_le (hklt rfl) hle) _ h rfl).after fun b => ?_
              rw [Builder.run_append, Builder.run_append]
              rfl
          · exact sameBuilt_broken _ _ _ _ _ _ _ _ _

end Parser

/-- **From texts that are alike the same sheet is read**, or the same part of a sheet up to a
statement that can be neither read nor skipped. -/
theorem Sheet.parseTokens_alike {ts us : List Token} (h : Grammar.Alike ts us)
    (options : ParseOptions) (stop stop' : Location) :
    (∃ s, Sheet.parseTokens options ts stop = .ok s ∧
        Sheet.parseTokens options us stop' = .ok s) ∨
      ∃ built cause loc cause' loc',
        Sheet.parseTokens options ts stop = .error ⟨.unrecoverable cause loc, built⟩ ∧
        Sheet.parseTokens options us stop' = .error ⟨.unrecoverable cause' loc', built⟩ := by
  obtain ⟨hrun, hresult⟩ := Parser.statements_alike options stop stop' .start h
  have hbuilt := (Sheet.ofEvents_document _).trans
    ((Sheet.ofEvents_congr hrun).trans (Sheet.ofEvents_document _).symm)
  unfold Sheet.parseTokens Parser.sheet Parser.ofTokens
  dsimp only
  rcases hresult with ⟨hok, hok'⟩ | ⟨cause, loc, cause', loc', herror, herror'⟩
  · rw [hok, hok', hbuilt]
    exact .inl ⟨_, rfl, rfl⟩
  · rw [herror, herror', hbuilt]
    exact .inr ⟨_, cause, loc, cause', loc', rfl, rfl⟩

/-- **A sheet does not depend on how trivia is written.**  From tokens that are the same once the
runs of trivia are condensed, the same sheet is read, or the same part of a sheet up to a statement
that can be neither read nor skipped. -/
theorem Sheet.parseTokens_condense {ts us : List Token}
    (h : Grammar.condense ts = Grammar.condense us) (options : ParseOptions)
    (stop stop' : Location) :
    (∃ s, Sheet.parseTokens options ts stop = .ok s ∧
        Sheet.parseTokens options us stop' = .ok s) ∨
      ∃ built cause loc cause' loc',
        Sheet.parseTokens options ts stop = .error ⟨.unrecoverable cause loc, built⟩ ∧
        Sheet.parseTokens options us stop' = .error ⟨.unrecoverable cause' loc', built⟩ :=
  Sheet.parseTokens_alike (Grammar.alike_of_condense h) options stop stop'

/-- A space is the same between two links of a chain as a space between two comments. -/
theorem Sheet.parseTokens_condense_chain :
    let run (trivia : List Lexeme) : List Token :=
      (Lexeme.ident "a" :: (trivia ++ [.ident "b", .mark .openBrace, .mark .closeBrace])).map
        fun l => ⟨l, .start⟩
    let ts := run [.whitespace]
    let us := run [.comment "x", .whitespace, .comment "y"]
    Grammar.condense ts = Grammar.condense us ∧
      ((∃ s, Sheet.parseTokens {} ts .start = .ok s ∧ Sheet.parseTokens {} us .start = .ok s) ∨
        ∃ built cause loc cause' loc',
          Sheet.parseTokens {} ts .start = .error ⟨.unrecoverable cause loc, built⟩ ∧
          Sheet.parseTokens {} us .start = .error ⟨.unrecoverable cause' loc', built⟩) := by
  intro run ts us
  have h : Grammar.condense ts = Grammar.condense us := by
    have hspace : (Lexeme.whitespace == Lexeme.whitespace) = true := rfl
    simp [ts, us, run, Grammar.condense, Grammar.spaced, Grammar.skipTrivia, Lexeme.isTrivia,
      Grammar.lexemeOfRun, hspace]
  exact ⟨h, Sheet.parseTokens_condense h {} .start .start⟩

end Css2
