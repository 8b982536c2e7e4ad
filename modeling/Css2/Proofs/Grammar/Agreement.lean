import Css2.Proofs.Grammar.Stretch
import Css2.Token.Scan

/-!
# Where a statement ends

The grammar proper and the core grammar agree on the end of every statement that both accept
(`tryStatement_skipStatement`).

The two have nothing in common but the tokens.  The one reads declarations, skips malformed ones
with a list of the marks that are still to come, and starts over inside `@media`; the other counts
brackets.  What joins them is `contents`, the inside of a pair in the core grammar: each part of a
block that the grammar proper takes off the front is a part that `contents` runs over, so that at
the end of the block both have come to the same brace.  `closeAll` is `contents` for several open
pairs at once, which is what the skipping of a malformed declaration keeps in its list.
-/

namespace Css2

namespace Grammar

/-! ### Steps of the core grammar -/

theorem contents_closer {n : Nesting} {m : Mark} {t : Token} {rest : List Token}
    (h : t.lexeme.isMark m = true) : contents n m (t :: rest) = .ok rest := by
  rw [contents_eq]
  simp only [h, if_true]

theorem contents_opener {n : Nesting} {closer m : Mark} {t : Token} {rest r : List Token}
    (hc : isCloser closer = true) (hm : closerOf? t.lexeme = some m)
    (h : contents n closer (t :: rest) = .ok r) :
    ∃ deeper after, contents deeper m rest = .ok after ∧ contents n closer after = .ok r := by
  rw [contents_eq] at h
  simp only [isMark_of_closerOf? hm hc, hm, Bool.false_eq_true, if_false] at h
  obtain ⟨deeper, _, h⟩ := bind_eq_ok h
  obtain ⟨after, hin, h⟩ := bind_eq_ok h
  exact ⟨deeper, after, hin, h⟩

theorem contents_other {n : Nesting} {closer : Mark} {t : Token} {rest r : List Token}
    (hm : closerOf? t.lexeme = none) (ht : t.lexeme.isMark closer = false)
    (h : contents n closer (t :: rest) = .ok r) :
    (isPlain t.lexeme || isInner t.lexeme) = true ∧ contents n closer rest = .ok r := by
  rw [contents_eq] at h
  simp only [ht, hm, Bool.false_eq_true, if_false] at h
  split at h
  · next hp => exact ⟨hp, h⟩
  · cases h

theorem contents_semicolon {n : Nesting} {closer : Mark} {t : Token} {rest r : List Token}
    (hc : isCloser closer = true) (ht : t.lexeme.isMark .semicolon = true)
    (h : contents n closer (t :: rest) = .ok r) : contents n closer rest = .ok r := by
  obtain ⟨l, loc⟩ := t
  cases l with
  | mark m =>
    cases m <;> cases ht
    exact (contents_other rfl (by cases closer <;> first | rfl | cases hc) h).2
  | _ => cases ht

/-- **How many brackets may be open decides whether the inside of a pair can be skipped, not
where it ends.** -/
theorem contents_agree {n m : Nesting} {closer : Mark} {ts r r' : List Token}
    (hc : isCloser closer = true) (h : contents n closer ts = .ok r)
    (h' : contents m closer ts = .ok r') : r = r' := by
  induction hlen : ts.length using Nat.strongRecOn generalizing n m closer ts r r' with
  | ind len ih =>
    cases ts with
    | nil =>
      rw [contents_nil, Except.ok.injEq] at h h'
      rw [← h, ← h']
    | cons t rest =>
      simp only [List.length_cons] at hlen
      by_cases ht : t.lexeme.isMark closer = true
      · rw [contents_closer ht, Except.ok.injEq] at h h'
        rw [← h, ← h']
      · rw [Bool.not_eq_true] at ht
        cases ho : closerOf? t.lexeme with
        | none =>
          exact ih rest.length (by omega) hc (contents_other ho ht h).2
            (contents_other ho ht h').2 rfl
        | some inner =>
          obtain ⟨d, after, hin, hout⟩ := contents_opener hc ho h
          obtain ⟨d', after', hin', hout'⟩ := contents_opener hc ho h'
          have heq : after = after' :=
            ih rest.length (by omega) (isCloser_closerOf? ho) hin hin' rfl
          subst heq
          have := contents_le hin
          exact ih after.length (by omega) hc hout hout' rfl

/-! ### Several open pairs -/

/-- Skips the insides of several open pairs and the marks that close them, innermost first. -/
def closeAll : List (Nesting × Mark) → List Token → Except Failure (List Token)
  | [], ts => .ok ts
  | (n, m) :: outer, ts => do
    let rest ← contents n m ts
    closeAll outer rest

theorem closeAll_cons {n : Nesting} {m : Mark} {outer : List (Nesting × Mark)}
    {ts r : List Token} (h : closeAll ((n, m) :: outer) ts = .ok r) :
    ∃ us, contents n m ts = .ok us ∧ closeAll outer us = .ok r :=
  bind_eq_ok h

theorem closeAll_cons_ok {n : Nesting} {m : Mark} {outer : List (Nesting × Mark)}
    {ts us r : List Token} (h : contents n m ts = .ok us) (hr : closeAll outer us = .ok r) :
    closeAll ((n, m) :: outer) ts = .ok r := by
  rw [closeAll]
  rw [h]
  exact hr

theorem closeAll_nil (open_ : List (Nesting × Mark)) : closeAll open_ [] = .ok [] := by
  induction open_ with
  | nil => rfl
  | cons p outer ih => exact closeAll_cons_ok (contents_nil _ _) ih

/-- One token moves the open pairs on as `pushCloser` moves the list of marks. -/
theorem closeAll_token {open_ : List (Nesting × Mark)} {n : Nesting} {closer : Mark}
    {t : Token} {rest r : List Token} (hc : ∀ p ∈ open_, isCloser p.2 = true)
    (hcl : isCloser closer = true) (ht : open_ = [] → t.lexeme.isMark closer = false)
    (h : closeAll (open_ ++ [(n, closer)]) (t :: rest) = .ok r) :
    ∃ open', open'.map Prod.snd = pushCloser (open_.map Prod.snd) t.lexeme ∧
      (∀ p ∈ open', isCloser p.2 = true) ∧ closeAll (open' ++ [(n, closer)]) rest = .ok r := by
  cases ho : closerOf? t.lexeme with
  | some m =>
    have hpush : pushCloser (open_.map Prod.snd) t.lexeme = m :: open_.map Prod.snd := by
      unfold pushCloser
      rw [ho]
    -- the pair that `t` opens becomes the innermost one
    have hopen : ∃ deeper, closeAll ((deeper, m) :: (open_ ++ [(n, closer)])) rest = .ok r := by
      cases open_ with
      | nil =>
        obtain ⟨us, hus, hr⟩ := closeAll_cons h
        obtain ⟨deeper, after, hin, hout⟩ := contents_opener hcl ho hus
        exact ⟨deeper, closeAll_cons_ok hin (closeAll_cons_ok hout hr)⟩
      | cons p outer =>
        obtain ⟨k, c⟩ := p
        obtain ⟨us, hus, hr⟩ := closeAll_cons h
        obtain ⟨deeper, after, hin, hout⟩ := contents_opener (hc (k, c) (by simp)) ho hus
        exact ⟨deeper, closeAll_cons_ok hin (closeAll_cons_ok hout hr)⟩
    obtain ⟨deeper, hdeeper⟩ := hopen
    refine ⟨(deeper, m) :: open_, by rw [hpush]; rfl, ?_, hdeeper⟩
    intro p hp
    rcases List.mem_cons.1 hp with rfl | hp
    · exact isCloser_closerOf? ho
    · exact hc p hp
  | none =>
    cases open_ with
    | nil =>
      obtain ⟨us, hus, hr⟩ := closeAll_cons h
      refine ⟨[], ?_, by simp, closeAll_cons_ok (contents_other ho (ht rfl) hus).2 hr⟩
      unfold pushCloser
      rw [ho]
      rfl
    | cons p outer =>
      obtain ⟨k, c⟩ := p
      obtain ⟨us, hus, hr⟩ := closeAll_cons h
      have hpush : pushCloser (((k, c) :: outer).map Prod.snd) t.lexeme
          = if t.lexeme.isMark c then outer.map Prod.snd
            else ((k, c) :: outer).map Prod.snd := by
        unfold pushCloser
        rw [ho]
        rfl
      by_cases htc : t.lexeme.isMark c = true
      · rw [contents_closer htc, Except.ok.injEq] at hus
        subst hus
        exact ⟨outer, by rw [hpush, if_pos htc], fun p hp => hc p (by simp [hp]), hr⟩
      · rw [Bool.not_eq_true] at htc
        have hrest := (contents_other ho htc hus).2
        exact ⟨(k, c) :: outer, by rw [hpush, htc]; rfl, hc, closeAll_cons_ok hrest hr⟩

/-! ### Declarations -/

/-- **What is skipped behind a malformed declaration in a block is a part of the block.** -/
theorem skipRest_contents {n : Nesting} {ts r : List Token} (open_ : List (Nesting × Mark))
    (hc : ∀ p ∈ open_, isCloser p.2 = true)
    (h : closeAll (open_ ++ [(n, .closeBrace)]) ts = .ok r) :
    contents n .closeBrace (skipRest true (open_.map Prod.snd) ts) = .ok r := by
  induction ts generalizing open_ with
  | nil =>
    rw [closeAll_nil] at h
    rw [skipRest, contents_nil]
    exact h
  | cons t rest ih =>
    rw [skipRest]
    split
    · next hsemi =>
      simp only [List.isEmpty_iff, List.map_eq_nil_iff, Bool.and_eq_true] at hsemi
      obtain ⟨rfl, hsemi⟩ := hsemi
      obtain ⟨us, hus, hr⟩ := closeAll_cons h
      cases hr
      exact contents_semicolon rfl hsemi hus
    · split
      · next hbrace =>
        simp only [List.isEmpty_iff, List.map_eq_nil_iff, Bool.and_eq_true] at hbrace
        obtain ⟨⟨rfl, _⟩, _⟩ := hbrace
        obtain ⟨us, hus, hr⟩ := closeAll_cons h
        cases hr
        exact hus
      · next hbrace =>
        have ht : open_ = [] → t.lexeme.isMark .closeBrace = false := by
          rintro rfl
          simpa using hbrace
        obtain ⟨open', hmap, hc', h'⟩ := closeAll_token hc rfl ht h
        rw [← hmap]
        exact ih open' hc' h'

theorem skipDeclaration_contents {n : Nesting} {t : Token} {rest r : List Token}
    (ht : t.lexeme.isMark .closeBrace = false)
    (h : contents n .closeBrace (t :: rest) = .ok r) :
    contents n .closeBrace (skipDeclaration true t rest) = .ok r := by
  rw [skipDeclaration]
  split
  · next hsemi => exact contents_semicolon rfl hsemi h
  · have hall : closeAll ([] ++ [(n, .closeBrace)]) (t :: rest) = .ok r := closeAll_cons_ok h rfl
    obtain ⟨open', hmap, hc', h'⟩ := closeAll_token (by simp) rfl (fun _ => ht) hall
    have := skipRest_contents open' hc' h'
    rw [hmap] at this
    exact this

/-- **A block of declarations ends where the inside of its braces does.** -/
theorem declarations_contents {n m : Nesting} {ts r : List Token}
    (h : contents n .closeBrace ts = .ok r) : (declarations m true ts).rest = r := by
  fun_induction declarations m true ts with
  | case1 ts hs =>
    have := (skipTrivia_stretch ts).contents rfl h
    rw [hs, contents_nil, Except.ok.injEq] at this
    exact this
  | case2 ts t rest hs hclose =>
    have := (skipTrivia_stretch ts).contents rfl h
    rw [hs, contents_closer (by simpa using hclose), Except.ok.injEq] at this
    exact this
  | case3 ts t rest hs _ hsemi ih =>
    have := (skipTrivia_stretch ts).contents rfl h
    rw [hs] at this
    exact ih (contents_semicolon rfl hsemi this)
  | case4 ts t rest hs _ _ d after hd more ih =>
    have := (skipTrivia_stretch ts).contents rfl h
    rw [hs] at this
    exact ih ((listedDeclaration_stretch hd).contents rfl this)
  | case5 ts t rest hs hclose _ e hd more ih =>
    have := (skipTrivia_stretch ts).contents rfl h
    rw [hs] at this
    exact ih (skipDeclaration_contents (by simpa using hclose) this)

/-- A block of declarations ends where the pair that its brace opens does, for a reader that is
inside of another pair. -/
theorem block_contents {n m : Nesting} {closer : Mark} {ts r : List Token}
    {b : Lenient (List Declaration)} (hc : isCloser closer = true)
    (h : contents n closer ts = .ok r) (hb : block m ts = .ok b) :
    contents n closer b.rest = .ok r := by
  rw [block] at hb
  obtain ⟨us, he, hb⟩ := bind_eq_ok hb
  obtain ⟨deeper, _, hb⟩ := bind_eq_ok hb
  cases hb
  obtain ⟨loc, rfl⟩ := expect_eq_ok he
  obtain ⟨d, after, hin, hout⟩ := contents_opener hc rfl h
  rw [declarations_contents hin]
  exact hout

theorem block_skipTail {n m : Nesting} {atRule : Bool} {ts r : List Token}
    {b : Lenient (List Declaration)} (h : skipTail n atRule ts = .ok r)
    (hb : block m ts = .ok b) : b.rest = r := by
  rw [block] at hb
  obtain ⟨us, he, hb⟩ := bind_eq_ok hb
  obtain ⟨deeper, _, hb⟩ := bind_eq_ok hb
  cases hb
  obtain ⟨loc, rfl⟩ := expect_eq_ok he
  rw [skipTail] at h
  simp only [isMark_mark, beq_self_eq_true, if_true] at h
  obtain ⟨d, _, hin⟩ := bind_eq_ok h
  exact declarations_contents hin

/-! ### Statements inside `@media` -/

theorem ruleset_contents {n m : Nesting} {closer : Mark} {ts r : List Token}
    {x : Lenient Ruleset} (hc : isCloser closer = true) (h : contents n closer ts = .ok r)
    (hx : ruleset m ts = .ok x) : contents n closer x.rest = .ok r := by
  rw [ruleset] at hx
  obtain ⟨⟨s, us⟩, hs, hx⟩ := bind_eq_ok hx
  obtain ⟨b, hb, hx⟩ := bind_eq_ok hx
  cases hx
  exact block_contents hc ((selector_stretch hs).contents hc h) hb

theorem skipTail_contents {n m : Nesting} {closer : Mark} {atRule : Bool} {ts us r : List Token}
    (hc : isCloser closer = true) (h : contents n closer ts = .ok r)
    (hs : skipTail m atRule ts = .ok us) : contents n closer us = .ok r := by
  fun_induction skipTail m atRule ts with
  | case1 =>
    cases hs
    exact h
  | case2 t rest hopen =>
    have ho : closerOf? t.lexeme = some .closeBrace := by
      obtain ⟨l, loc⟩ := t
      cases l with
      | mark k => cases k <;> first | rfl | cases hopen
      | _ => cases hopen
    obtain ⟨d, after, hin, hout⟩ := contents_opener hc ho h
    obtain ⟨d', _, hs⟩ := bind_eq_ok hs
    rw [contents_agree rfl hs hin]
    exact hout
  | case3 t rest _ hsemi =>
    cases hs
    rw [Bool.and_eq_true] at hsemi
    exact contents_semicolon hc hsemi.2 h
  | case4 => cases hs
  | case5 t rest _ _ inner ho after hb ih =>
    obtain ⟨d, after', hin, hout⟩ := contents_opener hc ho h
    obtain ⟨d', _, hb⟩ := bind_eq_ok hb
    have := contents_agree (isCloser_closerOf? ho) hb hin
    subst this
    exact ih hout hs
  | case6 t rest _ _ ho hp ih =>
    exact ih (contents_other ho (isMark_of_isPlain hp hc) h).2 hs
  | case7 => cases hs

/-- **A statement that is skipped inside of a pair is a part of its inside.** -/
theorem skipStatement_contents {n m : Nesting} {closer : Mark} {ts us r : List Token}
    (hc : isCloser closer = true) (h : contents n closer ts = .ok r)
    (hs : skipStatement m ts = .ok us) : contents n closer us = .ok r := by
  unfold skipStatement at hs
  split at hs
  · cases hs
  · exact skipTail_contents hc (contents_other rfl rfl h).2 hs
  · exact skipTail_contents hc h hs

/-- **The inside of `@media` ends where the inside of its braces does.** -/
theorem mediaBody_contents {n m : Nesting} {ts r r' : List Token}
    (h : contents n .closeBrace ts = .ok r) (hb : (mediaBody m ts).result = .ok r') : r' = r := by
  fun_induction mediaBody m ts with
  | case1 ts hs =>
    have := (skipTrivia_stretch ts).contents rfl h
    rw [hs, contents_nil, Except.ok.injEq] at this
    cases hb
    exact this
  | case2 ts t rest hs hclose =>
    have := (skipTrivia_stretch ts).contents rfl h
    rw [hs, contents_closer hclose, Except.ok.injEq] at this
    cases hb
    exact this
  | case3 ts t rest hs _ x hx more ih =>
    have := (skipTrivia_stretch ts).contents rfl h
    rw [hs] at this
    exact ih (ruleset_contents rfl this hx) hb
  | case4 => cases hb
  | case5 ts t rest hs _ e _ after hk more ih =>
    have := (skipTrivia_stretch ts).contents rfl h
    rw [hs] at this
    exact ih (skipStatement_contents rfl this hk) hb

/-! ### Statements at the top -/

theorem skipTail_openBrace {n : Nesting} {atRule : Bool} {loc : Location} {ts r : List Token}
    (h : skipTail n atRule (⟨.mark .openBrace, loc⟩ :: ts) = .ok r) :
    ∃ deeper, contents deeper .closeBrace ts = .ok r := by
  rw [skipTail] at h
  simp only [isMark_mark, beq_self_eq_true, if_true] at h
  obtain ⟨d, _, hin⟩ := bind_eq_ok h
  exact ⟨d, hin⟩

theorem skipTail_semicolon {n : Nesting} {loc : Location} {ts r : List Token}
    (h : skipTail n true (⟨.mark .semicolon, loc⟩ :: ts) = .ok r) : ts = r := by
  rw [skipTail] at h
  simp only [isMark_mark, beq_self_eq_true, Bool.and_true, if_true] at h
  cases h
  rfl

theorem charset_skipTail {n : Nesting} {ts rest r : List Token} {name : String}
    (h : charset ts = .ok (name, rest)) (hs : skipTail n true ts = .ok r) : rest = r := by
  rw [charset] at h
  obtain ⟨⟨value, us⟩, hv, h⟩ := bind_eq_ok h
  obtain ⟨vs, he, h⟩ := bind_eq_ok h
  cases h
  obtain ⟨loc, hloc⟩ := expect_eq_ok he
  have hst : Stretch ts (skipTrivia us) :=
    (skipTrivia_stretch ts).trans ((string_stretch hv).trans (skipTrivia_stretch us))
  rw [hloc] at hst
  exact skipTail_semicolon (hst.skipTail hs)

theorem importSheet_skipTail {n : Nesting} {ts rest r : List Token} {x : String × List String}
    (h : importSheet ts = .ok (x, rest)) (hs : skipTail n true ts = .ok r) : rest = r := by
  rw [importSheet] at h
  obtain ⟨⟨address, us⟩, ha, h⟩ := bind_eq_ok h
  obtain ⟨⟨names, vs⟩, hm, h⟩ := bind_eq_ok h
  have hst : Stretch ts vs :=
    (skipTrivia_stretch ts).trans ((importAddress_stretch ha).trans
      ((skipTrivia_stretch us).trans (importMedia_stretch hm)))
  have hvs := hst.skipTail hs
  dsimp only at h
  split at h
  · -- at the end of the text nothing is left for either of them
    cases h
    rw [skipTail, Except.ok.injEq] at hvs
    exact hvs
  · obtain ⟨ws, he, h⟩ := bind_eq_ok h
    cases h
    obtain ⟨loc, rfl⟩ := expect_eq_ok he
    exact skipTail_semicolon hvs

theorem page_skipTail {n m : Nesting} {ts r : List Token} {name pseudo : Option String}
    {b : Lenient (List Declaration)} (h : page m ts = .ok (name, pseudo, b))
    (hs : skipTail n true ts = .ok r) : b.rest = r := by
  rw [page] at h
  dsimp only at h
  obtain ⟨⟨pseudo', us⟩, hp, h⟩ := bind_eq_ok h
  obtain ⟨b', hb, h⟩ := bind_eq_ok h
  cases h
  have hst : Stretch ts (skipTrivia us) :=
    (skipTrivia_stretch ts).trans ((pageName_stretch _).trans
      ((pagePseudo_stretch hp).trans (skipTrivia_stretch us)))
  exact block_skipTail (hst.skipTail hs) hb

/-- The inside of `@media` is where the pair of braces is that the core grammar skips. -/
theorem mediaHead_contents {n m deeper : Nesting} {ts us r : List Token} {names : List String}
    (h : mediaHead n ts = .ok (names, deeper, us)) (hs : skipTail m true ts = .ok r) :
    ∃ d, contents d .closeBrace us = .ok r := by
  rw [mediaHead] at h
  obtain ⟨⟨names', vs⟩, hl, h⟩ := bind_eq_ok h
  obtain ⟨ws, he, h⟩ := bind_eq_ok h
  obtain ⟨d, _, h⟩ := bind_eq_ok h
  cases h
  obtain ⟨loc, rfl⟩ := expect_eq_ok he
  exact skipTail_openBrace (((skipTrivia_stretch ts).trans (mediaList_stretch hl)).skipTail hs)

theorem tryMedia_skipTail {n m : Nesting} {ts rest r : List Token}
    (h : (tryMedia m ts).result = .ok rest) (hs : skipTail n true ts = .ok r) : rest = r := by
  rw [tryMedia] at h
  split at h
  · cases h
  · next names deeper us hm =>
    obtain ⟨d, hin⟩ := mediaHead_contents hm hs
    dsimp only at h
    split at h
    · next hb =>
      cases h
      exact mediaBody_contents hin hb
    · cases h

/-- A statement that begins with an at-keyword is skipped from behind it on. -/
theorem skipStatement_atKeyword {n : Nesting} {ts r : List Token} {name : String}
    (hk : keyword? ts = some name) (h : skipStatement n ts = .ok r) :
    skipTail n true ts.tail = .ok r := by
  unfold keyword? at hk
  split at hk
  · exact h
  · cases hk

theorem skipStatement_other {n : Nesting} {ts r : List Token} (hk : keyword? ts = none)
    (h : skipStatement n ts = .ok r) : skipTail n false ts = .ok r := by
  unfold skipStatement at h
  split at h
  · cases h
  · cases hk
  · exact h

/-- **The two grammars agree on where a statement ends.**  For all tokens and every phase, and
however many brackets may be open, the statement that the grammar proper reads is the one that the
core grammar skips, wherever both accept one. -/
theorem tryStatement_skipStatement {n m : Nesting} {phase : Phase} {ts r r' : List Token}
    (h : (tryStatement n phase ts).result = .ok r) (h' : skipStatement m ts = .ok r') :
    r = r' := by
  rw [tryStatement] at h
  split at h
  · next hk =>
    have hs := skipStatement_other hk h'
    rw [tryRuleset] at h
    split at h
    · cases h
    · next x hx =>
      cases h
      rw [ruleset] at hx
      obtain ⟨⟨s, us⟩, hsel, hx⟩ := bind_eq_ok hx
      obtain ⟨b, hb, hx⟩ := bind_eq_ok hx
      cases hx
      exact block_skipTail ((selector_stretch hsel).skipTail hs) hb
  · next hk =>
    have hs := skipStatement_atKeyword hk h'
    split at h
    · rw [tryCharset] at h
      split at h
      · cases h
      · next hr =>
        cases h
        exact charset_skipTail hr hs
    · cases h
  · next hk =>
    have hs := skipStatement_atKeyword hk h'
    split at h
    · cases h
    · rw [tryImport] at h
      split at h
      · cases h
      · next hr =>
        cases h
        exact importSheet_skipTail hr hs
  · next hk => exact tryMedia_skipTail h (skipStatement_atKeyword hk h')
  · next hk =>
    have hs := skipStatement_atKeyword hk h'
    rw [tryPage] at h
    split at h
    · cases h
    · next hr =>
      cases h
      exact page_skipTail hr hs
  · next hk =>
    have hs := skipStatement_atKeyword hk h'
    rw [tryFontFace] at h
    split at h
    · cases h
    · next hr =>
      cases h
      exact block_skipTail ((skipTrivia_stretch _).skipTail hs) hr
  · cases h

/-- Behind an `@media` that holds a malformed declaration and a malformed statement, both come to
the same name. -/
theorem tryStatement_skipStatement_media :
    ∃ r r', (tryStatement ⟨3, 0⟩ .body
          (scan "@media m\x7ba\x7bb[;]c\x7d[;]\x7b\x7d\x7dp")).result = .ok r ∧
      skipStatement ⟨3, 0⟩ (scan "@media m\x7ba\x7bb[;]c\x7d[;]\x7b\x7d\x7dp") = .ok r' ∧
      r = r' ∧ r = [⟨.ident "p", ⟨1, 24, 23⟩⟩] := by
  have h : (tryStatement ⟨3, 0⟩ .body
      (scan "@media m\x7ba\x7bb[;]c\x7d[;]\x7b\x7d\x7dp")).result
        = .ok [⟨.ident "p", ⟨1, 24, 23⟩⟩] := by
    with_unfolding_all rfl
  have h' : skipStatement ⟨3, 0⟩ (scan "@media m\x7ba\x7bb[;]c\x7d[;]\x7b\x7d\x7dp")
      = .ok [⟨.ident "p", ⟨1, 24, 23⟩⟩] := by
    with_unfolding_all rfl
  exact ⟨_, _, h, h', tryStatement_skipStatement h h', rfl⟩

end Grammar

end Css2
