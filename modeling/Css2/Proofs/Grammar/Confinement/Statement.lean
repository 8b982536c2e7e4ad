import Css2.Proofs.Grammar.Confinement.Block

/-!
# Statements do not look past their end

A statement that is read or skipped, with tokens left behind it, was ended by a semicolon or a
closing brace of its own, and its reading goes the same way without those tokens:
`tryStatement_append` for the grammar proper and `skipStatement_append` for the core grammar.

An attempt at a statement that fails is confined in the same way, as long as the core grammar can
skip that statement.  Only `@media` needs an argument there: what the attempt reads inside of it
stays inside of the pair of braces that the core grammar skips (`mediaBody_append`).
-/

namespace Css2

/-- What an attempt leaves behind, with more tokens at the end of the rest. -/
def Attempt.append (a : Attempt) (more : List Token) : Attempt :=
  { a with result := a.result.map (· ++ more) }

/-- What the inside of `@media` leaves behind, with more tokens at the end of the rest. -/
def Grammar.MediaBody.append (b : Grammar.MediaBody) (more : List Token) : Grammar.MediaBody :=
  { b with result := b.result.map (· ++ more) }

namespace Grammar

/-! ### Statements that are skipped -/

/-- What is skipped up to the end of a statement, if anything is left behind it, ends with a
stop. -/
theorem skipTail_behind {n : Nesting} {atRule : Bool} {ts r : List Token}
    (h : skipTail n atRule ts = .ok r) (hr : r ≠ []) : Behind ts r := by
  fun_induction skipTail n atRule ts with
  | case1 =>
    cases h
    exact absurd rfl hr
  | case2 t rest =>
    obtain ⟨deeper, _, h⟩ := bind_eq_ok h
    exact (contents_behind h hr).of_suffix (List.suffix_cons t rest)
  | case3 t rest _ hsemi =>
    cases h
    rw [Bool.and_eq_true] at hsemi
    exact ⟨[], t, rfl, by unfold isStop; rw [hsemi.2, Bool.true_or]⟩
  | case4 => cases h
  | case5 t rest _ _ closer ho after hb ih =>
    obtain ⟨deeper, _, hb⟩ := bind_eq_ok hb
    exact (ih h).of_suffix
      ((contents_suffix (isCloser_closerOf? ho) hb).trans (List.suffix_cons t rest))
  | case6 t rest _ _ _ _ ih => exact (ih h).of_suffix (List.suffix_cons t rest)
  | case7 => cases h

theorem brackets_append {m n : Nesting} {closer : Mark} {ts rest more : List Token}
    (hc : isCloser closer = true) (hm : more ≠ [])
    (h : contents m closer (ts ++ more) = .ok (rest ++ more)) :
    brackets n closer (ts ++ more) = (brackets n closer ts).map (· ++ more) := by
  unfold brackets
  rw [enter_append (contents_append_ne_nil hc hm h)]
  cases n.enter ts with
  | error e => rfl
  | ok deeper => exact contents_append hc hm h deeper

/-- The tokens `more` are left over, be it by the pair of braces that the statement is inside of
or by the skipping of the statement itself. -/
def Left (n : Nesting) (atRule : Bool) (ts more : List Token) : Prop :=
  (∃ m rest, contents m .closeBrace (ts ++ more) = .ok (rest ++ more)) ∨
    ∃ rest, skipTail n atRule (ts ++ more) = .ok (rest ++ more)

theorem Left.hasStop {n : Nesting} {atRule : Bool} {ts more : List Token}
    (h : Left n atRule ts more) (hm : more ≠ []) : HasStop ts := by
  rcases h with ⟨m, rest, h⟩ | ⟨rest, h⟩
  · exact (contents_behind h (by simp [hm])).hasStop
  · exact (skipTail_behind h (by simp [hm])).hasStop

theorem closerOf?_of_isMark_openBrace {l : Lexeme} (h : l.isMark .openBrace = true) :
    closerOf? l = some .closeBrace := by
  cases l with
  | mark m => cases m <;> first | rfl | cases h
  | _ => cases h

/-- A pair that the statement opens leaves the tokens over too, and so does what follows it. -/
theorem Left.opener {n : Nesting} {atRule : Bool} {t : Token} {us more : List Token} {closer : Mark}
    (h : Left n atRule (t :: us) more) (hm : more ≠ []) (ho : closerOf? t.lexeme = some closer)
    (hb : t.lexeme.isMark .openBrace = false) :
    ∃ d vs, contents d closer (us ++ more) = .ok (vs ++ more) ∧ Left n atRule vs more := by
  rcases h with ⟨m, rest, h⟩ | ⟨rest, h⟩
  · obtain ⟨d, after, hin, hout⟩ := contents_opener rfl ho h
    obtain ⟨vs, rfl⟩ := exists_append_of_suffix (contents_suffix rfl hout)
    exact ⟨d, vs, hin, .inl ⟨m, rest, hout⟩⟩
  · have hsemi : t.lexeme.isMark .semicolon = false := by
      have := isStop_of_closerOf? ho
      rw [isStop] at this
      simp_all
    rw [List.cons_append, skipTail_eq] at h
    simp only [hb, hsemi, ho, Bool.and_false, Bool.false_eq_true, if_false] at h
    obtain ⟨after, hin, hout⟩ := bind_eq_ok h
    obtain ⟨d, _, hin⟩ := bind_eq_ok hin
    obtain ⟨vs, rfl⟩ := exists_append_of_suffix (skipTail_behind hout (by simp [hm])).suffix
    exact ⟨d, vs, hin, .inr ⟨rest, hout⟩⟩

theorem Left.block {n : Nesting} {atRule : Bool} {t : Token} {us more : List Token}
    (h : Left n atRule (t :: us) more) (hb : t.lexeme.isMark .openBrace = true) :
    ∃ d vs, contents d .closeBrace (us ++ more) = .ok (vs ++ more) := by
  rcases h with ⟨m, rest, h⟩ | ⟨rest, h⟩
  · obtain ⟨d, after, hin, hout⟩ := contents_opener rfl (closerOf?_of_isMark_openBrace hb) h
    obtain ⟨vs, rfl⟩ := exists_append_of_suffix (contents_suffix rfl hout)
    exact ⟨d, vs, hin⟩
  · rw [List.cons_append, skipTail_eq] at h
    simp only [hb, if_true] at h
    obtain ⟨d, _, hin⟩ := bind_eq_ok h
    exact ⟨d, rest, hin⟩

theorem Left.plain {n : Nesting} {atRule : Bool} {t : Token} {us more : List Token}
    (h : Left n atRule (t :: us) more) (hp : isPlain t.lexeme = true) : Left n atRule us more := by
  have hst : Stretch (t :: (us ++ more)) (us ++ more) := .single _ hp
  rcases h with ⟨m, rest, h⟩ | ⟨rest, h⟩
  · exact .inl ⟨m, rest, hst.contents rfl h⟩
  · exact .inr ⟨rest, hst.skipTail h⟩

/-- **A statement is skipped in the same way without the tokens that are left over.** -/
theorem skipTail_append {n : Nesting} {atRule : Bool} {ts more : List Token} (hm : more ≠ [])
    (h : Left n atRule ts more) :
    skipTail n atRule (ts ++ more) = (skipTail n atRule ts).map (· ++ more) := by
  fun_induction skipTail n atRule ts with
  | case1 => exact absurd rfl (h.hasStop hm).ne_nil
  | case2 t us hb =>
    obtain ⟨d, vs, hin⟩ := h.block hb
    rw [List.cons_append, skipTail_eq]
    dsimp only
    rw [if_pos hb]
    exact brackets_append rfl hm hin
  | case3 t us hb hsemi =>
    rw [List.cons_append, skipTail_eq]
    dsimp only
    rw [if_neg hb, if_pos hsemi]
    rfl
  | case4 t us hb hsemi closer ho e he =>
    obtain ⟨d, vs, hin, hnext⟩ := h.opener hm ho (by simpa using hb)
    rw [List.cons_append, skipTail_eq]
    simp only [if_neg hb, if_neg hsemi, ho]
    rw [brackets_append (isCloser_closerOf? ho) hm hin, he]
    rfl
  | case5 t us hb hsemi closer ho after hafter ih =>
    obtain ⟨d, vs, hin, hnext⟩ := h.opener hm ho (by simpa using hb)
    have hc := isCloser_closerOf? ho
    have heq := brackets_append (n := n) hc hm hin
    rw [hafter] at heq
    -- the pair is closed where it was closed before
    obtain ⟨d', _, hin'⟩ := bind_eq_ok heq
    have hvs : after = vs := List.append_cancel_right (contents_agree hc hin' hin)
    subst hvs
    rw [List.cons_append, skipTail_eq]
    simp only [if_neg hb, if_neg hsemi, ho]
    rw [heq]
    exact ih hnext
  | case6 t us hb hsemi ho hp ih =>
    rw [List.cons_append, skipTail_eq]
    simp only [if_neg hb, if_neg hsemi, ho, if_pos hp]
    exact ih (h.plain hp)
  | case7 t us hb hsemi ho hp =>
    rw [List.cons_append, skipTail_eq]
    simp only [if_neg hb, if_neg hsemi, ho, if_neg hp]
    rfl

theorem skipStatement_behind {n : Nesting} {ts r : List Token} (h : skipStatement n ts = .ok r)
    (hr : r ≠ []) : Behind ts r := by
  unfold skipStatement at h
  split at h
  · cases h
  · exact (skipTail_behind h hr).of_suffix (List.suffix_cons _ _)
  · exact skipTail_behind h hr

theorem skipStatement_append {n : Nesting} {ts more : List Token} (hm : more ≠ [])
    (h : (∃ m rest, contents m .closeBrace (ts ++ more) = .ok (rest ++ more)) ∨
      ∃ rest, skipStatement n (ts ++ more) = .ok (rest ++ more)) :
    skipStatement n (ts ++ more) = (skipStatement n ts).map (· ++ more) := by
  cases ts with
  | nil =>
    rcases h with ⟨m, rest, h⟩ | ⟨rest, h⟩
    · exact absurd rfl (contents_append_ne_nil rfl hm h)
    · have hlt := skipStatement_lt h
      simp only [List.nil_append, List.length_append] at hlt
      omega
  | cons t us =>
    obtain ⟨l, loc⟩ := t
    cases l with
    | atKeyword name =>
      have hleft : Left n true us more := by
        rcases h with ⟨m, rest, h⟩ | ⟨rest, h⟩
        · exact .inl ⟨m, rest, (contents_other rfl rfl h).2⟩
        · exact .inr ⟨rest, h⟩
      exact skipTail_append hm hleft
    | _ => exact skipTail_append hm h

/-! ### Blocks and what follows them -/

theorem block_behind {n : Nesting} {ts : List Token} {b : Lenient (List Declaration)}
    (h : block n ts = .ok b) (hb : b.rest ≠ []) : Behind ts b.rest := by
  rw [block] at h
  obtain ⟨us, he, h⟩ := bind_eq_ok h
  obtain ⟨deeper, _, h⟩ := bind_eq_ok h
  cases h
  obtain ⟨loc, rfl⟩ := expect_eq_ok he
  exact (declarations_behind hb).of_suffix (List.suffix_cons _ us)

theorem ruleset_behind {n : Nesting} {ts : List Token} {x : Lenient Ruleset}
    (h : ruleset n ts = .ok x) (hx : x.rest ≠ []) : Behind ts x.rest := by
  rw [ruleset] at h
  obtain ⟨⟨s, us⟩, hs, h⟩ := bind_eq_ok h
  obtain ⟨b, hb, h⟩ := bind_eq_ok h
  cases h
  exact (block_behind hb hx).of_suffix (selector_stretch hs).suffix

theorem mediaBody_behind {n : Nesting} {ts r : List Token} (h : (mediaBody n ts).result = .ok r)
    (hr : r ≠ []) : Behind ts r := by
  fun_induction mediaBody n ts with
  | case1 =>
    cases h
    exact absurd rfl hr
  | case2 ts t rest hs hclose =>
    cases h
    have hb : Behind (t :: r) r :=
      ⟨[], t, rfl, by unfold isStop; rw [hclose, Bool.or_true]⟩
    rw [← hs] at hb
    exact hb.of_suffix (skipTrivia_suffix ts)
  | case3 ts t rest hs _ x hx more ih =>
    have hb := ih h
    have hne : x.rest ≠ [] := by
      intro hnil
      rw [hnil] at hb
      exact hr (List.suffix_nil.1 hb.suffix)
    have hx := (ruleset_behind hx hne).suffix
    rw [← hs] at hx
    exact hb.of_suffix (hx.trans (skipTrivia_suffix ts))
  | case4 => cases h
  | case5 ts t rest hs _ e _ after hk more ih =>
    have hb := ih h
    have hne : after ≠ [] := by
      intro hnil
      rw [hnil] at hb
      exact hr (List.suffix_nil.1 hb.suffix)
    have hk := (skipStatement_behind hk hne).suffix
    rw [← hs] at hk
    exact hb.of_suffix (hk.trans (skipTrivia_suffix ts))

/-! ### The inside of `@media` -/

/-- The first step inside of `@media`, where there is a stop, with more tokens behind that. -/
theorem mediaBody_step {n : Nesting} {ts us : List Token} {t : Token} (h : HasStop ts)
    (heq : skipTrivia ts = t :: us) (more : List Token) :
    mediaBody n (ts ++ more) =
      if t.lexeme.isMark .closeBrace then ⟨[], [], none, .ok (us ++ more)⟩
      else match ruleset n (t :: us ++ more) with
        | .ok r =>
          let b := mediaBody n r.rest
          ⟨r.value :: b.rules, r.skipped ++ b.skipped,
            b.activity.or (some (.completed .ruleset)), b.result⟩
        | .error e =>
          match skipStatement n (t :: us ++ more) with
          | .error e' => ⟨[], [e], some (.reading .ruleset), .error e'⟩
          | .ok after =>
            let b := mediaBody n after
            ⟨b.rules, e :: b.skipped, b.activity.or (some (.reading .ruleset)), b.result⟩ := by
  rw [mediaBody_eq, skipTrivia_append h, heq]
  rfl

/-- The tokens `more` are left over, be it by the pair of braces around or by the reading of what
is inside of them. -/
def MediaLeft (n : Nesting) (ts more : List Token) : Prop :=
  (∃ m rest, contents m .closeBrace (ts ++ more) = .ok (rest ++ more)) ∨
    ∃ rest, (mediaBody n (ts ++ more)).result = .ok (rest ++ more)

theorem MediaLeft.hasStop {n : Nesting} {ts more : List Token} (h : MediaLeft n ts more)
    (hm : more ≠ []) : HasStop ts := by
  rcases h with ⟨m, rest, h⟩ | ⟨rest, h⟩
  · exact (contents_behind h (by simp [hm])).hasStop
  · exact (mediaBody_behind h (by simp [hm])).hasStop

section

variable {n : Nesting} {ts us more : List Token} {t : Token}

theorem MediaLeft.contents {m : Nesting} {r : List Token} (hm : more ≠ [])
    (heq : skipTrivia ts = t :: us)
    (h : Grammar.contents m .closeBrace (ts ++ more) = .ok (r ++ more)) :
    Grammar.contents m .closeBrace (t :: us ++ more) = .ok (r ++ more) := by
  have hstop : HasStop ts := (contents_behind h (by simp [hm])).hasStop
  rw [← heq, ← skipTrivia_append hstop]
  exact (skipTrivia_stretch _).contents rfl h

/-- A ruleset inside of `@media` leaves the tokens over, and so does what follows it. -/
theorem MediaLeft.ruleset (h : MediaLeft n ts more) (hm : more ≠ []) (heq : skipTrivia ts = t :: us)
    (hclose : ¬t.lexeme.isMark .closeBrace = true) {x : Lenient Ruleset}
    (hx : Grammar.ruleset n (t :: us ++ more) = .ok x) :
    ∃ rest, x.rest = rest ++ more ∧ MediaLeft n rest more := by
  have hstop := h.hasStop hm
  rcases h with ⟨m, r, h⟩ | ⟨r, h⟩
  · have hout := ruleset_contents rfl (MediaLeft.contents hm heq h) hx
    obtain ⟨rest, hrest⟩ := exists_append_of_suffix (contents_suffix rfl hout)
    rw [hrest] at hout
    exact ⟨rest, hrest, .inl ⟨m, r, hout⟩⟩
  · rw [mediaBody_step hstop heq, if_neg hclose, hx] at h
    dsimp only at h
    obtain ⟨rest, hrest⟩ := exists_append_of_suffix (mediaBody_behind h (by simp [hm])).suffix
    rw [hrest] at h
    exact ⟨rest, hrest, .inr ⟨r, h⟩⟩

/-- A statement that is skipped inside of `@media` leaves the tokens over. -/
theorem MediaLeft.skipStatement (h : MediaLeft n ts more) (hm : more ≠ [])
    (heq : skipTrivia ts = t :: us) (hclose : ¬t.lexeme.isMark .closeBrace = true) {e : Failure}
    (hx : Grammar.ruleset n (t :: us ++ more) = .error e) :
    (∃ m rest, Grammar.contents m .closeBrace (t :: us ++ more) = .ok (rest ++ more)) ∨
      ∃ rest, Grammar.skipStatement n (t :: us ++ more) = .ok (rest ++ more) := by
  have hstop := h.hasStop hm
  rcases h with ⟨m, r, h⟩ | ⟨r, h⟩
  · exact .inl ⟨m, r, MediaLeft.contents hm heq h⟩
  · rw [mediaBody_step hstop heq, if_neg hclose, hx] at h
    dsimp only at h
    split at h
    · cases h
    · next after hk =>
      obtain ⟨rest, rfl⟩ := exists_append_of_suffix (mediaBody_behind h (by simp [hm])).suffix
      exact .inr ⟨rest, hk⟩

/-- What follows a statement that is skipped inside of `@media` leaves the tokens over. -/
theorem MediaLeft.after (h : MediaLeft n ts more) (hm : more ≠ []) (heq : skipTrivia ts = t :: us)
    (hclose : ¬t.lexeme.isMark .closeBrace = true) {e : Failure} {rest : List Token}
    (hx : Grammar.ruleset n (t :: us ++ more) = .error e)
    (hk : Grammar.skipStatement n (t :: us ++ more) = .ok (rest ++ more)) :
    MediaLeft n rest more := by
  have hstop := h.hasStop hm
  rcases h with ⟨m, r, h⟩ | ⟨r, h⟩
  · exact .inl ⟨m, r, skipStatement_contents rfl (MediaLeft.contents hm heq h) hk⟩
  · rw [mediaBody_step hstop heq, if_neg hclose, hx] at h
    dsimp only at h
    rw [hk] at h
    exact .inr ⟨r, h⟩

end

/-- **The inside of `@media` is read in the same way without the tokens that are left over.** -/
theorem mediaBody_append {n : Nesting} {ts more : List Token} (hm : more ≠ [])
    (h : MediaLeft n ts more) : mediaBody n (ts ++ more) = (mediaBody n ts).append more := by
  have hstop := h.hasStop hm
  fun_induction mediaBody n ts with
  | case1 ts heq =>
    have hs := hstop.skipTrivia
    rw [heq] at hs
    exact absurd rfl hs.ne_nil
  | case2 ts t us heq hclose =>
    rw [mediaBody_step hstop heq, if_pos hclose]
    rfl
  | case3 ts t us heq hclose x hx b ih =>
    have hs := hstop.skipTrivia
    rw [heq] at hs
    have hlong := ruleset_append hm hs fun y hy => by
      obtain ⟨rest, hrest, _⟩ := h.ruleset hm heq hclose hy
      exact ⟨rest, hrest⟩
    rw [hx] at hlong
    obtain ⟨rest, hrest, hleft⟩ := h.ruleset hm heq hclose hlong
    have hxr : x.rest = rest := List.append_cancel_right hrest
    subst hxr
    rw [mediaBody_step hstop heq, if_neg hclose, hlong]
    dsimp only [Except.map, Lenient.append]
    rw [ih hleft (hleft.hasStop hm)]
    rfl
  | case4 ts t us heq hclose e hx e' hk =>
    have hs := hstop.skipTrivia
    rw [heq] at hs
    have hlong := ruleset_append hm hs fun y hy => by
      obtain ⟨rest, hrest, _⟩ := h.ruleset hm heq hclose hy
      exact ⟨rest, hrest⟩
    rw [hx] at hlong
    have hskip := skipStatement_append hm (h.skipStatement hm heq hclose hlong)
    rw [hk] at hskip
    rw [mediaBody_step hstop heq, if_neg hclose, hlong]
    dsimp only [Except.map]
    rw [hskip]
    rfl
  | case5 ts t us heq hclose e hx after hk b ih =>
    have hs := hstop.skipTrivia
    rw [heq] at hs
    have hlong := ruleset_append hm hs fun y hy => by
      obtain ⟨rest, hrest, _⟩ := h.ruleset hm heq hclose hy
      exact ⟨rest, hrest⟩
    rw [hx] at hlong
    have hskip := skipStatement_append hm (h.skipStatement hm heq hclose hlong)
    rw [hk] at hskip
    have hleft := h.after hm heq hclose hlong hskip
    rw [mediaBody_step hstop heq, if_neg hclose, hlong]
    dsimp only [Except.map]
    rw [hskip]
    dsimp only [Except.map]
    rw [ih hleft (hleft.hasStop hm)]
    rfl

/-! ### Statements at the top -/

/-- The result of an attempt, if it is a rest, has the given tokens at its end. -/
def Attempt.Spares (more : List Token) (a : Attempt) : Prop :=
  ∀ r, a.result = .ok r → ∃ rest, r = rest ++ more

theorem tryRuleset_append {n : Nesting} {ts more : List Token} (hm : more ≠ [])
    (hstop : HasStop ts) (h : Attempt.Spares more (tryRuleset n (ts ++ more))) :
    tryRuleset n (ts ++ more) = (tryRuleset n ts).append more := by
  unfold tryRuleset at h ⊢
  have hlong := ruleset_append (n := n) hm hstop fun x hx => by
    rw [hx] at h
    exact h _ rfl
  rw [hlong]
  cases ruleset n ts with
  | error e => rfl
  | ok x => rfl

theorem tryCharset_append {ts : List Token} (hstop : HasStop ts) (more : List Token) :
    tryCharset (ts ++ more) = (tryCharset ts).append more := by
  unfold tryCharset
  rw [charset_append hstop]
  cases charset ts with
  | error e => rfl
  | ok x => rfl

theorem tryImport_append {ts : List Token} (hstop : HasStop ts) (more : List Token) :
    tryImport (ts ++ more) = (tryImport ts).append more := by
  unfold tryImport
  rw [importSheet_append hstop]
  cases importSheet ts with
  | error e => rfl
  | ok x => rfl

theorem tryPage_append {n : Nesting} {ts more : List Token} (hm : more ≠ [])
    (hstop : HasStop ts) (h : Attempt.Spares more (tryPage n (ts ++ more))) :
    tryPage n (ts ++ more) = (tryPage n ts).append more := by
  unfold tryPage at h ⊢
  have hlong := page_append (n := n) hm hstop fun name pseudo b hb => by
    rw [hb] at h
    exact h _ rfl
  rw [hlong]
  cases page n ts with
  | error e => rfl
  | ok x => rfl

theorem tryFontFace_append {n : Nesting} {ts more : List Token} (hm : more ≠ [])
    (hstop : HasStop ts) (h : Attempt.Spares more (tryFontFace n (ts ++ more))) :
    tryFontFace n (ts ++ more) = (tryFontFace n ts).append more := by
  unfold tryFontFace at h ⊢
  rw [skipTrivia_append hstop] at h ⊢
  have hlong := block_append (n := n) hm hstop.skipTrivia fun b hb => by
    rw [hb] at h
    exact h _ rfl
  rw [hlong]
  cases block n (skipTrivia ts) with
  | error e => rfl
  | ok b => rfl

theorem mediaHead_append {n : Nesting} {ts : List Token} (hstop : HasStop ts)
    (more : List Token) :
    mediaHead n (ts ++ more) = (mediaHead n ts).map fun r => (r.1, r.2.1, r.2.2 ++ more) := by
  rw [mediaHead]
  rw [skipTrivia_append hstop]
  refine bind_extend more (mediaList_append hstop.skipTrivia more) fun names us hl => ?_
  have hus := hstop.skipTrivia.stretch (mediaList_stretch hl)
  dsimp only
  rw [expect_append hus]
  cases he : expect .openBrace us with
  | error e => rfl
  | ok vs =>
    obtain ⟨loc, rfl⟩ := expect_eq_ok he
    have hvs : HasStop vs := hus.tail rfl
    dsimp only [Except.map, bind, Except.bind]
    rw [enter_append hvs.ne_nil]
    cases n.enter vs <;> rfl

theorem tryMedia_append {n : Nesting} {ts more : List Token} (hm : more ≠ [])
    (hstop : HasStop ts) (h : (∃ rest, (tryMedia n (ts ++ more)).result = .ok (rest ++ more)) ∨
      ∃ m rest, skipTail m true (ts ++ more) = .ok (rest ++ more)) :
    tryMedia n (ts ++ more) = (tryMedia n ts).append more := by
  have hhead := mediaHead_append (n := n) hstop more
  unfold tryMedia at h ⊢
  cases hts : mediaHead n ts with
  | error e =>
    rw [hhead, hts]
    rfl
  | ok x =>
    obtain ⟨names, deeper, us⟩ := x
    rw [hts] at hhead
    rw [hhead] at h ⊢
    dsimp only [Except.map] at hhead h ⊢
    have hleft : MediaLeft deeper us more := by
      rcases h with ⟨rest, h⟩ | ⟨m, rest, h⟩
      · split at h
        · next hb =>
          cases h
          exact .inr ⟨rest, hb⟩
        · cases h
      · obtain ⟨d, hd⟩ := mediaHead_contents hhead h
        exact .inl ⟨d, rest, hd⟩
    rw [mediaBody_append hm hleft]
    unfold MediaBody.append
    cases hb : (mediaBody deeper us).result with
    | error e => rfl
    | ok rest => rfl

theorem charset_behind {ts r : List Token} {name : String} (h : charset ts = .ok (name, r)) :
    Behind ts r := by
  rw [charset] at h
  obtain ⟨⟨value, us⟩, hv, h⟩ := bind_eq_ok h
  obtain ⟨vs, he, h⟩ := bind_eq_ok h
  cases h
  obtain ⟨loc, hloc⟩ := expect_eq_ok he
  have hst := (skipTrivia_stretch ts).trans ((string_stretch hv).trans (skipTrivia_stretch us))
  rw [hloc] at hst
  exact Behind.of_suffix ⟨[], _, rfl, rfl⟩ hst.suffix

theorem importSheet_behind {ts r : List Token} {x : String × List String}
    (h : importSheet ts = .ok (x, r)) (hr : r ≠ []) : Behind ts r := by
  rw [importSheet] at h
  obtain ⟨⟨address, us⟩, ha, h⟩ := bind_eq_ok h
  obtain ⟨⟨names, vs⟩, hm, h⟩ := bind_eq_ok h
  have hst := (skipTrivia_stretch ts).trans ((importAddress_stretch ha).trans
    ((skipTrivia_stretch us).trans (importMedia_stretch hm)))
  dsimp only at h
  split at h
  · cases h
    exact absurd rfl hr
  · obtain ⟨ws, he, h⟩ := bind_eq_ok h
    cases h
    obtain ⟨loc, rfl⟩ := expect_eq_ok he
    exact Behind.of_suffix ⟨[], _, rfl, rfl⟩ hst.suffix

theorem page_behind {n : Nesting} {ts : List Token} {name pseudo : Option String}
    {b : Lenient (List Declaration)} (h : page n ts = .ok (name, pseudo, b))
    (hb : b.rest ≠ []) : Behind ts b.rest := by
  rw [page] at h
  dsimp only at h
  obtain ⟨⟨pseudo', us⟩, hp, h⟩ := bind_eq_ok h
  obtain ⟨b', hblock, h⟩ := bind_eq_ok h
  cases h
  have hst := (skipTrivia_stretch ts).trans ((pageName_stretch _).trans
    ((pagePseudo_stretch hp).trans (skipTrivia_stretch us)))
  exact (block_behind hblock hb).of_suffix hst.suffix

theorem mediaHead_suffix {n deeper : Nesting} {ts us : List Token} {names : List String}
    (h : mediaHead n ts = .ok (names, deeper, us)) : us <:+ ts := by
  rw [mediaHead] at h
  obtain ⟨⟨names', vs⟩, hl, h⟩ := bind_eq_ok h
  obtain ⟨ws, he, h⟩ := bind_eq_ok h
  obtain ⟨d, _, h⟩ := bind_eq_ok h
  cases h
  obtain ⟨loc, rfl⟩ := expect_eq_ok he
  exact (List.suffix_cons _ us).trans
    ((skipTrivia_stretch ts).trans (mediaList_stretch hl)).suffix

/-- **What follows a statement that is read, if that is anything, follows a stop.** -/
theorem tryStatement_behind {n : Nesting} {phase : Phase} {ts r : List Token}
    (h : (tryStatement n phase ts).result = .ok r) (hr : r ≠ []) : Behind ts r := by
  have htail : ts.tail <:+ ts := List.tail_suffix ts
  rw [tryStatement] at h
  split at h
  · rw [tryRuleset] at h
    split at h
    · cases h
    · next hx =>
      cases h
      exact ruleset_behind hx hr
  · split at h
    · rw [tryCharset] at h
      split at h
      · cases h
      · next hx =>
        cases h
        exact (charset_behind hx).of_suffix htail
    · cases h
  · split at h
    · cases h
    · rw [tryImport] at h
      split at h
      · cases h
      · next hx =>
        cases h
        exact (importSheet_behind hx hr).of_suffix htail
  · rw [tryMedia] at h
    split at h
    · cases h
    · next names deeper us hm =>
      dsimp only at h
      split at h
      · next hb =>
        cases h
        exact (mediaBody_behind hb hr).of_suffix ((mediaHead_suffix hm).trans htail)
      · cases h
  · rw [tryPage] at h
    split at h
    · cases h
    · next hx =>
      cases h
      exact (page_behind hx hr).of_suffix htail
  · rw [tryFontFace] at h
    split at h
    · cases h
    · next hx =>
      cases h
      exact (block_behind hx hr).of_suffix ((skipTrivia_suffix _).trans htail)
  · cases h

theorem keyword?_append {ts : List Token} (h : ts ≠ []) (more : List Token) :
    keyword? (ts ++ more) = keyword? ts := by
  cases ts with
  | nil => exact absurd rfl h
  | cons t ts =>
    obtain ⟨l, loc⟩ := t
    cases l <;> rfl

theorem HasStop.of_keyword? {ts : List Token} {name : String} (h : HasStop ts)
    (hk : keyword? ts = some name) : HasStop ts.tail := by
  unfold keyword? at hk
  split at hk
  · exact h.tail rfl
  · cases hk

/-- **A statement is read in the same way without the tokens that are left over**, be they left
over by its reading or, where that fails, by the core grammar. -/
theorem tryStatement_append {n : Nesting} {phase : Phase} {ts more : List Token} (hm : more ≠ [])
    (h : (∃ rest, (tryStatement n phase (ts ++ more)).result = .ok (rest ++ more)) ∨
      (∃ e, (tryStatement n phase (ts ++ more)).result = .error e) ∧
        ∃ m rest, skipStatement m (ts ++ more) = .ok (rest ++ more)) :
    tryStatement n phase (ts ++ more) = (tryStatement n phase ts).append more := by
  have hstop : HasStop ts := by
    rcases h with ⟨rest, h⟩ | ⟨_, m, rest, h⟩
    · exact (tryStatement_behind h (by simp [hm])).hasStop
    · exact (skipStatement_behind h (by simp [hm])).hasStop
  have hspares : Attempt.Spares more (tryStatement n phase (ts ++ more)) := by
    intro r hr
    rcases h with ⟨rest, h⟩ | ⟨⟨e, h⟩, _⟩
    · rw [hr] at h
      cases h
      exact ⟨rest, rfl⟩
    · rw [hr] at h
      cases h
  have htail : (ts ++ more).tail = ts.tail ++ more := List.tail_append_of_ne_nil hstop.ne_nil
  have hkey := keyword?_append hstop.ne_nil more
  unfold tryStatement at hspares ⊢
  rw [hkey, htail] at hspares ⊢
  split at hspares
  · exact tryRuleset_append hm hstop hspares
  · next hk =>
    split
    · exact tryCharset_append (hstop.of_keyword? hk) more
    · unfold failHere
      rw [place_append hstop.ne_nil]
      rfl
  · next hk =>
    split
    · unfold failHere
      rw [place_append hstop.ne_nil]
      rfl
    · exact tryImport_append (hstop.of_keyword? hk) more
  · next hk =>
    refine tryMedia_append hm (hstop.of_keyword? hk) ?_
    rcases h with ⟨rest, h⟩ | ⟨_, m, rest, h⟩
    · left
      unfold tryStatement at h
      rw [hkey, hk, htail] at h
      exact ⟨rest, h⟩
    · right
      have hs := skipStatement_atKeyword (hkey.trans hk) h
      rw [htail] at hs
      exact ⟨m, rest, hs⟩
  · next hk => exact tryPage_append hm (hstop.of_keyword? hk) hspares
  · next hk => exact tryFontFace_append hm (hstop.of_keyword? hk) hspares
  · unfold failHere
    rw [place_append hstop.ne_nil]
    rfl

end Grammar

end Css2
