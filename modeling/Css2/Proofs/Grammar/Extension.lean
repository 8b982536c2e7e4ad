import Css2.Proofs.Grammar.Stretch

/-!
# Tokens behind a stop

No value, no selector and no head of an at-rule reads past a semicolon or a closing brace.  Where
the tokens at hand hold such a stop, more tokens at their end make no difference: what is read is
the same, the failures are the same, and the rest is longer by what was added.  Each production
has this as an equation, by `extend` (`terms_append`, `selector_append`, `importSheet_append` and
so on).
-/

namespace Css2

namespace Grammar

/-! ### Stops -/

/-- There is a semicolon or a closing brace among the tokens. -/
def HasStop (ts : List Token) : Prop :=
  ∃ t ∈ ts, isStop t.lexeme = true

theorem HasStop.ne_nil {ts : List Token} (h : HasStop ts) : ts ≠ [] := by
  rintro rfl
  obtain ⟨t, ht, _⟩ := h
  cases ht

theorem HasStop.stretch {ts us : List Token} (h : HasStop ts) (hs : Stretch ts us) :
    HasStop us := by
  obtain ⟨ps, rfl, hps⟩ := hs.exists_append
  obtain ⟨t, ht, hstop⟩ := h
  rcases List.mem_append.1 ht with ht | ht
  · rw [hps t ht] at hstop
    cases hstop
  · exact ⟨t, ht, hstop⟩

theorem HasStop.tail {t : Token} {ts : List Token} (h : HasStop (t :: ts))
    (ht : isStop t.lexeme = false) : HasStop ts := by
  obtain ⟨u, hu, hstop⟩ := h
  rcases List.mem_cons.1 hu with rfl | hu
  · rw [ht] at hstop
    cases hstop
  · exact ⟨u, hu, hstop⟩

/-! ### Results with more tokens behind them -/

/-- A result with more tokens at the end of its rest. -/
def extend {α : Type} (more : List Token) (r : Except Failure (α × List Token)) :
    Except Failure (α × List Token) :=
  r.map fun x => (x.1, x.2 ++ more)

@[simp] theorem extend_ok {α : Type} (more : List Token) (a : α) (rest : List Token) :
    extend more (.ok (a, rest)) = .ok (a, rest ++ more) := rfl

@[simp] theorem extend_error {α : Type} (more : List Token) (e : Failure) :
    extend (α := α) more (.error e) = .error e := rfl

theorem bind_extend {α β : Type} (more : List Token) {r r' : Except Failure (α × List Token)}
    {f : α × List Token → Except Failure β} {g : β → β} (hr : r' = extend more r)
    (hf : ∀ a rest, r = .ok (a, rest) → f (a, rest ++ more) = (f (a, rest)).map g) :
    (r' >>= f) = (r >>= f).map g := by
  rw [hr]
  cases r with
  | error e => rfl
  | ok x => exact hf x.1 x.2 rfl

/-- The first step may give nothing but a rest. -/
theorem bind_append {β : Type} (more : List Token) {r r' : Except Failure (List Token)}
    {f : List Token → Except Failure β} {g : β → β} (hr : r' = r.map (· ++ more))
    (hf : ∀ rest, r = .ok rest → f (rest ++ more) = (f rest).map g) :
    (r' >>= f) = (r >>= f).map g := by
  rw [hr]
  cases r with
  | error e => rfl
  | ok rest => exact hf rest rfl

/-! ### Single tokens -/

theorem skipTrivia_append {ts : List Token} (h : HasStop ts) (more : List Token) :
    skipTrivia (ts ++ more) = skipTrivia ts ++ more := by
  unfold skipTrivia
  rw [List.dropWhile_append, if_neg]
  intro hempty
  exact (h.stretch (skipTrivia_stretch ts)).ne_nil (List.isEmpty_iff.1 hempty)

theorem spaced_append {ts : List Token} (h : HasStop ts) (more : List Token) :
    spaced (ts ++ more) = spaced ts := by
  unfold spaced
  rw [List.takeWhile_append, if_neg]
  intro hlen
  have hsplit := List.takeWhile_append_dropWhile (p := fun t : Token => t.lexeme.isTrivia) (l := ts)
  have hlen' := congrArg List.length hsplit
  rw [List.length_append, hlen] at hlen'
  have hnil : skipTrivia ts = [] := List.eq_nil_of_length_eq_zero (by unfold skipTrivia; omega)
  exact (h.stretch (skipTrivia_stretch ts)).ne_nil hnil

theorem HasStop.skipTrivia {ts : List Token} (h : HasStop ts) : HasStop (skipTrivia ts) :=
  h.stretch (skipTrivia_stretch ts)

theorem place_append {ts : List Token} (h : ts ≠ []) (more : List Token) :
    place (ts ++ more) = place ts := by
  cases ts with
  | nil => exact absurd rfl h
  | cons t ts => rfl

theorem missing_append {ts : List Token} (h : HasStop ts) (what : Expectation)
    (more : List Token) : missing what (ts ++ more) = missing what ts := by
  cases ts with
  | nil => exact absurd rfl h.ne_nil
  | cons t ts => rfl

theorem expect_append {ts : List Token} (h : HasStop ts) (m : Mark) (more : List Token) :
    expect m (ts ++ more) = (expect m ts).map (· ++ more) := by
  cases ts with
  | nil => exact absurd rfl h.ne_nil
  | cons t ts =>
    obtain ⟨l, loc⟩ := t
    cases l with
    | mark n =>
      by_cases hn : n = m <;> simp [expect, hn, Except.map, missing]
    | _ => rfl

theorem ident_append {ts : List Token} (h : HasStop ts) (what : Expectation)
    (more : List Token) : ident what (ts ++ more) = extend more (ident what ts) := by
  cases ts with
  | nil => exact absurd rfl h.ne_nil
  | cons t ts =>
    obtain ⟨l, loc⟩ := t
    cases l <;> rfl

theorem string_append {ts : List Token} (h : HasStop ts) (what : Expectation)
    (more : List Token) : string what (ts ++ more) = extend more (string what ts) := by
  cases ts with
  | nil => exact absurd rfl h.ne_nil
  | cons t ts =>
    obtain ⟨l, loc⟩ := t
    cases l <;> rfl

theorem enter_append {ts : List Token} (h : ts ≠ []) (n : Nesting) (more : List Token) :
    n.enter (ts ++ more) = n.enter ts := by
  unfold Nesting.enter failHere
  rw [place_append h]

/-! ### Values -/

theorem sign_append {ts : List Token} (h : HasStop ts) (more : List Token) :
    sign (ts ++ more) = ((sign ts).1, (sign ts).2 ++ more) := by
  cases ts with
  | nil => exact absurd rfl h.ne_nil
  | cons t ts =>
    obtain ⟨l, loc⟩ := t
    cases l with
    | delim c =>
      rw [List.cons_append]
      unfold sign
      dsimp only
      split
      · rfl
      · split <;> rfl
    | _ => rfl

theorem next?_append {ts : List Token} (h : HasStop ts) (more : List Token) :
    next? (ts ++ more) = (next? ts).map fun r => (r.1, r.2 ++ more) := by
  have hs := h.skipTrivia
  unfold next?
  rw [skipTrivia_append h]
  cases heq : skipTrivia ts with
  | nil => exact absurd heq hs.ne_nil
  | cons t us =>
    rw [heq] at hs
    rw [List.cons_append]
    dsimp only
    by_cases hcomma : t.lexeme.isMark .comma = true
    · have hus : HasStop us := hs.stretch (.single us (isPlain_of_isMark_comma hcomma))
      rw [if_pos hcomma, if_pos hcomma, skipTrivia_append hus]
      rfl
    · rw [if_neg hcomma, if_neg hcomma]
      by_cases hslash : t.lexeme.isDelim '/' = true
      · have hus : HasStop us := hs.stretch (.single us (isPlain_of_isDelim hslash))
        rw [if_pos hslash, if_pos hslash, skipTrivia_append hus]
        rfl
      · rw [if_neg hslash, if_neg hslash]
        split <;> rfl

theorem value_append_of {n : Nesting} {t : Token} {rest : List Token} (h : HasStop (t :: rest))
    (more : List Token)
    (ih : ∀ deeper us, us.length ≤ rest.length → HasStop us →
      terms deeper (us ++ more) = extend more (terms deeper us)) :
    value n t (rest ++ more) = extend more (value n t rest) := by
  unfold value
  split
  · next name hl =>
    have hrest : HasStop rest := h.tail (by rw [hl]; rfl)
    rw [enter_append hrest.ne_nil]
    cases n.enter rest with
    | error e => rfl
    | ok deeper =>
      refine bind_extend more ?_ fun args after hargs => ?_
      · rw [skipTrivia_append hrest]
        exact ih deeper _ (skipTrivia_le rest) hrest.skipTrivia
      · have hafter := hrest.skipTrivia.stretch (terms_stretch hargs)
        refine bind_append more ?_ fun close _ => rfl
        rw [skipTrivia_append hafter]
        exact expect_append hafter.skipTrivia _ more
  · split <;> rfl

/-- **No value reads past a stop.** -/
theorem terms_append {n : Nesting} {ts : List Token} (h : HasStop ts) (more : List Token) :
    terms n (ts ++ more) = extend more (terms n ts) := by
  induction hlen : ts.length using Nat.strongRecOn generalizing n ts with
  | ind len ih =>
    have hsign := sign_le ts
    have hs := h.stretch (sign_stretch ts)
    rw [terms_eq, terms_eq, sign_append h]
    cases heq : sign ts with
    | mk s us =>
      rw [heq] at hsign hs
      cases us with
      | nil => exact absurd rfl hs.ne_nil
      | cons t rest =>
        simp only [List.length_cons] at hsign
        rw [List.cons_append]
        dsimp only
        refine bind_extend more (value_append_of hs more fun deeper us hle hus => ?_)
          fun v after hv => ?_
        · exact ih _ (by omega) hus rfl
        · have hafter := hs.stretch (value_stretch hv)
          have hle := value_le hv
          dsimp only
          split
          · rfl
          · rw [next?_append hafter, skipTrivia_append hafter]
            cases hnext : next? after with
            | none => rfl
            | some r =>
              obtain ⟨sep, following⟩ := r
              have hfollowing := hafter.stretch (next?_stretch hnext)
              have hlef := next?_le hnext
              dsimp only [Option.map]
              exact bind_extend more (ih _ (by omega) hfollowing rfl) fun ds final _ => rfl

theorem declaration_append {n : Nesting} {ts : List Token} (h : HasStop ts)
    (more : List Token) : declaration n (ts ++ more) = extend more (declaration n ts) := by
  rw [declaration]
  refine bind_extend more (ident_append h _ more) fun property us hi => ?_
  have hus := h.stretch (ident_stretch hi)
  refine bind_append more ?_ fun vs he => ?_
  · rw [skipTrivia_append hus]
    exact expect_append hus.skipTrivia _ more
  have hvs := hus.skipTrivia.stretch (expect_stretch rfl he)
  refine bind_extend more ?_ fun value ws ht => ?_
  · rw [skipTrivia_append hvs]
    exact terms_append hvs.skipTrivia more
  have hws := hvs.skipTrivia.stretch (terms_stretch ht)
  cases ws with
  | nil => exact absurd rfl hws.ne_nil
  | cons t tail =>
    obtain ⟨l, loc⟩ := t
    cases l with
    | important =>
      have htail : HasStop tail := hws.tail rfl
      simp only [List.cons_append, skipTrivia_append htail]
      rfl
    | _ => rfl

theorem endsDeclaration_append {ts : List Token} (h : HasStop ts) (more : List Token) :
    endsDeclaration (ts ++ more) = endsDeclaration ts := by
  cases ts with
  | nil => exact absurd rfl h.ne_nil
  | cons t ts => rfl

/-- **No declaration in a list reads past a stop.** -/
theorem listedDeclaration_append {n : Nesting} {ts : List Token} (h : HasStop ts)
    (more : List Token) :
    listedDeclaration n (ts ++ more) = extend more (listedDeclaration n ts) := by
  rw [listedDeclaration]
  refine bind_extend more (declaration_append h more) fun d rest hd => ?_
  have hrest := h.stretch (declaration_stretch hd)
  dsimp only
  rw [endsDeclaration_append hrest, missing_append hrest]
  split <;> rfl

/-! ### Selectors -/

theorem attributeValue_append {ts : List Token} (h : HasStop ts) (more : List Token) :
    attributeValue (ts ++ more) = extend more (attributeValue ts) := by
  cases ts with
  | nil => exact absurd rfl h.ne_nil
  | cons t ts =>
    obtain ⟨l, loc⟩ := t
    cases l <;> rfl

theorem attributeSel_append {ts : List Token} (h : HasStop ts) (more : List Token) :
    attributeSel (ts ++ more) = extend more (attributeSel ts) := by
  rw [attributeSel]
  refine bind_extend more ?_ fun name us hi => ?_
  · rw [skipTrivia_append h]
    exact ident_append h.skipTrivia _ more
  have hus := (h.skipTrivia.stretch (ident_stretch hi)).skipTrivia
  dsimp only
  rw [skipTrivia_append (h.skipTrivia.stretch (ident_stretch hi))]
  cases heq : skipTrivia us with
  | nil =>
    rw [heq] at hus
    exact absurd rfl hus.ne_nil
  | cons t vs =>
    rw [heq] at hus
    rw [List.cons_append]
    dsimp only
    split
    · rfl
    · cases htest : attributeTest? t.lexeme with
      | none => rfl
      | some test =>
        have hvs := hus.tail (isStop_of_isPlain (isPlain_of_attributeTest? htest))
        refine bind_extend more ?_ fun value ws hv => ?_
        · rw [skipTrivia_append hvs]
          exact attributeValue_append hvs.skipTrivia more
        have hws := hvs.skipTrivia.stretch (attributeValue_stretch hv)
        refine bind_append more ?_ fun rest _ => rfl
        rw [skipTrivia_append hws]
        exact expect_append hws.skipTrivia _ more

theorem pseudo_append {ts : List Token} (h : HasStop ts) (more : List Token) :
    pseudo (ts ++ more) = extend more (pseudo ts) := by
  cases ts with
  | nil => exact absurd rfl h.ne_nil
  | cons t ts =>
    obtain ⟨l, loc⟩ := t
    cases l with
    | function name =>
      have hts : HasStop ts := h.tail rfl
      rw [pseudo]
      rw [List.cons_append]
      refine bind_extend more ?_ fun argument us hi => ?_
      · rw [skipTrivia_append hts]
        exact ident_append hts.skipTrivia _ more
      have hus := hts.skipTrivia.stretch (ident_stretch hi)
      refine bind_append more ?_ fun rest _ => rfl
      rw [skipTrivia_append hus]
      exact expect_append hus.skipTrivia _ more
    | _ => rfl

theorem condition?_append {ts : List Token} (h : HasStop ts) (more : List Token) :
    condition? (ts ++ more)
      = (condition? ts).map (Option.map fun r => (r.1, r.2 ++ more)) := by
  cases ts with
  | nil => exact absurd rfl h.ne_nil
  | cons t ts =>
    obtain ⟨l, loc⟩ := t
    cases l with
    | hash name isIdent => cases isIdent <;> rfl
    | delim c =>
      have hts : HasStop ts := h.tail rfl
      unfold condition?
      rw [List.cons_append]
      dsimp only
      split
      · exact bind_extend more (ident_append hts _ more) fun name rest _ => rfl
      · rfl
    | mark m =>
      cases m with
      | openBracket =>
        have hts : HasStop ts := h.tail rfl
        exact bind_extend more (attributeSel_append hts more) fun test rest _ => rfl
      | colon =>
        have hts : HasStop ts := h.tail rfl
        exact bind_extend more (pseudo_append hts more) fun p rest _ => rfl
      | _ => rfl
    | _ => rfl

theorem conditions_append {ts : List Token} (h : HasStop ts) (more : List Token) :
    conditions (ts ++ more) = extend more (conditions ts) := by
  fun_induction conditions ts with
  | case1 ts e hc =>
    rw [conditions_eq, condition?_append h, hc]
    rfl
  | case2 ts hc =>
    rw [conditions_eq, condition?_append h, hc]
    rfl
  | case3 ts c rest hc ih =>
    rw [conditions_eq, condition?_append h, hc]
    exact bind_extend more (ih (h.stretch (condition?_stretch hc))) fun cs final _ => rfl

theorem elementName?_append {ts : List Token} (h : HasStop ts) (more : List Token) :
    elementName? (ts ++ more) = (elementName? ts).map fun r => (r.1, r.2 ++ more) := by
  cases ts with
  | nil => exact absurd rfl h.ne_nil
  | cons t ts =>
    obtain ⟨l, loc⟩ := t
    cases l with
    | delim c =>
      unfold elementName?
      rw [List.cons_append]
      dsimp only
      split <;> rfl
    | _ => rfl

theorem link_append {combinator : Combinator} {ts : List Token} (h : HasStop ts)
    (more : List Token) :
    link combinator (ts ++ more) = extend more (link combinator ts) := by
  unfold link
  rw [elementName?_append h]
  cases hname : elementName? ts with
  | none =>
    dsimp only [Option.map]
    rw [missing_append h]
    refine bind_extend more (conditions_append h more) fun cs final _ => ?_
    dsimp only
    split <;> rfl
  | some r =>
    obtain ⟨name, rest⟩ := r
    have hrest := h.stretch (elementName?_stretch hname)
    exact bind_extend more (conditions_append hrest more) fun cs final _ => rfl

theorem combinator?_append {ts : List Token} (h : HasStop ts) (more : List Token) :
    combinator? (ts ++ more)
      = (combinator? ts).map (Option.map fun r => (r.1, r.2 ++ more)) := by
  have hs := h.skipTrivia
  unfold combinator?
  rw [skipTrivia_append h, spaced_append h]
  cases heq : skipTrivia ts with
  | nil =>
    rw [heq] at hs
    exact absurd rfl hs.ne_nil
  | cons t us =>
    rw [heq] at hs
    rw [List.cons_append]
    dsimp only
    by_cases hplus : t.lexeme.isDelim '+' = true
    · have hus : HasStop us := hs.stretch (.single us (isPlain_of_isDelim hplus))
      rw [if_pos hplus, if_pos hplus, skipTrivia_append hus]
      rfl
    · rw [if_neg hplus, if_neg hplus]
      by_cases hchild : t.lexeme.isDelim '>' = true
      · have hus : HasStop us := hs.stretch (.single us (isPlain_of_isDelim hchild))
        rw [if_pos hchild, if_pos hchild, skipTrivia_append hus]
        rfl
      · rw [if_neg hchild, if_neg hchild]
        split
        · rfl
        · split <;> rfl

theorem moreLinks_append {ts : List Token} (h : HasStop ts) (more : List Token) :
    moreLinks (ts ++ more) = extend more (moreLinks ts) := by
  fun_induction moreLinks ts with
  | case1 ts e hc =>
    rw [moreLinks_eq, combinator?_append h, hc]
    rfl
  | case2 ts hc =>
    rw [moreLinks_eq, combinator?_append h, hc, skipTrivia_append h]
    rfl
  | case3 ts c rest hc e hl =>
    rw [moreLinks_eq, combinator?_append h, hc]
    dsimp only [Except.map, Option.map]
    rw [link_append (h.stretch (combinator?_stretch hc)), hl]
    rfl
  | case4 ts c rest hc l us hl ih =>
    have hrest := h.stretch (combinator?_stretch hc)
    rw [moreLinks_eq, combinator?_append h, hc]
    dsimp only [Except.map, Option.map]
    rw [link_append hrest, hl]
    exact bind_extend more (ih (hrest.stretch (link_stretch hl))) fun ls final _ => rfl

theorem chain_append {ts : List Token} (h : HasStop ts) (more : List Token) :
    chain (ts ++ more) = extend more (chain ts) := by
  rw [chain]
  refine bind_extend more (link_append h more) fun l rest hl => ?_
  have hrest := h.stretch (link_stretch hl)
  exact bind_extend more (moreLinks_append hrest more) fun ls final _ => rfl

theorem chains_append {ts : List Token} (h : HasStop ts) (more : List Token) :
    chains (ts ++ more) = extend more (chains ts) := by
  fun_induction chains ts with
  | case1 ts e hc =>
    rw [chains_eq, chain_append h, hc]
    rfl
  | case2 ts c loc rest hc ih =>
    have hrest : HasStop rest := (h.stretch (chain_stretch hc)).tail rfl
    rw [chains_eq, chain_append h, hc]
    dsimp only [extend_ok, List.cons_append]
    rw [skipTrivia_append hrest]
    exact bind_extend more (ih hrest.skipTrivia) fun cs final _ => rfl
  | case3 ts c rest hcomma hc =>
    have hrest := h.stretch (chain_stretch hc)
    rw [chains_eq, chain_append h, hc]
    cases rest with
    | nil => exact absurd rfl hrest.ne_nil
    | cons t rest =>
      obtain ⟨l, loc⟩ := t
      cases l with
      | mark m =>
        cases m with
        | comma => exact absurd rfl (hcomma loc rest)
        | _ => rfl
      | _ => rfl

/-- **No selector reads past a stop.** -/
theorem selector_append {ts : List Token} (h : HasStop ts) (more : List Token) :
    selector (ts ++ more) = extend more (selector ts) := by
  rw [selector]
  exact bind_extend more (chains_append h more) fun cs rest _ => rfl

/-! ### The heads of at-rules -/

theorem mediaList_append {ts : List Token} (h : HasStop ts) (more : List Token) :
    mediaList (ts ++ more) = extend more (mediaList ts) := by
  induction hlen : ts.length using Nat.strongRecOn generalizing ts with
  | ind len ih =>
    rw [mediaList_eq, mediaList_eq]
    refine bind_extend more (ident_append h _ more) fun name rest hi => ?_
    have hrest := h.stretch (ident_stretch hi)
    have hs := hrest.skipTrivia
    have hlt := ident_lt hi
    have hle := skipTrivia_le rest
    dsimp only
    rw [skipTrivia_append hrest]
    cases heq : skipTrivia rest with
    | nil =>
      rw [heq] at hs
      exact absurd rfl hs.ne_nil
    | cons t us =>
      rw [heq] at hs hle
      obtain ⟨l, loc⟩ := t
      cases l with
      | mark m =>
        cases m with
        | comma =>
          have hus : HasStop us := hs.tail rfl
          have hle' := skipTrivia_le us
          simp only [List.length_cons] at hle
          simp only [List.cons_append, skipTrivia_append hus]
          exact bind_extend more (ih _ (by omega) hus.skipTrivia rfl) fun names final _ => rfl
        | _ => rfl
      | _ => rfl

theorem importAddress_append {ts : List Token} (h : HasStop ts) (more : List Token) :
    importAddress (ts ++ more) = extend more (importAddress ts) := by
  cases ts with
  | nil => exact absurd rfl h.ne_nil
  | cons t ts =>
    obtain ⟨l, loc⟩ := t
    cases l with
    | function name =>
      have hts : HasStop ts := h.tail rfl
      unfold importAddress
      rw [List.cons_append]
      dsimp only
      split
      · refine bind_extend more ?_ fun address us hs => ?_
        · rw [skipTrivia_append hts]
          exact string_append hts.skipTrivia _ more
        have hus := hts.skipTrivia.stretch (string_stretch hs)
        refine bind_append more ?_ fun rest _ => rfl
        rw [skipTrivia_append hus]
        exact expect_append hus.skipTrivia _ more
      · rfl
    | _ => rfl

theorem importMedia_append {ts : List Token} (h : HasStop ts) (more : List Token) :
    importMedia (ts ++ more) = extend more (importMedia ts) := by
  cases ts with
  | nil => exact absurd rfl h.ne_nil
  | cons t ts =>
    obtain ⟨l, loc⟩ := t
    cases l with
    | ident name => exact mediaList_append h more
    | _ => rfl

theorem charset_append {ts : List Token} (h : HasStop ts) (more : List Token) :
    charset (ts ++ more) = extend more (charset ts) := by
  rw [charset]
  refine bind_extend more ?_ fun name us hs => ?_
  · rw [skipTrivia_append h]
    exact string_append h.skipTrivia _ more
  have hus := h.skipTrivia.stretch (string_stretch hs)
  refine bind_append more ?_ fun rest _ => rfl
  rw [skipTrivia_append hus]
  exact expect_append hus.skipTrivia _ more

/-- **`@import` does not read past a stop**, though at the end of the text it needs none. -/
theorem importSheet_append {ts : List Token} (h : HasStop ts) (more : List Token) :
    importSheet (ts ++ more) = extend more (importSheet ts) := by
  rw [importSheet]
  refine bind_extend more ?_ fun address us ha => ?_
  · rw [skipTrivia_append h]
    exact importAddress_append h.skipTrivia more
  have hus := h.skipTrivia.stretch (importAddress_stretch ha)
  refine bind_extend more ?_ fun names vs hm => ?_
  · rw [skipTrivia_append hus]
    exact importMedia_append hus.skipTrivia more
  have hvs := hus.skipTrivia.stretch (importMedia_stretch hm)
  cases vs with
  | nil => exact absurd rfl hvs.ne_nil
  | cons t vs => exact bind_append more (expect_append hvs _ more) fun rest _ => rfl

theorem pageName_append {ts : List Token} (h : HasStop ts) (more : List Token) :
    pageName (ts ++ more) = ((pageName ts).1, (pageName ts).2 ++ more) := by
  cases ts with
  | nil => exact absurd rfl h.ne_nil
  | cons t ts =>
    obtain ⟨l, loc⟩ := t
    cases l <;> rfl

theorem pagePseudo_append {ts : List Token} (h : HasStop ts) (more : List Token) :
    pagePseudo (ts ++ more) = extend more (pagePseudo ts) := by
  cases ts with
  | nil => exact absurd rfl h.ne_nil
  | cons t ts =>
    obtain ⟨l, loc⟩ := t
    cases l with
    | mark m =>
      cases m with
      | colon =>
        have hts : HasStop ts := h.tail rfl
        exact bind_extend more (ident_append hts _ more) fun name rest _ => rfl
      | _ => rfl
    | _ => rfl

end Grammar

end Css2
