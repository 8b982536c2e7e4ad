import Css2.Grammar.Statement

/-!
# Stretches of tokens

Values, selectors and the heads of at-rules have this in common: what they take off the front of a
list of tokens are plain tokens and whole pairs of parentheses and brackets.  `Stretch ts us` says
that `us` is left of `ts` in this way, and for each of these productions there is a lemma that
says so of its rest (`terms_stretch`, `selector_stretch`, `mediaList_stretch` and so on).

A stretch holds no semicolon and no closing brace outside of pairs, nor inside of them, and a
reader that counts brackets runs over it: `Stretch.contents` and `Stretch.skipTail`.
-/

namespace Css2

namespace Grammar

/-! ### Kinds of tokens -/

def isCloser : Mark → Bool
  | .closeParen | .closeBracket | .closeBrace => true
  | _ => false

/-- The marks that no value and no selector runs over: a semicolon and a closing brace. -/
def isStop (l : Lexeme) : Bool :=
  l.isMark .semicolon || l.isMark .closeBrace

@[simp] theorem isMark_mark (m k : Mark) : (Lexeme.mark m).isMark k = (m == k) := rfl

theorem isMark_iff {l : Lexeme} {m : Mark} : l.isMark m = true ↔ l = .mark m := by
  cases l <;> simp [Lexeme.isMark]

theorem isDelim_iff {l : Lexeme} {c : Char} : l.isDelim c = true ↔ l = .delim c := by
  cases l <;> simp [Lexeme.isDelim]

theorem isCloser_closerOf? {l : Lexeme} {m : Mark} (h : closerOf? l = some m) :
    isCloser m = true := by
  unfold closerOf? at h
  split at h <;> cases h <;> rfl

theorem isMark_of_closerOf? {l : Lexeme} {m k : Mark} (h : closerOf? l = some m)
    (hk : isCloser k = true) : l.isMark k = false := by
  unfold closerOf? at h
  split at h <;> cases h <;> cases k <;> first | rfl | cases hk

theorem closerOf?_of_isPlain {l : Lexeme} (h : isPlain l = true) : closerOf? l = none := by
  cases l with
  | mark m => cases m <;> first | rfl | cases h
  | function name => cases h
  | _ => rfl

theorem isMark_of_isPlain {l : Lexeme} {k : Mark} (h : isPlain l = true)
    (hk : isCloser k = true) : l.isMark k = false := by
  cases l with
  | mark m => cases m <;> cases h <;> cases k <;> first | rfl | cases hk
  | _ => rfl

theorem isMark_semicolon_of_isPlain {l : Lexeme} (h : isPlain l = true) :
    l.isMark .semicolon = false := by
  cases l with
  | mark m => cases m <;> first | rfl | cases h
  | _ => rfl

theorem isMark_openBrace_of_isPlain {l : Lexeme} (h : isPlain l = true) :
    l.isMark .openBrace = false := by
  cases l with
  | mark m => cases m <;> first | rfl | cases h
  | _ => rfl

theorem isStop_of_isPlain {l : Lexeme} (h : isPlain l = true) : isStop l = false := by
  rw [isStop]
  rw [isMark_semicolon_of_isPlain h, isMark_of_isPlain h rfl]
  rfl

theorem isStop_of_closerOf? {l : Lexeme} {m : Mark} (h : closerOf? l = some m) :
    isStop l = false := by
  unfold closerOf? at h
  split at h <;> cases h <;> rfl

/-- What opens a pair opens no block, unless a brace closes it. -/
theorem isMark_openBrace_of_closerOf? {l : Lexeme} {m : Mark} (h : closerOf? l = some m)
    (hb : m ≠ .closeBrace) : l.isMark .openBrace = false := by
  cases l with
  | mark k =>
    cases k <;> first | rfl | cases h
    exact absurd rfl hb
  | _ => rfl

theorem isPlain_of_isDelim {l : Lexeme} {c : Char} (h : l.isDelim c = true) :
    isPlain l = true := by
  cases l with
  | delim d => rfl
  | _ => cases h

theorem isPlain_of_isMark_comma {l : Lexeme} (h : l.isMark .comma = true) :
    isPlain l = true := by
  cases l with
  | mark m => cases m <;> first | rfl | cases h
  | _ => cases h

theorem isPlain_of_isTrivia {l : Lexeme} (h : l.isTrivia = true) : isPlain l = true := by
  cases l <;> first | rfl | cases h

/-! ### Nesting -/

theorem enter_eq_ok {n deeper : Nesting} {ts : List Token} (h : n.enter ts = .ok deeper) :
    n.depth < n.limit ∧ deeper = { n with depth := n.depth + 1 } := by
  rw [Nesting.enter] at h
  split at h
  · cases h
  · cases h
    exact ⟨by omega, rfl⟩

theorem enter_of_lt {n : Nesting} (h : n.depth < n.limit) (ts : List Token) :
    n.enter ts = .ok { n with depth := n.depth + 1 } := by
  rw [Nesting.enter]
  rw [if_neg (by omega)]

/-! ### Stretches -/

/-- `us` is what is left of `ts` behind plain tokens and whole pairs of parentheses and
brackets. -/
inductive Stretch : List Token → List Token → Prop
  | refl (ts : List Token) : Stretch ts ts
  | plain {t : Token} {ts us : List Token} : isPlain t.lexeme = true → Stretch ts us →
      Stretch (t :: ts) us
  | pair {t : Token} {m : Mark} {loc : Location} {ts vs us : List Token} :
      closerOf? t.lexeme = some m → m ≠ .closeBrace → Stretch ts (⟨.mark m, loc⟩ :: vs) →
      Stretch vs us → Stretch (t :: ts) us

theorem Stretch.trans {ts us vs : List Token} (h : Stretch ts us) (k : Stretch us vs) :
    Stretch ts vs := by
  induction h with
  | refl => exact k
  | plain hp _ ih => exact .plain hp (ih k)
  | pair hm hb hin _ _ ih => exact .pair hm hb hin (ih k)

theorem Stretch.single {t : Token} (ts : List Token) (h : isPlain t.lexeme = true) :
    Stretch (t :: ts) ts :=
  .plain h (.refl ts)

theorem Stretch.exists_append {ts us : List Token} (h : Stretch ts us) :
    ∃ ps, ts = ps ++ us ∧ ∀ t ∈ ps, isStop t.lexeme = false := by
  induction h with
  | refl ts => exact ⟨[], rfl, by simp⟩
  | @plain t ts us hp _ ih =>
    obtain ⟨ps, rfl, hps⟩ := ih
    exact ⟨t :: ps, rfl, by simpa [isStop_of_isPlain hp] using hps⟩
  | @pair t m loc ts vs us hm hb _ _ ih1 ih2 =>
    obtain ⟨ps, rfl, hps⟩ := ih1
    obtain ⟨qs, rfl, hqs⟩ := ih2
    have hclose : isStop (.mark m) = false := by
      have := isCloser_closerOf? hm
      cases m <;> first | rfl | exact absurd rfl hb | cases this
    refine ⟨t :: (ps ++ ⟨.mark m, loc⟩ :: qs), by simp, ?_⟩
    intro u hu
    simp only [List.mem_cons, List.mem_append] at hu
    rcases hu with rfl | hu | rfl | hu
    · exact isStop_of_closerOf? hm
    · exact hps u hu
    · exact hclose
    · exact hqs u hu

theorem Stretch.suffix {ts us : List Token} (h : Stretch ts us) : us <:+ ts := by
  obtain ⟨ps, rfl, _⟩ := h.exists_append
  exact ⟨ps, rfl⟩

/-! ### Readers that count brackets -/

theorem contents_nil (n : Nesting) (closer : Mark) : contents n closer [] = .ok [] := by
  rw [contents_eq]

/-- **Skipping the inside of a pair runs over a stretch.** -/
theorem Stretch.contents {ts us : List Token} (h : Stretch ts us) {n : Nesting} {closer : Mark}
    {r : List Token} (hc : isCloser closer = true)
    (hr : Grammar.contents n closer ts = .ok r) : Grammar.contents n closer us = .ok r := by
  induction h generalizing n closer r with
  | refl => exact hr
  | plain hp _ ih =>
    rw [contents_eq] at hr
    simp only [isMark_of_isPlain hp hc, closerOf?_of_isPlain hp, hp, Bool.true_or, if_true,
      Bool.false_eq_true, if_false] at hr
    exact ih hc hr
  | @pair t m loc ts vs us hm hb _ _ ih1 ih2 =>
    rw [contents_eq] at hr
    simp only [isMark_of_closerOf? hm hc, hm, Bool.false_eq_true, if_false] at hr
    obtain ⟨deeper, _, hr⟩ := bind_eq_ok hr
    obtain ⟨after, hin, hr⟩ := bind_eq_ok hr
    have hclose := ih1 (isCloser_closerOf? hm) hin
    rw [contents_eq] at hclose
    simp only [isMark_mark, beq_self_eq_true, if_true, Except.ok.injEq] at hclose
    subst hclose
    exact ih2 hc hr

/-- **Skipping a statement runs over a stretch.** -/
theorem Stretch.skipTail {ts us : List Token} (h : Stretch ts us) {n : Nesting} {atRule : Bool}
    {r : List Token} (hr : Grammar.skipTail n atRule ts = .ok r) :
    Grammar.skipTail n atRule us = .ok r := by
  induction h generalizing r with
  | refl => exact hr
  | plain hp _ ih =>
    rw [Grammar.skipTail] at hr
    simp only [isMark_openBrace_of_isPlain hp, isMark_semicolon_of_isPlain hp, Bool.and_false,
      Bool.false_eq_true, if_false] at hr
    split at hr
    · next closer hclose => rw [closerOf?_of_isPlain hp] at hclose; cases hclose
    · rw [if_pos hp] at hr
      exact ih hr
  | @pair t m loc ts vs us hm hb hin _ _ ih =>
    have hopen := isMark_openBrace_of_closerOf? hm hb
    have hsemi : t.lexeme.isMark .semicolon = false := by
      have := isStop_of_closerOf? hm
      rw [isStop] at this
      simp_all
    rw [Grammar.skipTail] at hr
    simp only [hopen, hsemi, Bool.and_false, Bool.false_eq_true, if_false] at hr
    split at hr
    · next closer hclose =>
      rw [hm, Option.some.injEq] at hclose
      subst hclose
      split at hr
      · cases hr
      · next after hbr =>
        rw [brackets] at hbr
        obtain ⟨deeper, _, hbr⟩ := bind_eq_ok hbr
        have hclose := hin.contents (isCloser_closerOf? hm) hbr
        rw [contents_eq] at hclose
        simp only [isMark_mark, beq_self_eq_true, if_true, Except.ok.injEq] at hclose
        subst hclose
        exact ih hr
    · next hclose => rw [hm] at hclose; cases hclose

/-! ### Single tokens -/

theorem skipTrivia_cons {t : Token} (ts : List Token) (h : t.lexeme.isTrivia = true) :
    skipTrivia (t :: ts) = skipTrivia ts := by
  simp [skipTrivia, h]

theorem skipTrivia_cons_self {t : Token} (ts : List Token) (h : t.lexeme.isTrivia = false) :
    skipTrivia (t :: ts) = t :: ts := by
  simp [skipTrivia, h]

theorem skipTrivia_stretch (ts : List Token) : Stretch ts (skipTrivia ts) := by
  induction ts with
  | nil => exact .refl []
  | cons t ts ih =>
    by_cases ht : t.lexeme.isTrivia = true
    · rw [skipTrivia_cons ts ht]
      exact .plain (isPlain_of_isTrivia ht) ih
    · rw [skipTrivia_cons_self ts (by simpa using ht)]
      exact .refl _

theorem ident_stretch {what : Expectation} {ts rest : List Token} {name : String}
    (h : ident what ts = .ok (name, rest)) : Stretch ts rest := by
  obtain ⟨loc, rfl⟩ := ident_eq_ok h
  exact .single rest rfl

theorem string_stretch {what : Expectation} {ts rest : List Token} {value : String}
    (h : string what ts = .ok (value, rest)) : Stretch ts rest := by
  obtain ⟨loc, rfl⟩ := string_eq_ok h
  exact .single rest rfl

theorem expect_stretch {m : Mark} {ts rest : List Token} (hm : isPlain (.mark m) = true)
    (h : expect m ts = .ok rest) : Stretch ts rest := by
  obtain ⟨loc, rfl⟩ := expect_eq_ok h
  exact .single rest hm

theorem Stretch.pair_skip {t : Token} {m : Mark} {rest us vs : List Token}
    (hm : closerOf? t.lexeme = some m) (hb : m ≠ .closeBrace) (h : Stretch rest us)
    (he : expect m (Grammar.skipTrivia us) = .ok vs) : Stretch (t :: rest) vs := by
  obtain ⟨loc, hloc⟩ := expect_eq_ok he
  have hin : Stretch rest (⟨.mark m, loc⟩ :: vs) := by
    rw [← hloc]
    exact h.trans (skipTrivia_stretch us)
  exact .pair hm hb hin (.refl vs)

/-! ### Values -/

theorem sign_stretch (ts : List Token) : Stretch ts (sign ts).2 := by
  unfold sign
  split
  · next c loc rest =>
    split
    · exact .single rest rfl
    · split
      · exact .single rest rfl
      · exact .refl _
  · exact .refl _

theorem isPlain_of_simpleValue? {l : Lexeme} {v : Value} (h : simpleValue? l = some v) :
    isPlain l = true := by
  cases l with
  | function _ => cases h
  | atKeyword _ => cases h
  | mark _ => cases h
  | _ => rfl

theorem next?_stretch {ts rest : List Token} {sep : Option Separator}
    (h : next? ts = some (sep, rest)) : Stretch ts rest := by
  have hs := skipTrivia_stretch ts
  rw [next?] at h
  split at h
  · cases h
  · next t us heq =>
    rw [heq] at hs
    split at h
    · next hcomma =>
      cases h
      exact hs.trans (.plain (isPlain_of_isMark_comma hcomma) (skipTrivia_stretch us))
    · split at h
      · next hslash =>
        cases h
        exact hs.trans (.plain (isPlain_of_isDelim hslash) (skipTrivia_stretch us))
      · split at h
        · cases h
          exact hs
        · cases h

/-- A value that begins with `t` is a stretch if the arguments of a function are. -/
theorem value_stretch_of {n : Nesting} {t : Token} {rest after : List Token} {v : Value}
    (ih : ∀ deeper args mid, terms deeper (skipTrivia rest) = .ok (args, mid) →
      Stretch (skipTrivia rest) mid)
    (h : value n t rest = .ok (v, after)) : Stretch (t :: rest) after := by
  rw [value] at h
  split at h
  · next name hl =>
    obtain ⟨deeper, _, h⟩ := bind_eq_ok h
    obtain ⟨⟨args, mid⟩, hargs, h⟩ := bind_eq_ok h
    obtain ⟨close, hclose, h⟩ := bind_eq_ok h
    cases h
    exact .pair_skip (by rw [hl]; rfl) (by decide)
      ((skipTrivia_stretch rest).trans (ih deeper args mid hargs)) hclose
  · split at h
    · next hv =>
      cases h
      exact .single rest (isPlain_of_simpleValue? hv)
    · cases h

/-- **The terms of a value are a stretch.** -/
theorem terms_stretch : ∀ {ts : List Token} {n : Nesting} {v : List Term} {rest : List Token},
    terms n ts = .ok (v, rest) → Stretch ts rest := by
  intro ts
  induction hlen : ts.length using Nat.strongRecOn generalizing ts with
  | ind len ih =>
    intro n v rest h
    have hsign := sign_stretch ts
    have hle := sign_le ts
    rw [terms_eq] at h
    split at h
    · cases h
    · next s t us hs =>
      rw [hs] at hsign hle
      simp only [List.length_cons] at hle
      obtain ⟨⟨v', after⟩, hv, h⟩ := bind_eq_ok h
      have hvle := value_le hv
      have hval : Stretch (t :: us) after := by
        refine value_stretch_of (fun deeper args mid hargs => ?_) hv
        have := skipTrivia_le us
        exact ih _ (by omega) rfl hargs
      dsimp only at h
      split at h
      · cases h
      · split at h
        · cases h
          exact (hsign.trans hval).trans (skipTrivia_stretch after)
        · next sep following hnext =>
          obtain ⟨⟨more, final⟩, hm, h⟩ := bind_eq_ok h
          cases h
          have := next?_le hnext
          exact (hsign.trans hval).trans
            ((next?_stretch hnext).trans (ih _ (by omega) rfl hm))

theorem value_stretch {n : Nesting} {t : Token} {rest after : List Token} {v : Value}
    (h : value n t rest = .ok (v, after)) : Stretch (t :: rest) after :=
  value_stretch_of (fun _ _ _ hargs => terms_stretch hargs) h

theorem declaration_stretch {n : Nesting} {ts rest : List Token} {d : Declaration}
    (h : declaration n ts = .ok (d, rest)) : Stretch ts rest := by
  rw [declaration] at h
  obtain ⟨⟨property, us⟩, hi, h⟩ := bind_eq_ok h
  obtain ⟨vs, he, h⟩ := bind_eq_ok h
  obtain ⟨⟨value, ws⟩, ht, h⟩ := bind_eq_ok h
  have hws : Stretch ts ws :=
    (ident_stretch hi).trans ((skipTrivia_stretch us).trans ((expect_stretch rfl he).trans
      ((skipTrivia_stretch vs).trans (terms_stretch ht))))
  dsimp only at h
  split at h
  · next loc tail =>
    cases h
    exact hws.trans (.plain rfl (skipTrivia_stretch tail))
  · cases h
    exact hws

theorem listedDeclaration_stretch {n : Nesting} {ts rest : List Token} {d : Declaration}
    (h : listedDeclaration n ts = .ok (d, rest)) : Stretch ts rest := by
  rw [listedDeclaration] at h
  obtain ⟨⟨d', us⟩, hd, h⟩ := bind_eq_ok h
  dsimp only at h
  split at h
  · cases h
    exact declaration_stretch hd
  · cases h

/-! ### Selectors -/

theorem attributeValue_stretch {ts rest : List Token} {value : String}
    (h : attributeValue ts = .ok (value, rest)) : Stretch ts rest := by
  unfold attributeValue at h
  split at h <;> cases h
  · exact .single _ rfl
  · exact .single _ rfl

theorem isPlain_of_attributeTest? {l : Lexeme} {test : AttributeTest}
    (h : attributeTest? l = some test) : isPlain l = true := by
  unfold attributeTest? at h
  split at h <;> first | rfl | cases h

/-- The test of an attribute, up to its closing bracket, which is read with it. -/
theorem attributeSel_stretch {ts rest : List Token} {a : AttributeSel}
    (h : attributeSel ts = .ok (a, rest)) :
    ∃ loc, Stretch ts (⟨.mark .closeBracket, loc⟩ :: rest) := by
  rw [attributeSel] at h
  obtain ⟨⟨name, us⟩, hi, h⟩ := bind_eq_ok h
  have hus : Stretch ts (skipTrivia us) :=
    ((skipTrivia_stretch ts).trans (ident_stretch hi)).trans (skipTrivia_stretch us)
  dsimp only at h
  split at h
  · cases h
  · next t vs heq =>
    rw [heq] at hus
    split at h
    · next hclose =>
      cases h
      obtain ⟨l, loc⟩ := t
      cases l with
      | mark m => exact ⟨loc, by cases m <;> first | exact hus | cases hclose⟩
      | _ => cases hclose
    · split at h
      · cases h
      · next test htest =>
        obtain ⟨⟨value, ws⟩, hv, h⟩ := bind_eq_ok h
        obtain ⟨xs, he, h⟩ := bind_eq_ok h
        cases h
        obtain ⟨loc, hloc⟩ := expect_eq_ok he
        refine ⟨loc, hus.trans (.plain (isPlain_of_attributeTest? htest) ?_)⟩
        rw [← hloc]
        exact (skipTrivia_stretch vs).trans
          ((attributeValue_stretch hv).trans (skipTrivia_stretch ws))

theorem pseudo_stretch {ts rest : List Token} {p : Pseudo}
    (h : pseudo ts = .ok (p, rest)) : Stretch ts rest := by
  unfold pseudo at h
  split at h
  · cases h
    exact .single _ rfl
  · next name loc tail =>
    obtain ⟨⟨argument, us⟩, hi, h⟩ := bind_eq_ok h
    obtain ⟨xs, he, h⟩ := bind_eq_ok h
    cases h
    exact .pair_skip rfl (by decide) ((skipTrivia_stretch tail).trans (ident_stretch hi)) he
  · cases h

theorem condition?_stretch {ts rest : List Token} {c : Condition}
    (h : condition? ts = .ok (some (c, rest))) : Stretch ts rest := by
  unfold condition? at h
  split at h
  · split at h
    · cases h
      exact .single _ rfl
    · cases h
  · split at h
    · obtain ⟨⟨name, us⟩, hi, h⟩ := bind_eq_ok h
      cases h
      exact .plain rfl (ident_stretch hi)
    · cases h
  · obtain ⟨⟨a, us⟩, ha, h⟩ := bind_eq_ok h
    cases h
    obtain ⟨loc, hloc⟩ := attributeSel_stretch ha
    exact .pair rfl (by decide) hloc (.refl _)
  · obtain ⟨⟨p, us⟩, hp, h⟩ := bind_eq_ok h
    cases h
    exact .plain rfl (pseudo_stretch hp)
  · cases h

theorem conditions_stretch {ts rest : List Token} {cs : List Condition}
    (h : conditions ts = .ok (cs, rest)) : Stretch ts rest := by
  fun_induction conditions ts generalizing cs rest with
  | case1 => cases h
  | case2 ts =>
    cases h
    exact .refl ts
  | case3 ts c us hc ih =>
    obtain ⟨⟨ds, final⟩, hr, h⟩ := bind_eq_ok h
    cases h
    exact (condition?_stretch hc).trans (ih hr)

theorem elementName?_stretch {ts rest : List Token} {name : Option String}
    (h : elementName? ts = some (name, rest)) : Stretch ts rest := by
  unfold elementName? at h
  split at h
  · cases h
    exact .single _ rfl
  · split at h
    · cases h
      exact .single _ rfl
    · cases h
  · cases h

theorem link_stretch {combinator : Combinator} {ts rest : List Token} {l : Link}
    (h : link combinator ts = .ok (l, rest)) : Stretch ts rest := by
  rw [link] at h
  split at h
  · next name us hname =>
    obtain ⟨⟨cs, final⟩, hr, h⟩ := bind_eq_ok h
    cases h
    exact (elementName?_stretch hname).trans (conditions_stretch hr)
  · obtain ⟨⟨cs, final⟩, hr, h⟩ := bind_eq_ok h
    dsimp only at h
    split at h
    · cases h
    · cases h
      exact conditions_stretch hr

theorem combinator?_stretch {ts rest : List Token} {c : Combinator}
    (h : combinator? ts = .ok (some (c, rest))) : Stretch ts rest := by
  have hs := skipTrivia_stretch ts
  rw [combinator?] at h
  split at h
  · cases h
  · next t us heq =>
    rw [heq] at hs
    split at h
    · next hd =>
      cases h
      exact hs.trans (.plain (isPlain_of_isDelim hd) (skipTrivia_stretch us))
    · split at h
      · next hd =>
        cases h
        exact hs.trans (.plain (isPlain_of_isDelim hd) (skipTrivia_stretch us))
      · split at h
        · cases h
        · split at h
          · cases h
            exact hs
          · cases h

theorem moreLinks_stretch {ts rest : List Token} {ls : List Link}
    (h : moreLinks ts = .ok (ls, rest)) : Stretch ts rest := by
  fun_induction moreLinks ts generalizing ls rest with
  | case1 => cases h
  | case2 ts =>
    cases h
    exact skipTrivia_stretch ts
  | case3 => cases h
  | case4 ts c us hc l vs hl ih =>
    obtain ⟨⟨ks, final⟩, hr, h⟩ := bind_eq_ok h
    cases h
    exact (combinator?_stretch hc).trans ((link_stretch hl).trans (ih hr))

theorem chain_stretch {ts rest : List Token} {c : Chain}
    (h : chain ts = .ok (c, rest)) : Stretch ts rest := by
  rw [chain] at h
  obtain ⟨⟨l, us⟩, hl, h⟩ := bind_eq_ok h
  obtain ⟨⟨ls, final⟩, hm, h⟩ := bind_eq_ok h
  cases h
  exact (link_stretch hl).trans (moreLinks_stretch hm)

theorem chains_stretch {ts rest : List Token} {cs : List Chain}
    (h : chains ts = .ok (cs, rest)) : Stretch ts rest := by
  fun_induction chains ts generalizing cs rest with
  | case1 => cases h
  | case2 ts c loc us hc ih =>
    obtain ⟨⟨ds, final⟩, hr, h⟩ := bind_eq_ok h
    cases h
    exact (chain_stretch hc).trans (.plain rfl ((skipTrivia_stretch us).trans (ih hr)))
  | case3 ts c us _ hc =>
    cases h
    exact chain_stretch hc

/-- **A selector is a stretch.** -/
theorem selector_stretch {ts rest : List Token} {s : Selector}
    (h : selector ts = .ok (s, rest)) : Stretch ts rest := by
  rw [selector] at h
  obtain ⟨⟨cs, final⟩, hc, h⟩ := bind_eq_ok h
  cases h
  exact chains_stretch hc

/-! ### The heads of at-rules -/

theorem mediaList_stretch {ts rest : List Token} {names : List String}
    (h : mediaList ts = .ok (names, rest)) : Stretch ts rest := by
  fun_induction mediaList ts generalizing names rest with
  | case1 => cases h
  | case2 ts name us hi loc more hs ih =>
    obtain ⟨⟨names', final⟩, hr, h⟩ := bind_eq_ok h
    cases h
    have hus := (ident_stretch hi).trans (skipTrivia_stretch us)
    rw [hs] at hus
    exact hus.trans (.plain rfl ((skipTrivia_stretch more).trans (ih hr)))
  | case3 ts name us hi hs =>
    cases h
    exact (ident_stretch hi).trans (skipTrivia_stretch us)

theorem importAddress_stretch {ts rest : List Token} {address : String}
    (h : importAddress ts = .ok (address, rest)) : Stretch ts rest := by
  unfold importAddress at h
  split at h
  · cases h
    exact .single _ rfl
  · cases h
    exact .single _ rfl
  · next name loc tail =>
    split at h
    · obtain ⟨⟨value, us⟩, hs, h⟩ := bind_eq_ok h
      obtain ⟨vs, he, h⟩ := bind_eq_ok h
      cases h
      exact .pair_skip rfl (by decide) ((skipTrivia_stretch tail).trans (string_stretch hs)) he
    · cases h
  · cases h

theorem importMedia_stretch {ts rest : List Token} {names : List String}
    (h : importMedia ts = .ok (names, rest)) : Stretch ts rest := by
  unfold importMedia at h
  split at h
  · exact mediaList_stretch h
  · cases h
    exact .refl _

theorem pageName_stretch (ts : List Token) : Stretch ts (pageName ts).2 := by
  unfold pageName
  split
  · exact .single _ rfl
  · exact .refl _

theorem pagePseudo_stretch {ts rest : List Token} {pseudo : Option String}
    (h : pagePseudo ts = .ok (pseudo, rest)) : Stretch ts rest := by
  unfold pagePseudo at h
  split at h
  · obtain ⟨⟨name, us⟩, hi, h⟩ := bind_eq_ok h
    cases h
    exact .plain rfl (ident_stretch hi)
  · cases h
    exact .refl _

end Grammar

end Css2
