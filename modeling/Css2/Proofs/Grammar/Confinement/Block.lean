import Css2.Proofs.Grammar.Agreement
import Css2.Proofs.Grammar.Extension

/-!
# Blocks do not look past their end

A block that was read, or a pair that was skipped, with tokens left behind it, was closed by a mark
of its own and not by the end of the text.  So its reading never came to the tokens that are left,
and it goes the same way without them: `contents_append` for the core grammar,
`declarations_append` and `ruleset_append` for the grammar proper.
-/

namespace Css2

/-- What was read, with more tokens at the end of the rest. -/
def Lenient.append {α : Type} (l : Lenient α) (more : List Token) : Lenient α :=
  { l with rest := l.rest ++ more }

namespace Grammar

/-! ### Behind a stop -/

/-- `rest` is what follows a stop of `ts`. -/
def Behind (ts rest : List Token) : Prop :=
  ∃ ps t, ts = ps ++ t :: rest ∧ isStop t.lexeme = true

theorem Behind.of_suffix {ts us rest : List Token} (h : Behind us rest) (hs : us <:+ ts) :
    Behind ts rest := by
  obtain ⟨ps, t, rfl, ht⟩ := h
  obtain ⟨qs, rfl⟩ := hs
  exact ⟨qs ++ ps, t, by simp, ht⟩

theorem Behind.suffix {ts rest : List Token} (h : Behind ts rest) : rest <:+ ts := by
  obtain ⟨ps, t, rfl, _⟩ := h
  exact ⟨ps ++ [t], by simp⟩

theorem Behind.hasStop {ts rest more : List Token} (h : Behind (ts ++ more) (rest ++ more)) :
    HasStop ts := by
  obtain ⟨ps, t, heq, ht⟩ := h
  have hts : ts = ps ++ t :: rest := by
    refine List.append_cancel_right (heq.trans ?_)
    simp
  exact ⟨t, by rw [hts]; simp, ht⟩

/-- A list that has `rest` and the tokens behind it at its end has those tokens at its end. -/
theorem exists_append_of_suffix {us rest more : List Token} (h : rest ++ more <:+ us) :
    ∃ vs, us = vs ++ more := by
  obtain ⟨ps, rfl⟩ := h
  exact ⟨ps ++ rest, by simp⟩

theorem skipTrivia_suffix (ts : List Token) : skipTrivia ts <:+ ts :=
  List.dropWhile_suffix _

/-- What is left of a list by dropping tokens at its front, with more tokens behind it. -/
theorem dropWhile_append_cons {p : Token → Bool} {ts us more : List Token} {t : Token}
    (h : (ts ++ more).dropWhile p = t :: us ++ more) : ts.dropWhile p = t :: us := by
  rw [List.dropWhile_append] at h
  split at h
  · have hle := (List.dropWhile_sublist p (l := more)).length_le
    rw [h] at hle
    simp only [List.length_append, List.length_cons] at hle
    omega
  · exact List.append_cancel_right h

/-! ### The inside of a pair -/

theorem contents_suffix {n : Nesting} {closer : Mark} {ts r : List Token}
    (hc : isCloser closer = true) (h : contents n closer ts = .ok r) : r <:+ ts := by
  induction hlen : ts.length using Nat.strongRecOn generalizing n closer ts r with
  | ind len ih =>
    cases ts with
    | nil =>
      rw [contents_nil] at h
      cases h
      exact List.suffix_refl _
    | cons t rest =>
      simp only [List.length_cons] at hlen
      by_cases ht : t.lexeme.isMark closer = true
      · rw [contents_closer ht] at h
        cases h
        exact List.suffix_cons t r
      · rw [Bool.not_eq_true] at ht
        cases ho : closerOf? t.lexeme with
        | none =>
          exact (ih rest.length (by omega) hc (contents_other ho ht h).2 rfl).trans
            (List.suffix_cons t rest)
        | some inner =>
          obtain ⟨d, after, hin, hout⟩ := contents_opener hc ho h
          have hle := contents_le hin
          have h1 := ih rest.length (by omega) (isCloser_closerOf? ho) hin rfl
          have h2 := ih after.length (by omega) hc hout rfl
          exact h2.trans (h1.trans (List.suffix_cons t rest))

/-- What follows the inside of a pair of braces, if that is anything, follows a brace. -/
theorem contents_behind {n : Nesting} {ts r : List Token}
    (h : contents n .closeBrace ts = .ok r) (hr : r ≠ []) : Behind ts r := by
  induction hlen : ts.length using Nat.strongRecOn generalizing n ts r with
  | ind len ih =>
    cases ts with
    | nil =>
      rw [contents_nil] at h
      cases h
      exact absurd rfl hr
    | cons t rest =>
      simp only [List.length_cons] at hlen
      by_cases ht : t.lexeme.isMark .closeBrace = true
      · rw [contents_closer ht] at h
        cases h
        exact ⟨[], t, rfl, by unfold isStop; rw [ht, Bool.or_true]⟩
      · rw [Bool.not_eq_true] at ht
        cases ho : closerOf? t.lexeme with
        | none =>
          exact (ih rest.length (by omega) (contents_other ho ht h).2 hr rfl).of_suffix
            (List.suffix_cons t rest)
        | some inner =>
          obtain ⟨d, after, hin, hout⟩ := contents_opener rfl ho h
          have hle := contents_le hin
          exact (ih after.length (by omega) hout hr rfl).of_suffix
            ((contents_suffix (isCloser_closerOf? ho) hin).trans (List.suffix_cons t rest))

theorem contents_lt {n : Nesting} {closer : Mark} {ts r : List Token}
    (hc : isCloser closer = true) (hts : ts ≠ []) (h : contents n closer ts = .ok r) :
    r.length < ts.length := by
  cases ts with
  | nil => exact absurd rfl hts
  | cons t rest =>
    by_cases ht : t.lexeme.isMark closer = true
    · rw [contents_closer ht] at h
      cases h
      exact Nat.lt_succ_self _
    · rw [Bool.not_eq_true] at ht
      cases ho : closerOf? t.lexeme with
      | none => exact Nat.lt_succ_of_le (contents_le (contents_other ho ht h).2)
      | some inner =>
        obtain ⟨d, after, hin, hout⟩ := contents_opener hc ho h
        exact Nat.lt_succ_of_le (Nat.le_trans (contents_le hout) (contents_le hin))

/-- A pair that is closed in front of some tokens is not closed by the first of them. -/
theorem contents_append_ne_nil {n : Nesting} {closer : Mark} {ts rest more : List Token}
    (hc : isCloser closer = true) (hm : more ≠ [])
    (h : contents n closer (ts ++ more) = .ok (rest ++ more)) : ts ≠ [] := by
  rintro rfl
  have := contents_lt hc hm h
  simp only [List.length_append] at this
  omega

/-- **A pair that is closed in front of some tokens is skipped in the same way without them**,
whatever the limit of nesting is. -/
theorem contents_append {m : Nesting} {closer : Mark} {ts rest more : List Token}
    (hc : isCloser closer = true) (hm : more ≠ [])
    (h : contents m closer (ts ++ more) = .ok (rest ++ more)) (n : Nesting) :
    contents n closer (ts ++ more) = (contents n closer ts).map (· ++ more) := by
  induction hlen : ts.length using Nat.strongRecOn generalizing m n closer ts rest with
  | ind len ih =>
    cases ts with
    | nil => exact absurd rfl (contents_append_ne_nil hc hm h)
    | cons t us =>
      simp only [List.length_cons] at hlen
      by_cases ht : t.lexeme.isMark closer = true
      · rw [List.cons_append, contents_closer ht, contents_closer ht]
        rfl
      · rw [Bool.not_eq_true] at ht
        rw [List.cons_append] at h ⊢
        rw [contents_eq n closer (t :: (us ++ more)), contents_eq n closer (t :: us)]
        cases ho : closerOf? t.lexeme with
        | none =>
          obtain ⟨hp, hus⟩ := contents_other ho ht h
          simp only [ht, ho, hp, Bool.false_eq_true, if_false, if_true]
          exact ih us.length (by omega) hc hus n rfl
        | some inner =>
          obtain ⟨d, after, hin, hout⟩ := contents_opener hc ho h
          obtain ⟨vs, rfl⟩ := exists_append_of_suffix (contents_suffix hc hout)
          have hinner := isCloser_closerOf? ho
          simp only [ht, ho, Bool.false_eq_true, if_false]
          rw [enter_append (contents_append_ne_nil hinner hm hin)]
          cases n.enter us with
          | error e => rfl
          | ok deeper =>
            have heq := ih us.length (by omega) hinner hin deeper rfl
            dsimp only [bind, Except.bind]
            rw [heq]
            cases hus : contents deeper inner us with
            | error e => rfl
            | ok ws =>
              rw [hus] at heq
              have hws : ws = vs := List.append_cancel_right (contents_agree hinner heq hin)
              subst hws
              have hle := contents_le hus
              exact ih ws.length (by omega) hc hout n rfl

/-! ### Declarations -/

theorem skipRest_suffix (inBlock : Bool) (closers : List Mark) (ts : List Token) :
    skipRest inBlock closers ts <:+ ts := by
  induction ts generalizing closers with
  | nil => exact List.suffix_refl _
  | cons t rest ih =>
    rw [skipRest]
    split
    · exact List.suffix_cons t rest
    · split
      · exact List.suffix_refl _
      · exact (ih _).trans (List.suffix_cons t rest)

theorem skipRest_append {inBlock : Bool} {closers : List Mark} {ts rest more : List Token}
    (h : skipRest inBlock closers (ts ++ more) = rest ++ more) :
    skipRest inBlock closers ts = rest := by
  induction ts generalizing closers with
  | nil =>
    have hle := skipRest_le inBlock closers more
    rw [List.nil_append] at h
    rw [h, List.length_append] at hle
    rw [skipRest, List.eq_nil_of_length_eq_zero (l := rest) (by omega)]
  | cons t us ih =>
    rw [List.cons_append] at h
    rw [skipRest] at h ⊢
    split at h
    · next hsemi =>
      rw [if_pos hsemi]
      exact List.append_cancel_right h
    · next hsemi =>
      rw [if_neg hsemi]
      split at h
      · next hbrace =>
        rw [if_pos hbrace]
        exact @List.append_cancel_right _ (t :: us) _ _ h
      · next hbrace =>
        rw [if_neg hbrace]
        exact ih h

theorem skipDeclaration_suffix (inBlock : Bool) (t : Token) (rest : List Token) :
    skipDeclaration inBlock t rest <:+ t :: rest := by
  rw [skipDeclaration]
  split
  · exact List.suffix_cons t rest
  · exact (skipRest_suffix _ _ _).trans (List.suffix_cons t rest)

theorem skipDeclaration_append {inBlock : Bool} {t : Token} {us rest more : List Token}
    (h : skipDeclaration inBlock t (us ++ more) = rest ++ more) :
    skipDeclaration inBlock t us = rest := by
  rw [skipDeclaration] at h ⊢
  split at h
  · next hsemi =>
    rw [if_pos hsemi]
    exact List.append_cancel_right h
  · next hsemi =>
    rw [if_neg hsemi]
    exact skipRest_append h

theorem declarations_behind {n : Nesting} {ts : List Token}
    (h : (declarations n true ts).rest ≠ []) : Behind ts (declarations n true ts).rest := by
  fun_induction declarations n true ts with
  | case1 => exact absurd rfl h
  | case2 ts t rest hs hclose =>
    have hb : Behind (t :: rest) rest := by
      refine ⟨[], t, rfl, ?_⟩
      rw [isStop]
      rw [show t.lexeme.isMark .closeBrace = true by simpa using hclose, Bool.or_true]
    rw [← hs] at hb
    exact hb.of_suffix (skipTrivia_suffix ts)
  | case3 ts t rest hs _ _ ih =>
    have hsuf := skipTrivia_suffix ts
    rw [hs] at hsuf
    exact (ih h).of_suffix ((List.suffix_cons t rest).trans hsuf)
  | case4 ts t rest hs _ _ d after hd more ih =>
    have hsuf := skipTrivia_suffix ts
    rw [hs] at hsuf
    exact (ih h).of_suffix ((listedDeclaration_stretch hd).suffix.trans hsuf)
  | case5 ts t rest hs _ _ e hd more ih =>
    have hsuf := skipTrivia_suffix ts
    rw [hs] at hsuf
    exact (ih h).of_suffix ((skipDeclaration_suffix true t rest).trans hsuf)

theorem declarations_hasStop {n : Nesting} {ts rest more : List Token} (hm : more ≠ [])
    (h : (declarations n true (ts ++ more)).rest = rest ++ more) : HasStop ts := by
  have hne : (declarations n true (ts ++ more)).rest ≠ [] := by
    rw [h]
    simp [hm]
  have hb := declarations_behind hne
  rw [h] at hb
  exact hb.hasStop

/-- The first step of a block that holds a stop, with more tokens behind that. -/
theorem declarations_step {n : Nesting} {ts us : List Token} {t : Token} (h : HasStop ts)
    (heq : skipTrivia ts = t :: us) (more : List Token) :
    declarations n true (ts ++ more) =
      if t.lexeme.isMark .closeBrace then ⟨[], [], us ++ more⟩
      else if t.lexeme.isMark .semicolon then declarations n true (us ++ more)
      else match listedDeclaration n (t :: us) with
        | .ok (d, after) =>
          let ds := declarations n true (after ++ more)
          ⟨d :: ds.value, ds.skipped, ds.rest⟩
        | .error e =>
          let ds := declarations n true (skipDeclaration true t (us ++ more))
          ⟨ds.value, e :: ds.skipped, ds.rest⟩ := by
  have hs := h.skipTrivia
  rw [heq] at hs
  rw [declarations_eq, skipTrivia_append h, heq, List.cons_append]
  dsimp only
  rw [← List.cons_append, listedDeclaration_append hs, Bool.true_and]
  cases listedDeclaration n (t :: us) with
  | error e => rfl
  | ok r => rfl

/-- **A block that ends in front of some tokens is read in the same way without them.** -/
theorem declarations_append {n : Nesting} {ts rest more : List Token} (hm : more ≠ [])
    (h : (declarations n true (ts ++ more)).rest = rest ++ more) :
    declarations n true (ts ++ more) = (declarations n true ts).append more := by
  have hstop := declarations_hasStop hm h
  fun_induction declarations n true ts with
  | case1 ts heq =>
    have hs := hstop.skipTrivia
    rw [heq] at hs
    exact absurd rfl hs.ne_nil
  | case2 ts t us heq hclose =>
    rw [Bool.true_and] at hclose
    rw [declarations_step hstop heq, if_pos hclose]
    rfl
  | case3 ts t us heq hclose hsemi ih =>
    rw [Bool.true_and] at hclose
    rw [declarations_step hstop heq, if_neg hclose, if_pos hsemi] at h ⊢
    exact ih h (declarations_hasStop hm h)
  | case4 ts t us heq hclose hsemi d after hd ds ih =>
    rw [Bool.true_and] at hclose
    rw [declarations_step hstop heq, if_neg hclose, if_neg hsemi, hd] at h ⊢
    dsimp only at h ⊢
    rw [ih h (declarations_hasStop hm h)]
    rfl
  | case5 ts t us heq hclose hsemi e hd ds ih =>
    rw [Bool.true_and] at hclose
    rw [declarations_step hstop heq, if_neg hclose, if_neg hsemi, hd] at h ⊢
    dsimp only at h ⊢
    -- what is skipped with the malformed declaration does not reach the tokens behind the block
    have hsuf := (declarations_behind (by rw [h]; simp [hm])).suffix
    rw [h] at hsuf
    obtain ⟨vs, hvs⟩ := exists_append_of_suffix hsuf
    rw [hvs] at h ⊢
    rw [skipDeclaration_append hvs] at ih
    rw [ih h (declarations_hasStop hm h)]
    unfold Lenient.append
    simp only [ds, skipDeclaration_append hvs]

/-- What the reading of a block leaves over has the given tokens at its end. -/
def Spares {α : Type} (more : List Token) (r : Except Failure (Lenient α)) : Prop :=
  ∀ b, r = .ok b → ∃ rest, b.rest = rest ++ more

theorem block_append {n : Nesting} {ts more : List Token} (hm : more ≠ []) (hstop : HasStop ts)
    (h : Spares more (block n (ts ++ more))) :
    block n (ts ++ more) = (block n ts).map fun b => b.append more := by
  unfold block at h ⊢
  rw [expect_append hstop] at h ⊢
  cases he : expect .openBrace ts with
  | error e => rfl
  | ok us =>
    obtain ⟨loc, rfl⟩ := expect_eq_ok he
    have hus : HasStop us := hstop.tail rfl
    rw [he] at h
    dsimp only [Except.map, bind, Except.bind] at h ⊢
    rw [enter_append hus.ne_nil] at h ⊢
    cases hn : n.enter us with
    | error e => rfl
    | ok deeper =>
      rw [hn] at h
      obtain ⟨rest, hrest⟩ := h _ rfl
      dsimp only
      rw [declarations_append hm hrest]

theorem ruleset_append {n : Nesting} {ts more : List Token} (hm : more ≠ []) (hstop : HasStop ts)
    (h : Spares more (ruleset n (ts ++ more))) :
    ruleset n (ts ++ more) = (ruleset n ts).map fun r => r.append more := by
  unfold ruleset at h ⊢
  rw [selector_append hstop] at h ⊢
  cases hs : selector ts with
  | error e => rfl
  | ok x =>
    obtain ⟨s, us⟩ := x
    have hus := hstop.stretch (selector_stretch hs)
    rw [hs] at h
    dsimp only [extend_ok, bind, Except.bind] at h ⊢
    have hb : Spares more (block n (us ++ more)) := by
      intro b hb
      rw [hb] at h
      exact h _ rfl
    rw [block_append hm hus hb]
    cases block n us with
    | error e => rfl
    | ok b => rfl

theorem page_append {n : Nesting} {ts more : List Token} (hm : more ≠ []) (hstop : HasStop ts)
    (h : ∀ name pseudo b, page n (ts ++ more) = .ok (name, pseudo, b) →
      ∃ rest, b.rest = rest ++ more) :
    page n (ts ++ more) = (page n ts).map fun r => (r.1, r.2.1, r.2.2.append more) := by
  have hname := hstop.skipTrivia.stretch (pageName_stretch (skipTrivia ts))
  unfold page at h ⊢
  rw [skipTrivia_append hstop, pageName_append hstop.skipTrivia] at h ⊢
  dsimp only at h ⊢
  rw [pagePseudo_append hname] at h ⊢
  cases hp : pagePseudo (pageName (skipTrivia ts)).2 with
  | error e => rfl
  | ok x =>
    obtain ⟨pseudo, us⟩ := x
    have hus := hname.stretch (pagePseudo_stretch hp)
    rw [hp] at h
    dsimp only [extend_ok, bind, Except.bind] at h ⊢
    rw [skipTrivia_append hus] at h ⊢
    have hb : Spares more (block n (skipTrivia us ++ more)) := by
      intro b hb
      rw [hb] at h
      exact h _ _ _ rfl
    rw [block_append hm hus.skipTrivia hb]
    cases block n (skipTrivia us) with
    | error e => rfl
    | ok b => rfl

end Grammar

end Css2
