import Css2.Proofs.Grammar.Confinement.Statement
import Css2.Proofs.Reader.Neighbours
import Css2.Proofs.Reader.Brackets

/-!
# Tokens that are skipped as statements

Tokens whose brackets match may still be no statements.  A semicolon that ends no at-rule, the marks
of a comment in the text around the sheet and an at-keyword inside of a statement are accepted by no
production of the core grammar, unless they are inside of brackets.  So what becomes of matched
tokens is found out from the lexemes outside of the brackets alone (`outline`): `leave` reads them
one after another, and keeps nothing in mind but whether it is inside of a statement, and of which
kind.

`Matched.skipTail` says that the core grammar keeps pace with this scan.  It skips to the end of a
statement where the scan is between two of them, goes on behind the tokens where the scan is inside
of one, and fails where the scan fails.
-/

namespace Css2

namespace Grammar

open StatementScan (closes isPlain_or_isInner)

/-! ### Matched brackets -/

/-- The brackets that the tokens open are closed again, in order, none is closed that they have not
opened, and with them no more are open than may be. -/
inductive Matched : Nesting → List Token → Prop
  | nil (n : Nesting) : Matched n []
  | token {n : Nesting} {t : Token} {ts : List Token} : closerOf? t.lexeme = none →
      closes t.lexeme = false → Matched n ts → Matched n (t :: ts)
  | pair {n : Nesting} {t : Token} {m : Mark} {loc : Location} {ts us : List Token} :
      closerOf? t.lexeme = some m → n.depth < n.limit →
      Matched { n with depth := n.depth + 1 } ts → Matched n us →
      Matched n (t :: (ts ++ ⟨.mark m, loc⟩ :: us))

theorem isMark_of_closes {l : Lexeme} {m : Mark} (h : closes l = false) (hm : isCloser m = true) :
    l.isMark m = false := by
  cases l with
  | mark k =>
    rw [isMark_mark, beq_eq_false_iff_ne]
    rintro rfl
    exact Bool.noConfusion (h.symm.trans hm)
  | _ => rfl

theorem isMark_openBrace_of_closeBrace {l : Lexeme} (h : closerOf? l = some .closeBrace) :
    l.isMark .openBrace = true := by
  cases l with
  | mark m => cases m <;> first | rfl | cases h
  | _ => cases h

theorem isTrivia_closes {l : Lexeme} (h : l.isTrivia = true) :
    closerOf? l = none ∧ closes l = false := by
  cases l <;> first | exact ⟨rfl, rfl⟩ | cases h

theorem Matched.of_trivia {n : Nesting} {ts : List Token}
    (h : ∀ t ∈ ts, t.lexeme.isTrivia = true) : Matched n ts := by
  induction ts with
  | nil => exact .nil n
  | cons t ts ih =>
    obtain ⟨ho, hc⟩ := isTrivia_closes (h t List.mem_cons_self)
    exact .token ho hc (ih fun u hu => h u (List.mem_cons_of_mem t hu))

theorem Matched.append {n : Nesting} {ts us : List Token} (h : Matched n ts) (h' : Matched n us) :
    Matched n (ts ++ us) := by
  induction h with
  | nil => exact h'
  | token ho hc _ ih => exact .token ho hc (ih h')
  | pair ho hn hts _ _ ih =>
    rw [List.cons_append, List.append_assoc]
    exact .pair ho hn hts (ih h')

theorem contents_mark (n : Nesting) (m : Mark) (loc : Location) (ts : List Token) :
    contents n m (⟨.mark m, loc⟩ :: ts) = .ok ts :=
  contents_closer (by simp)

/-- **The inside of a pair does not end in matched tokens.** -/
theorem Matched.contents {n : Nesting} {ts : List Token} (h : Matched n ts) {closer : Mark}
    (hc : isCloser closer = true) (more : List Token) :
    Grammar.contents n closer (ts ++ more) = Grammar.contents n closer more := by
  induction h generalizing closer more with
  | nil => rfl
  | token ho ht _ ih =>
    rw [List.cons_append, contents_eq]
    simp only [isMark_of_closes ht hc, ho, isPlain_or_isInner ho, ht, Bool.not_false,
      Bool.false_eq_true, if_false, if_true]
    exact ih hc more
  | @pair n t m loc ts us ho hn _ _ ih1 ih2 =>
    rw [List.cons_append, contents_eq]
    simp only [isMark_of_closerOf? ho hc, ho, Bool.false_eq_true, if_false]
    rw [enter_of_lt hn, List.append_assoc, List.cons_append]
    dsimp only [bind, Except.bind]
    rw [ih1 (isCloser_closerOf? ho), contents_mark]
    exact ih2 hc more

theorem Matched.brackets {n : Nesting} {m : Mark} {ts : List Token}
    (h : Matched { n with depth := n.depth + 1 } ts) (hn : n.depth < n.limit)
    (hm : isCloser m = true) (loc : Location) (more : List Token) :
    Grammar.brackets n m (ts ++ ⟨.mark m, loc⟩ :: more) = .ok more := by
  rw [Grammar.brackets, enter_of_lt hn]
  exact (h.contents hm _).trans (contents_mark _ m loc more)

/-! ### What stands outside of brackets -/

/-- The lexemes outside of brackets, and those that open a pair there, if the marks `closers` are to
come first. -/
def outline : List Mark → List Token → List Lexeme
  | _, [] => []
  | closers, t :: ts =>
    let more := outline (pushCloser closers t.lexeme) ts
    if closers.isEmpty then t.lexeme :: more else more

theorem outline_token {t : Token} (h : closerOf? t.lexeme = none) (ts : List Token) :
    outline [] (t :: ts) = t.lexeme :: outline [] ts := by
  rw [outline, pushCloser_of_neither h (by simp)]
  rfl

theorem outline_inside (m : Mark) (outer : List Mark) (t : Token) (ts : List Token) :
    outline (m :: outer) (t :: ts) = outline (pushCloser (m :: outer) t.lexeme) ts :=
  rfl

theorem Matched.outline_append {n : Nesting} {ts : List Token} (h : Matched n ts) {m : Mark}
    {outer : List Mark} (hc : ∀ k ∈ m :: outer, isCloser k = true) (more : List Token) :
    outline (m :: outer) (ts ++ more) = outline (m :: outer) more := by
  induction h generalizing m outer more with
  | nil => rfl
  | token ho ht _ ih =>
    rw [List.cons_append, outline_inside,
      pushCloser_of_neither ho fun k hk => isMark_of_closes ht (hc k hk)]
    exact ih hc more
  | @pair n t k loc ts us ho _ _ _ ih1 ih2 =>
    have hk := isCloser_closerOf? ho
    rw [List.cons_append, outline_inside, pushCloser_of_closerOf? ho, List.append_assoc,
      ih1 (by simpa [hk] using hc), List.cons_append, outline_inside, pushCloser_closer hk]
    exact ih2 hc more

theorem Matched.outline_pair {n : Nesting} {ts : List Token} (h : Matched n ts) {t : Token}
    {m : Mark} (ho : closerOf? t.lexeme = some m) (loc : Location) (us : List Token) :
    outline [] (t :: (ts ++ ⟨.mark m, loc⟩ :: us)) = t.lexeme :: outline [] us := by
  have hm := isCloser_closerOf? ho
  rw [outline, pushCloser_of_closerOf? ho, h.outline_append (by simpa using hm), outline_inside,
    pushCloser_closer hm]
  rfl

/-! ### The scan -/

/-- Where a scan is that cuts tokens into statements. -/
inductive Spot where
  /-- Between two statements. -/
  | between
  /-- Inside of a statement, which is an at-rule or not. -/
  | within (atRule : Bool)
  deriving DecidableEq, Repr

/-- Where the scan is inside of a statement behind one more lexeme. -/
def Spot.pass (atRule : Bool) (l : Lexeme) : Option Spot :=
  if l.isMark .openBrace then some .between
  else if l.isMark .semicolon then if atRule then some .between else none
  else if isPlain l || (closerOf? l).isSome then some (.within atRule)
  else none

/-- Where the scan is behind one more lexeme outside of brackets; nowhere, if that may not stand
there. -/
def Spot.next : Spot → Lexeme → Option Spot
  | .within atRule, l => pass atRule l
  | .between, .atKeyword _ => some (.within true)
  | .between, l => if l.isTrivia then some .between else pass false l

theorem Spot.next_between {l : Lexeme} (h : ∀ name, l ≠ .atKeyword name) :
    next .between l = if l.isTrivia then some .between else pass false l := by
  cases l with
  | atKeyword name => exact absurd rfl (h name)
  | _ => rfl

def leave (spot : Spot) (ts : List Token) : Option Spot :=
  (outline [] ts).foldlM Spot.next spot

example : leave .between [⟨.atKeyword "a", .start⟩, ⟨.mark .openBracket, .start⟩,
    ⟨.mark .semicolon, .start⟩, ⟨.mark .closeBracket, .start⟩, ⟨.mark .semicolon, .start⟩,
    ⟨.ident "b", .start⟩] = some (.within false) := by
  decide

theorem leave_token {t : Token} (h : closerOf? t.lexeme = none) (spot : Spot) (ts : List Token) :
    leave spot (t :: ts) = (spot.next t.lexeme).bind fun s => leave s ts := by
  rw [leave, outline_token h, List.foldlM_cons]
  rfl

theorem leave_trivia {t : Token} (h : t.lexeme.isTrivia = true) (ts : List Token) :
    leave .between (t :: ts) = leave .between ts := by
  have hat : ∀ name, t.lexeme ≠ .atKeyword name := by
    intro name hname
    rw [hname] at h
    cases h
  rw [leave_token (isTrivia_closes h).1, Spot.next_between hat, if_pos h]
  rfl

theorem leave_between {t : Token} (ht : t.lexeme.isTrivia = false)
    (hat : ∀ name, t.lexeme ≠ .atKeyword name) (ts : List Token) :
    leave .between (t :: ts) = leave (.within false) (t :: ts) := by
  have hnext : Spot.next .between t.lexeme = Spot.next (.within false) t.lexeme := by
    rw [Spot.next_between hat, ht]
    rfl
  show (Spot.next .between t.lexeme >>= _) = _
  rw [hnext]
  rfl

theorem Matched.leave_pair {n : Nesting} {ts : List Token} (h : Matched n ts) {t : Token} {m : Mark}
    (ho : closerOf? t.lexeme = some m) (loc : Location) (us : List Token) (spot : Spot) :
    leave spot (t :: (ts ++ ⟨.mark m, loc⟩ :: us))
      = (spot.next t.lexeme).bind fun s => leave s us := by
  rw [leave, h.outline_pair ho, List.foldlM_cons]
  rfl

/-! ### Skipping -/

/-- In front of the first block there are only plain tokens and pairs of parentheses and brackets,
as in a ruleset. -/
def OpensBlock (ts : List Token) : Prop :=
  ∃ loc us, Stretch ts (⟨.mark .openBrace, loc⟩ :: us)

theorem ruleset_opensBlock {n : Nesting} {ts : List Token} {x : Lenient Ruleset}
    (h : ruleset n ts = .ok x) : OpensBlock ts := by
  rw [ruleset] at h
  obtain ⟨⟨s, us⟩, hs, h⟩ := bind_eq_ok h
  obtain ⟨b, hb, -⟩ := bind_eq_ok h
  rw [block] at hb
  obtain ⟨vs, he, -⟩ := bind_eq_ok hb
  obtain ⟨loc, rfl⟩ := expect_eq_ok he
  exact ⟨loc, vs, selector_stretch hs⟩

theorem OpensBlock.token {t : Token} {ts : List Token} (h : OpensBlock (t :: ts))
    (ho : closerOf? t.lexeme = none) : isPlain t.lexeme = true ∧ OpensBlock ts := by
  obtain ⟨loc, us, h⟩ := h
  cases h with
  | refl => cases ho
  | plain hp h => exact ⟨hp, loc, us, h⟩
  | pair hm => cases ho.symm.trans hm

theorem OpensBlock.pair {n : Nesting} {t : Token} {m : Mark} {loc : Location} {ts us : List Token}
    (h : OpensBlock (t :: (ts ++ ⟨.mark m, loc⟩ :: us))) (hts : Matched n ts)
    (ho : closerOf? t.lexeme = some m) (hm : m ≠ .closeBrace) : OpensBlock us := by
  obtain ⟨loc', vs, h⟩ := h
  cases h with
  | refl =>
    cases ho
    exact absurd rfl hm
  | plain hp =>
    rw [closerOf?_of_isPlain hp] at ho
    cases ho
  | @pair _ k loc'' _ ws _ hk _ hin hout =>
    cases ho.symm.trans hk
    -- the pair that the stretch runs over is closed where the matched tokens close it
    have hc := isCloser_closerOf? ho
    have hsame := hin.contents hc ((hts.contents hc _).trans (contents_mark n m loc us))
    rw [contents_mark, Except.ok.injEq] at hsame
    exact ⟨loc', vs, hsame ▸ hout⟩

/-- What `skip`, which skips a statement, comes to over the tokens `ts`, and where the scan is
then. -/
inductive Skips (n : Nesting) (atRule : Bool)
    (skip : List Token → Except Failure (List Token)) (ts : List Token) : Option Spot → Prop
  /-- The statement ends in front of `rest`. -/
  | ended {rest : List Token} : Matched n rest → rest.length < ts.length →
      (∀ more, skip (ts ++ more) = .ok (rest ++ more)) →
      Skips n atRule skip ts (leave .between rest)
  /-- The statement goes on behind the tokens. -/
  | unfinished : (∀ more, skip (ts ++ more) = Grammar.skipTail n atRule more) →
      (∀ more, OpensBlock (ts ++ more) → OpensBlock more) →
      Skips n atRule skip ts (some (.within atRule))
  /-- One of the tokens may not stand there. -/
  | stuck : (∀ more, ∃ e, skip (ts ++ more) = .error e) →
      (∀ more, ¬OpensBlock (ts ++ more)) → Skips n atRule skip ts none

theorem Skips.before {n : Nesting} {atRule : Bool} {ts us : List Token} {o : Option Spot}
    {skip skip' : List Token → Except Failure (List Token)} (h : Skips n atRule skip us o)
    (hskip : ∀ more, skip' (ts ++ more) = skip (us ++ more))
    (hopens : ∀ more, OpensBlock (ts ++ more) → OpensBlock (us ++ more))
    (hlength : us.length ≤ ts.length) : Skips n atRule skip' ts o := by
  cases h with
  | ended hrest hlt hend =>
    exact .ended hrest (Nat.lt_of_lt_of_le hlt hlength) fun more => (hskip more).trans (hend more)
  | unfinished hend hblock =>
    exact .unfinished (fun more => (hskip more).trans (hend more)) fun more h =>
      hblock more (hopens more h)
  | stuck hend hblock =>
    refine .stuck (fun more => ?_) fun more h => hblock more (hopens more h)
    obtain ⟨e, he⟩ := hend more
    exact ⟨e, (hskip more).trans he⟩

section

variable {n : Nesting} {atRule : Bool} {t : Token} {ts us : List Token} {m : Mark} {loc : Location}

theorem isMark_openBrace_of_token (ho : closerOf? t.lexeme = none) :
    t.lexeme.isMark .openBrace = false := by
  cases hb : t.lexeme.isMark .openBrace with
  | false => rfl
  | true => cases ho.symm.trans (closerOf?_of_isMark_openBrace hb)

theorem isMark_semicolon_of_closerOf? (ho : closerOf? t.lexeme = some m) :
    t.lexeme.isMark .semicolon = false := by
  have hstop := isStop_of_closerOf? ho
  rw [isStop, Bool.or_eq_false_iff] at hstop
  exact hstop.1

theorem skipTail_token (ho : closerOf? t.lexeme = none) (ts : List Token) :
    skipTail n atRule (t :: ts) =
      if atRule && t.lexeme.isMark .semicolon then .ok ts
      else if isPlain t.lexeme then skipTail n atRule ts
      else .error ⟨.stray t.lexeme, some t.loc⟩ := by
  rw [skipTail_eq]
  simp only [isMark_openBrace_of_token ho, ho, Bool.false_eq_true, if_false]

theorem skipTail_atRule {n : Nesting} {ts r : List Token} (h : skipTail n false ts = .ok r) :
    skipTail n true ts = .ok r := by
  fun_induction skipTail n false ts with
  | case1 => rw [skipTail_eq]; exact h
  | case2 t rest hb =>
    rw [skipTail_eq]
    simp only [hb, if_true]
    exact h
  | case3 t rest hb hsemi => cases hsemi
  | case4 => cases h
  | case5 t rest hb _ closer ho after hafter ih =>
    rw [skipTail_eq]
    simp only [hb, isMark_semicolon_of_closerOf? ho, ho, Bool.and_false, Bool.false_eq_true,
      if_false]
    rw [hafter]
    exact ih h
  | case6 t rest hb _ ho hp ih =>
    rw [skipTail_token ho]
    simp only [isMark_semicolon_of_isPlain hp, hp, Bool.and_false, Bool.false_eq_true, if_false,
      if_true]
    exact ih h
  | case7 => cases h

theorem Matched.skipTail_block (h : Matched { n with depth := n.depth + 1 } ts)
    (hn : n.depth < n.limit) (ht : t.lexeme.isMark .openBrace = true) :
    skipTail n atRule (t :: (ts ++ ⟨.mark .closeBrace, loc⟩ :: us)) = .ok us := by
  rw [skipTail_eq]
  simp only [ht, if_true]
  exact h.brackets hn rfl loc us

theorem Matched.skipTail_pair (h : Matched { n with depth := n.depth + 1 } ts)
    (hn : n.depth < n.limit) (ho : closerOf? t.lexeme = some m) (hm : m ≠ .closeBrace) :
    skipTail n atRule (t :: (ts ++ ⟨.mark m, loc⟩ :: us)) = skipTail n atRule us := by
  rw [skipTail_eq]
  simp only [isMark_openBrace_of_closerOf? ho hm, isMark_semicolon_of_closerOf? ho, ho,
    Bool.and_false, Bool.false_eq_true, if_false]
  rw [h.brackets hn (isCloser_closerOf? ho)]
  rfl

theorem Spot.pass_token (ho : closerOf? t.lexeme = none) :
    pass atRule t.lexeme =
      if t.lexeme.isMark .semicolon then if atRule then some .between else none
      else if isPlain t.lexeme then some (.within atRule) else none := by
  rw [pass]
  simp only [isMark_openBrace_of_token ho, ho, Option.isSome_none, Bool.or_false,
    Bool.false_eq_true, if_false]

theorem Spot.pass_block (ht : t.lexeme.isMark .openBrace = true) :
    pass atRule t.lexeme = some .between := by
  rw [pass, if_pos ht]

theorem Spot.pass_pair (ho : closerOf? t.lexeme = some m) (hm : m ≠ .closeBrace) :
    pass atRule t.lexeme = some (.within atRule) := by
  rw [pass]
  simp only [isMark_openBrace_of_closerOf? ho hm, isMark_semicolon_of_closerOf? ho, ho,
    Option.isSome_some, Bool.or_true, Bool.false_eq_true, if_false, if_true]

theorem Skips.token (ho : closerOf? t.lexeme = none) (hts : Matched n ts)
    (h : Skips n atRule (skipTail n atRule) ts (leave (.within atRule) ts)) :
    Skips n atRule (skipTail n atRule) (t :: ts) (leave (.within atRule) (t :: ts)) := by
  have hstep (more : List Token) := @skipTail_token n atRule t ho (ts ++ more)
  rw [leave_token ho, Spot.next, Spot.pass_token ho]
  by_cases hp : isPlain t.lexeme = true
  · have hsemi := isMark_semicolon_of_isPlain hp
    simp only [hsemi, hp, Bool.and_false, Bool.false_eq_true, if_false, if_true] at hstep ⊢
    exact h.before hstep (fun more hopens => (hopens.token ho).2) (Nat.le_succ _)
  · have hopens (more : List Token) : ¬OpensBlock (t :: ts ++ more) := fun h => hp (h.token ho).1
    rw [Bool.not_eq_true] at hp
    simp only [hp, Bool.false_eq_true, if_false] at hstep ⊢
    by_cases hend : (atRule && t.lexeme.isMark .semicolon) = true
    · simp only [hend, if_true] at hstep
      rw [Bool.and_eq_true] at hend
      obtain ⟨rfl, hsemi⟩ := hend
      rw [if_pos hsemi]
      exact .ended hts (Nat.lt_succ_self _) hstep
    · simp only [hend, Bool.false_eq_true, if_false] at hstep
      have hnone : (if t.lexeme.isMark .semicolon then if atRule then some Spot.between else none
          else none) = none := by
        rw [Bool.and_eq_true, not_and] at hend
        split
        · next hsemi => exact if_neg fun hat => hend hat hsemi
        · rfl
      rw [hnone]
      exact .stuck (fun more => ⟨_, hstep more⟩) hopens

theorem Skips.pair (ho : closerOf? t.lexeme = some m) (hn : n.depth < n.limit)
    (hts : Matched { n with depth := n.depth + 1 } ts) (hus : Matched n us)
    (h : Skips n atRule (skipTail n atRule) us (leave (.within atRule) us)) :
    Skips n atRule (skipTail n atRule) (t :: (ts ++ ⟨.mark m, loc⟩ :: us))
      (leave (.within atRule) (t :: (ts ++ ⟨.mark m, loc⟩ :: us))) := by
  have hsplit (more : List Token) : t :: (ts ++ ⟨.mark m, loc⟩ :: us) ++ more
      = t :: (ts ++ ⟨.mark m, loc⟩ :: (us ++ more)) := by
    simp
  have hlength : us.length < (t :: (ts ++ ⟨.mark m, loc⟩ :: us)).length := by
    simp only [List.length_cons, List.length_append]
    omega
  rw [hts.leave_pair ho, Spot.next]
  by_cases hm : m = .closeBrace
  · subst hm
    have ht : t.lexeme.isMark .openBrace = true := isMark_openBrace_of_closeBrace ho
    rw [Spot.pass_block ht]
    refine .ended hus hlength fun more => ?_
    rw [hsplit, hts.skipTail_block hn ht]
  · rw [Spot.pass_pair ho hm]
    refine h.before (fun more => ?_) (fun more hopens => ?_) (Nat.le_of_lt hlength)
    · rw [hsplit, hts.skipTail_pair hn ho hm]
    · rw [hsplit] at hopens
      exact hopens.pair hts ho hm

/-- **The skipping of a statement keeps pace with the scan.** -/
theorem Matched.skipTail (h : Matched n ts) (atRule : Bool) :
    Skips n atRule (Grammar.skipTail n atRule) ts (leave (.within atRule) ts) := by
  induction h with
  | nil => exact .unfinished (fun _ => rfl) fun _ h => h
  | token ho _ hts ih => exact ih.token ho hts
  | pair ho hn hts hus _ ih => exact ih.pair ho hn hts hus

end

end Grammar

end Css2
