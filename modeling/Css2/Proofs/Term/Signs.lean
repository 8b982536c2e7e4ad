import Css2.Proofs.Term.Origin
import Css2.Proofs.Token.Newlines

/-!
# The signs of terms

A number has the sign that is part of its token, and a term has a sign of its own where the
delimiter `+` or `-` is the token right before it.  `Term.WrittenIn` says both of a term and of the
tokens that it is read from, and every term of a value is written there, those among the arguments
of functions included (`Grammar.terms_written`).

Tokens give a sign of its own to a number that has one already, as in `-+5`.  A text does so only
where two of the characters `+` and `-` are side by side (`unsigned_scan`).
-/

namespace Css2

def Lexeme.sign? : Lexeme → Option Sign
  | delim c => if c = '+' then some .plus else if c = '-' then some .minus else none
  | _ => none

/-- A value that begins with the lexeme: the one that the lexeme is by itself, or a function of this
name. -/
def Lexeme.Begins (l : Lexeme) (v : Value) : Prop :=
  Grammar.simpleValue? l = some v ∨
    ∃ name args, l = .function name ∧ v = Value.ofFunction name args

theorem Lexeme.Begins.sign?_eq_none {l : Lexeme} {v : Value} (h : l.Begins v) : l.sign? = none := by
  rcases h with h | ⟨name, args, rfl, -⟩
  · cases l <;> first | rfl | cases h
  · rfl

def signBehind (ts : List Token) : Option Sign :=
  ts.getLast?.bind fun t => t.lexeme.sign?

/-- The term is written among the tokens: its value begins with one of them, its sign is the token
right before this one, and only numbers and functions have a sign. -/
def Term.WrittenIn (ts : List Token) (u : Term) : Prop :=
  ∃ before t after, ts = before ++ t :: after ∧ t.lexeme.Begins u.value ∧
    u.sign = signBehind before ∧ (u.sign ≠ none → u.value.takesSign = true)

@[simp] theorem signBehind_concat (ts : List Token) (t : Token) :
    signBehind (ts ++ [t]) = t.lexeme.sign? := by
  simp [signBehind]

theorem signBehind_append {ts us : List Token} (hts : signBehind ts = none)
    (hus : signBehind us = none) : signBehind (ts ++ us) = none := by
  cases us using List.reverseRecOn with
  | nil => rwa [List.append_nil]
  | append_singleton us u =>
    rw [signBehind_concat] at hus
    rw [← List.append_assoc, signBehind_concat]
    exact hus

namespace Grammar

/-! ### Steps over tokens -/

/-- `us` is what is left of `ts` behind some tokens of which the last is no sign. -/
def Leaves (ts us : List Token) : Prop :=
  ∃ mid, ts = mid ++ us ∧ signBehind mid = none

theorem Leaves.refl (ts : List Token) : Leaves ts ts :=
  ⟨[], rfl, rfl⟩

theorem Leaves.trans {ts us vs : List Token} (h : Leaves ts us) (k : Leaves us vs) :
    Leaves ts vs := by
  obtain ⟨mid, rfl, hmid⟩ := h
  obtain ⟨mid', rfl, hmid'⟩ := k
  exact ⟨mid ++ mid', (List.append_assoc ..).symm, signBehind_append hmid hmid'⟩

/-- Behind a token that is no sign, whatever stands before it. -/
theorem Leaves.of_suffix {t : Token} {ts us : List Token} (h : t :: us <:+ ts)
    (ht : t.lexeme.sign? = none) : Leaves ts us := by
  obtain ⟨ps, rfl⟩ := h
  exact ⟨ps ++ [t], (List.append_cons ps t us), by rwa [signBehind_concat]⟩

theorem leaves_skipTrivia (ts : List Token) : Leaves ts (skipTrivia ts) := by
  refine ⟨_, List.takeWhile_append_dropWhile.symm, ?_⟩
  rw [signBehind]
  cases hlast : (ts.takeWhile fun t => t.lexeme.isTrivia).getLast? with
  | none => rfl
  | some t =>
    have ht := List.mem_takeWhile_imp (p := fun t : Token => t.lexeme.isTrivia)
      (List.mem_of_getLast? hlast)
    show t.lexeme.sign? = none
    cases hl : t.lexeme <;> first | rfl | (rw [hl] at ht; cases ht)

/-- Behind the tokens before `ts` and the sign that is read there, the next token has that sign
right before it. -/
theorem sign_leaves {ts us : List Token} {s : Option Sign} (h : sign ts = (s, us)) :
    ∃ mid, ts = mid ++ us ∧ ∀ pre, signBehind pre = none → signBehind (pre ++ mid) = s := by
  unfold sign at h
  split at h
  · next c loc rest =>
    split at h
    · next hc =>
      cases h
      exact ⟨[⟨.delim c, loc⟩], rfl, fun pre _ => by simp [Lexeme.sign?, hc]⟩
    · split at h
      · next hplus hminus =>
        cases h
        exact ⟨[⟨.delim c, loc⟩], rfl, fun pre _ => by simp [Lexeme.sign?, hminus]⟩
      · cases h
        exact ⟨[], rfl, fun pre hpre => by rwa [List.append_nil]⟩
  · cases h
    exact ⟨[], rfl, fun pre hpre => by rwa [List.append_nil]⟩

theorem value_begins {n : Nesting} {t : Token} {rest after : List Token} {v : Value}
    (h : value n t rest = .ok (v, after)) : t.lexeme.Begins v ∧ Leaves rest after := by
  rw [value] at h
  split at h
  · next name hname =>
    obtain ⟨deeper, _, h⟩ := bind_eq_ok h
    obtain ⟨⟨args, us⟩, hargs, h⟩ := bind_eq_ok h
    obtain ⟨close, hclose, h⟩ := bind_eq_ok h
    cases h
    obtain ⟨loc, hclose⟩ := expect_eq_ok hclose
    refine ⟨.inr ⟨name, args, hname, rfl⟩, .of_suffix (t := ⟨.mark .closeParen, loc⟩) ?_ rfl⟩
    rw [← hclose]
    calc skipTrivia us <:+ us := List.dropWhile_suffix _
      _ <:+ skipTrivia rest := (terms_stretch hargs).suffix
      _ <:+ rest := List.dropWhile_suffix _
  · split at h
    · next w hw =>
      cases h
      exact ⟨.inl hw, .refl _⟩
    · cases h

theorem next?_leaves {ts rest : List Token} {sep : Option Separator}
    (h : next? ts = some (sep, rest)) : Leaves ts rest := by
  have hskip := leaves_skipTrivia ts
  rw [next?] at h
  split at h
  · cases h
  · next t us heq =>
    rw [heq] at hskip
    have hmore : t.lexeme.sign? = none → Leaves ts (skipTrivia us) := fun ht =>
      hskip.trans ((Leaves.of_suffix List.suffix_rfl ht).trans (leaves_skipTrivia us))
    split at h
    · next hcomma =>
      cases h
      exact hmore (by rw [isMark_iff.1 hcomma]; rfl)
    · split at h
      · next hslash =>
        cases h
        exact hmore (by rw [isDelim_iff.1 hslash]; rfl)
      · split at h
        · cases h
          exact hskip
        · cases h

/-! ### Values -/

/-- The terms nested in a value are among the arguments that are read for it. -/
theorem value_nested {P : Term → Prop} {n : Nesting} {t : Token} {rest after : List Token}
    {v : Value} (ih : ∀ deeper args mid, terms deeper (skipTrivia rest) = .ok (args, mid) →
      ∀ u ∈ Term.nestedAll args, P u)
    (h : value n t rest = .ok (v, after)) : ∀ u ∈ v.nested, P u := by
  rw [value] at h
  split at h
  · next name hname =>
    obtain ⟨deeper, _, h⟩ := bind_eq_ok h
    obtain ⟨⟨args, us⟩, hargs, h⟩ := bind_eq_ok h
    obtain ⟨close, _, h⟩ := bind_eq_ok h
    cases h
    rcases Value.ofFunction_cases name args with hf | ⟨address, hf⟩ | ⟨color, hf⟩
    · rw [hf]
      exact ih deeper args us hargs
    · rw [hf]
      exact fun _ hu => absurd hu List.not_mem_nil
    · rw [hf]
      exact fun _ hu => absurd hu List.not_mem_nil
  · next l _ =>
    split at h
    · next w hw =>
      cases h
      cases hl : t.lexeme <;> rw [hl] at hw <;> cases hw <;>
        exact fun _ hu => absurd hu List.not_mem_nil
    · cases h

/-- **The terms of a value are written where it is read**, if no sign is right before it. -/
theorem terms_written {n : Nesting} {pre ts rest : List Token} {v : List Term}
    (hpre : signBehind pre = none) (h : terms n ts = .ok (v, rest)) :
    ∀ u ∈ Term.nestedAll v, u.WrittenIn (pre ++ ts) := by
  -- the arguments of a function and the further terms have fewer tokens, and more before them
  induction hlen : ts.length using Nat.strongRecOn generalizing n pre ts rest v with
  | ind len ih =>
    subst hlen
    have hle := sign_le ts
    rw [terms_eq] at h
    split at h
    · cases h
    · next s t us hs =>
      rw [hs, List.length_cons] at hle
      obtain ⟨mid, hts, hmid⟩ := sign_leaves hs
      obtain ⟨⟨w, after⟩, hw, h⟩ := bind_eq_ok h
      obtain ⟨hbegins, hafter⟩ := value_begins hw
      -- behind the token `t` any further terms have no sign right before them
      have hfurther : ∀ {m vs more final}, Leaves us vs → terms m vs = .ok (more, final) →
          ∀ u ∈ Term.nestedAll more, u.WrittenIn (pre ++ ts) := by
        rintro m vs more final ⟨mid', rfl, hmid'⟩ hmore
        have hsplit : pre ++ ts = (pre ++ mid ++ [t] ++ mid') ++ vs := by simp [hts]
        rw [hsplit]
        refine ih vs.length ?_ (signBehind_append ?_ hmid') hmore rfl
        · rw [List.length_append] at hle
          omega
        · rw [signBehind_concat]
          exact hbegins.sign?_eq_none
      have hterm : (s.isSome && !w.takesSign) = false → ∀ separator,
          ∀ u ∈ Term.nested ⟨w, s, separator⟩, u.WrittenIn (pre ++ ts) := by
        intro htakes separator u hu
        rw [Term.nested] at hu
        rcases List.mem_cons.1 hu with rfl | hu
        · refine ⟨pre ++ mid, t, us, by simp [hts], hbegins, (hmid pre hpre).symm, fun hne => ?_⟩
          cases s with
          | none => exact absurd rfl hne
          | some s => simpa using htakes
        · exact value_nested (fun _ _ _ => hfurther (leaves_skipTrivia us)) hw u hu
      dsimp only at h
      split at h
      · cases h
      · next htakes =>
        rw [Bool.not_eq_true] at htakes
        split at h
        · cases h
          simpa [Term.nestedAll] using hterm htakes none
        · next separator following hnext =>
          obtain ⟨⟨more, final⟩, hmore, h⟩ := bind_eq_ok h
          cases h
          intro u hu
          rcases List.mem_append.1 hu with hu | hu
          · exact hterm htakes separator u hu
          · exact hfurther (hafter.trans (next?_leaves hnext)) hmore u hu

end Grammar

/-! ### Tokens and texts without two signs in a row -/

/-- Whether the lexeme is a number, which may have a unit. -/
def Lexeme.isNumeric : Lexeme → Bool
  | number _ _ | percentage _ | dimension _ _ _ => true
  | _ => false

/-- No number has a sign right before its token. -/
def Unsigned (ts : List Token) : Prop :=
  ∀ before d t after, ts = before ++ d :: t :: after → t.lexeme.isNumeric = true →
    d.lexeme.sign? = none

theorem Lexeme.Begins.isNumeric {l : Lexeme} {q : Quantity} (h : l.Begins (.number q)) :
    l.isNumeric = true := by
  rcases h with h | ⟨name, args, -, h⟩
  · cases l <;> first | rfl | cases h
  · rcases Value.ofFunction_cases name args with hf | ⟨address, hf⟩ | ⟨color, hf⟩ <;>
      (rw [hf] at h; cases h)

/-- **Where no number has a sign right before its token, none has a sign of its own.** -/
theorem Term.WrittenIn.sign_eq_none {ts : List Token} {u : Term} {q : Quantity}
    (h : u.WrittenIn ts) (hts : Unsigned ts) (hq : u.value = .number q) : u.sign = none := by
  obtain ⟨before, t, after, rfl, hbegins, hsign, -⟩ := h
  rw [hq] at hbegins
  rw [hsign]
  cases before using List.reverseRecOn with
  | nil => rfl
  | append_singleton before d =>
    rw [signBehind_concat]
    exact hts before d t after (by simp) hbegins.isNumeric

def Scan.isSign (c : Char) : Bool :=
  c = '+' || c = '-'

/-- No two of the characters `+` and `-` are side by side. -/
def Scan.SignsApart (cs : List Char) : Prop :=
  cs.IsChain fun c d => isSign c = true → isSign d = false

namespace Scan

/-- What holds of the characters `cs` that a number or a sign is found at the front of. -/
def Fits (cs rest : List Char) (l : Lexeme) : Prop :=
  (l.isNumeric = true → startsNumber cs = true) ∧
    (l.sign? ≠ none → ∃ c, cs = c :: rest ∧ isSign c = true ∧ startsNumber cs = false)

theorem InStep.suffix {cs ds rest rest' : List Char} (h : InStep rest rest' cs ds) :
    rest <:+ cs := by
  induction h with
  | refl => exact List.suffix_rfl
  | char _ _ ih => exact ih.trans (List.suffix_cons _ _)
  | pair _ ih => exact ih.trans ((List.suffix_cons _ _).trans (List.suffix_cons _ _))
  | single _ _ _ ih => exact ih.trans (List.suffix_cons _ _)

theorem next?_suffix {cs rest : List Char} {l : Lexeme} (h : next? cs = some (l, rest)) :
    rest <:+ cs := by
  obtain ⟨rfl, -⟩ | ⟨r, r', hr, -, hread⟩ := next?_alike (alike_unifyBreaks cs)
  · cases h
  · obtain rfl := Option.some.inj (h.symm.trans hr)
    exact hread.inStep.suffix

theorem fits_of_other {cs rest : List Char} {l : Lexeme} (hn : l.isNumeric = false)
    (hs : l.sign? = none) : Fits cs rest l :=
  ⟨fun h => absurd (hn.symm.trans h) (by decide), fun h => absurd hs h⟩

theorem fits_takeNamed (cs : List Char) : Fits cs (takeNamed cs).2 (takeNamed cs).1 := by
  rw [takeNamed]
  split
  · split
    · split <;> exact fits_of_other rfl rfl
    · exact fits_of_other rfl rfl
  · exact fits_of_other rfl rfl

theorem fits_takeSpecial {c : Char} {cs : List Char} (h : startsNumber (c :: cs) = false) :
    Fits (c :: cs) (takeSpecial c cs).2 (takeSpecial c cs).1 := by
  rw [takeSpecial]
  split
  · exact fits_of_other rfl rfl
  · split
    · split <;> exact fits_of_other rfl rfl
    · split
      · rw [takeHash]
        split <;> exact fits_of_other rfl rfl
      · split
        · unfold takeImportant
          dsimp only
          split <;> exact fits_of_other rfl rfl
        · split
          · exact fits_of_other rfl rfl
          · split
            · exact fits_of_other rfl rfl
            · refine ⟨fun hn => Bool.noConfusion hn, fun hs => ⟨c, rfl, ?_, h⟩⟩
              rw [isSign, Bool.or_eq_true, decide_eq_true_eq, decide_eq_true_eq]
              by_contra hc
              rw [not_or] at hc
              exact hs (by rw [Lexeme.sign?, if_neg hc.1, if_neg hc.2])

theorem fits_next? {cs rest : List Char} {l : Lexeme} (h : next? cs = some (l, rest)) :
    Fits cs rest l := by
  unfold next? at h
  split at h
  · cases h
  · cases h
    exact fits_of_other rfl rfl
  · next c ds _ =>
    split at h
    · next hn =>
      refine ⟨fun _ => hn, fun hs => absurd ?_ hs⟩
      rw [show l = (takeNumeric (c :: ds)).1 from (congrArg Prod.fst (Option.some.inj h)).symm]
      rw [takeNumeric]
      dsimp only
      split
      · rfl
      · split <;> rfl
    · next hn =>
      rw [Bool.not_eq_true] at hn
      split at h
      · cases h
        exact fits_of_other rfl rfl
      · split at h
        · cases h
          exact fits_of_other rfl rfl
        · split at h
          · have hfits := fits_takeNamed (c :: ds)
            rw [Option.some.inj h] at hfits
            exact hfits
          · have hfits := fits_takeSpecial hn
            rw [Option.some.inj h] at hfits
            exact hfits

/-- Behind a sign that does not begin a number, a number begins with a sign of its own. -/
theorem isSign_of_startsNumber {c : Char} {cs : List Char} (hc : isSign c = true)
    (hn : startsNumber (c :: cs) = false) (h : startsNumber cs = true) :
    ∃ d ds, cs = d :: ds ∧ isSign d = true := by
  have hunsigned : startsUnsigned cs = false := by
    rw [isSign, Bool.or_eq_true, decide_eq_true_eq, decide_eq_true_eq] at hc
    rcases hc with rfl | rfl <;> exact hn
  unfold startsNumber at h
  split at h
  · exact ⟨_, _, rfl, rfl⟩
  · exact ⟨_, _, rfl, rfl⟩
  · rw [hunsigned] at h
    cases h

end Scan

/-- **In a text whose signs are apart no number has a sign right before its token.** -/
theorem TokensOf.unsigned {cs : List Char} {ts : List Token} (hts : TokensOf cs ts)
    (h : Scan.SignsApart cs) : Unsigned ts := by
  rintro before d t after rfl hn
  induction before generalizing cs with
  | nil =>
    obtain ⟨rest, hd, hrest⟩ := hts.of_cons
    obtain ⟨rest', ht, -⟩ := hrest.of_cons
    by_contra hsign
    obtain ⟨c, rfl, hc, hnumber⟩ := (Scan.fits_next? hd).2 hsign
    obtain ⟨e, es, rfl, he⟩ :=
      Scan.isSign_of_startsNumber hc hnumber ((Scan.fits_next? ht).1 hn)
    rw [Scan.SignsApart, List.isChain_cons_cons] at h
    rw [h.1 hc] at he
    cases he
  | cons p before ih =>
    obtain ⟨rest, hp, hrest⟩ := hts.of_cons
    obtain ⟨taken, rfl⟩ := Scan.next?_suffix hp
    exact ih h.right_of_append hrest

theorem unsigned_scan {text : String} (h : Scan.SignsApart text.toList) : Unsigned (scan text) :=
  (tokensOf_scan text).unsigned h

end Css2
