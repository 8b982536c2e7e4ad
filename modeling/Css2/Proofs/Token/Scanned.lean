import Css2.Proofs.Token.ReadBack

/-!
# What the scanner finds

Not every list of tokens comes from a text.  The names of scanned tokens are not empty, a Unicode
range is one that would be read back, a function called `url` has a quoted string behind it, and a
minus sign has no function behind it (`Scan.sound_next?`).  The grammar owes to these facts that
what it reads can be written.
-/

namespace Css2

/-- What holds of a lexeme that the scanner finds at the front of the characters `cs`, with `rest`
behind it. -/
def Lexeme.Sound (cs rest : List Char) : Lexeme → Prop
  | .ident name => name ≠ ""
  | .function name =>
    name ≠ "" ∧ Scan.startsName cs = true ∧
      (sameName name "url" = true → Scan.startsQuoted rest = true)
  | .hash name _ => name ≠ ""
  | .dimension _ _ unit => unit ≠ ""
  | .unicodeRange range => Scan.IsRange range.toList
  | .delim c => c = '-' → Scan.startsName rest = false
  | _ => True

namespace Scan

/-! ### Names -/

theorem takeName_ne_nil {cs : List Char} (h : continuesName cs = true) : (takeName cs).1 ≠ [] := by
  unfold continuesName at h
  split at h
  · rw [takeName_escape h]
    exact List.cons_ne_nil _ _
  · rw [takeName, if_pos h]
    exact List.cons_ne_nil _ _
  · cases h

theorem ofList_takeName_ne {cs : List Char} (h : continuesName cs = true) :
    String.ofList (takeName cs).1 ≠ "" := by
  intro heq
  exact takeName_ne_nil h (by rw [← String.toList_ofList (l := (takeName cs).1), heq]; rfl)

theorem startsName_cons_hyphen {cs : List Char} (h : startsName cs = true) :
    startsName ('-' :: cs) = true := by
  cases cs with
  | nil => cases h
  | cons c cs =>
    by_cases hback : c = '\\'
    · subst hback
      exact h
    · by_cases hhyphen : c = '-'
      · subst hhyphen
        rfl
      · have hstart : isNameStart c = true := by
          unfold startsName at h
          split at h
          · next heq => cases heq; exact absurd rfl hhyphen
          · next heq => cases heq; exact absurd rfl hhyphen
          · next heq => cases heq; exact absurd rfl hback
          · next heq => cases heq; exact h
          · next heq => cases heq
        unfold startsName
        split
        · next heq => cases heq; exact absurd rfl hback
        · next heq => cases heq; rw [hstart]; rfl
        · next heq => cases heq
        · next h2 _ heq => cases heq; exact absurd rfl (h2 c cs rfl)
        · next heq => cases heq

/-! ### Unicode ranges -/

theorem takeUpTo_fst_le (p : Char → Bool) (n : Nat) (cs : List Char) :
    (takeUpTo p n cs).1.length ≤ n := by
  induction n generalizing cs with
  | zero => simp [takeUpTo]
  | succ n ih =>
    cases cs with
    | nil => simp [takeUpTo]
    | cons c cs =>
      rw [takeUpTo]
      split
      · exact Nat.succ_le_succ (ih cs)
      · exact Nat.zero_le _

theorem takeUpTo_fst_all (p : Char → Bool) (n : Nat) (cs : List Char) :
    ∀ c ∈ (takeUpTo p n cs).1, p c = true := by
  induction n generalizing cs with
  | zero => simp [takeUpTo]
  | succ n ih =>
    cases cs with
    | nil => simp [takeUpTo]
    | cons c cs =>
      rw [takeUpTo]
      split
      · next hc =>
        intro d hd
        rcases List.mem_cons.1 hd with rfl | hd
        · exact hc
        · exact ih cs d hd
      · intro d hd
        cases hd

theorem takeUpTo_fst_ne {p : Char → Bool} {c : Char} (h : p c = true) (n : Nat) (cs : List Char) :
    (takeUpTo p (n + 1) (c :: cs)).1 ≠ [] := by
  rw [takeUpTo, if_pos h]
  exact List.cons_ne_nil _ _

/-- **A Unicode range that is taken would be read back.** -/
theorem isRange_takeUnicodeRange {c : Char} (h : isRangeChar c = true) (cs : List Char) :
    IsRange (takeUnicodeRange (c :: cs)).1 := by
  have hne := takeUpTo_fst_ne h 5 cs
  have hlen := takeUpTo_fst_le isRangeChar 6 (c :: cs)
  have hall := takeUpTo_fst_all isRangeChar 6 (c :: cs)
  have hfirst : IsRange (takeUpTo isRangeChar 6 (c :: cs)).1 := .inl ⟨hne, hlen, hall⟩
  rw [takeUnicodeRange]
  dsimp only
  split
  · next d rest heq =>
    split
    · next hd =>
      rw [Bool.and_eq_true, Bool.not_eq_true', ← Bool.not_eq_true, List.contains_iff_mem] at hd
      refine .inr ⟨_, _, rfl, ⟨hne, hlen, ?_⟩, takeUpTo_fst_ne hd.1 5 rest,
        takeUpTo_fst_le _ _ _, takeUpTo_fst_all _ _ _⟩
      intro e he
      have hrange := hall e he
      rw [isRangeChar] at hrange
      rw [Bool.or_eq_true, decide_eq_true_eq] at hrange
      rcases hrange with hrange | rfl
      · exact hrange
      · exact absurd he hd.2
    · exact hfirst
  · exact hfirst

theorem startsUnicodeRange_eq {cs : List Char} (h : startsUnicodeRange cs = true) :
    ∃ c ds, cs = '+' :: c :: ds ∧ isRangeChar c = true := by
  unfold startsUnicodeRange at h
  split at h
  · exact ⟨_, _, rfl, h⟩
  · cases h

/-! ### Lexemes -/

theorem sound_takeNumeric (cs : List Char) :
    (takeNumeric cs).1.Sound cs (takeNumeric cs).2 := by
  rw [takeNumeric]
  dsimp only
  split
  · next h => exact ofList_takeName_ne (continuesName_of_startsName h)
  · split <;> exact trivial

theorem sound_takeNamed {cs : List Char} (h : startsName cs = true) :
    (takeNamed cs).1.Sound cs (takeNamed cs).2 := by
  have hne := ofList_takeName_ne (continuesName_of_startsName h)
  unfold takeNamed
  dsimp only
  split
  · split
    · split <;> exact trivial
    · next hurl =>
      refine ⟨hne, h, ?_⟩
      intro hsame
      rw [hsame, Bool.true_and, Bool.not_eq_true', Bool.not_eq_false] at hurl
      exact hurl
  · exact hne

theorem sound_takeSpecial {c : Char} {cs : List Char} (h : startsName (c :: cs) = false) :
    (takeSpecial c cs).1.Sound (c :: cs) (takeSpecial c cs).2 := by
  rw [takeSpecial]
  split
  · exact trivial
  · split
    · split <;> exact trivial
    · split
      · rw [takeHash]
        split
        · next hcont => exact ofList_takeName_ne hcont
        · exact fun hc => absurd hc (by decide)
      · split
        · unfold takeImportant
          dsimp only
          split
          · exact trivial
          · exact fun hc => absurd hc (by decide)
        · split
          · exact trivial
          · split
            · exact trivial
            · rintro rfl
              rw [← Bool.not_eq_true]
              intro hs
              rw [startsName_cons_hyphen hs] at h
              cases h

theorem next?_quote {q : Char} (h : q = '\x22' ∨ q = '\x27') (cs : List Char) :
    ∃ l rest, next? (q :: cs) = some (l, rest) ∧
      ((∃ value, l = .string value) ∨ l = .badString) := by
  have hspecial : ∃ l rest, takeSpecial q cs = (l, rest) ∧
      ((∃ value, l = .string value) ∨ l = .badString) := by
    have hblank : ¬isBlank q = true := by rcases h with rfl | rfl <;> decide
    rw [takeSpecial]
    rw [if_neg hblank, if_pos h]
    split
    · exact ⟨_, _, rfl, .inl ⟨_, rfl⟩⟩
    · exact ⟨_, _, rfl, .inr rfl⟩
  obtain ⟨l, rest, heq, hl⟩ := hspecial
  refine ⟨l, rest, ?_, hl⟩
  rw [← heq]
  rcases h with rfl | rfl <;> rfl

/-- **Every lexeme that the scanner finds is sound.** -/
theorem sound_next? {cs rest : List Char} {l : Lexeme} (h : next? cs = some (l, rest)) :
    l.Sound cs rest := by
  unfold next? at h
  split at h
  · cases h
  · cases h
    exact trivial
  · next c ds _ =>
    split at h
    · have hs := sound_takeNumeric (c :: ds)
      rw [Option.some.inj h] at hs
      exact hs
    · split at h
      · next hu =>
        cases h
        obtain ⟨d, es, rfl, hd⟩ := startsUnicodeRange_eq hu.2
        show IsRange (String.ofList (takeUnicodeRange (d :: es)).1).toList
        rw [String.toList_ofList]
        exact isRange_takeUnicodeRange hd es
      · split at h
        · cases h
          exact trivial
        · split at h
          · next hname =>
            have hs := sound_takeNamed hname
            rw [Option.some.inj h] at hs
            exact hs
          · next hname =>
            rw [Bool.not_eq_true] at hname
            have hs := sound_takeSpecial hname
            rw [Option.some.inj h] at hs
            exact hs

end Scan

/-! ### Tokens -/

/-- The tokens are those of some text. -/
def Scanned (ts : List Token) : Prop :=
  ∃ cs, TokensOf cs ts

namespace Scanned

variable {ts us : List Token} {t : Token}

theorem scan (text : String) : Scanned (scan text) :=
  ⟨_, tokensOf_scan text⟩

theorem tail (h : Scanned (t :: ts)) : Scanned ts := by
  obtain ⟨cs, hcs⟩ := h
  obtain ⟨rest, _, hrest⟩ := hcs.of_cons
  exact ⟨rest, hrest⟩

theorem suffix (h : Scanned ts) (hs : us <:+ ts) : Scanned us := by
  obtain ⟨ps, rfl⟩ := hs
  induction ps with
  | nil => exact h
  | cons p ps ih => exact ih h.tail

theorem skipTrivia (h : Scanned ts) : Scanned (Grammar.skipTrivia ts) :=
  h.suffix (List.dropWhile_suffix _)

theorem of_skipTrivia (h : Scanned ts) (hs : Grammar.skipTrivia ts = us) : Scanned us := by
  rw [← hs]
  exact h.skipTrivia

theorem nil : Scanned [] :=
  (Scanned.scan "").suffix (List.nil_suffix)

theorem sound (h : Scanned (t :: ts)) : ∃ cs rest, t.lexeme.Sound cs rest := by
  obtain ⟨cs, hcs⟩ := h
  obtain ⟨rest, hn, _⟩ := hcs.of_cons
  exact ⟨cs, rest, Scan.sound_next? hn⟩

/-- Behind a function called `url` there is a string, unless a line break cuts it short. -/
theorem url {name : String} {loc : Location} (h : Scanned (⟨.function name, loc⟩ :: ts))
    (hurl : sameName name "url" = true) (hs : Grammar.skipTrivia ts = t :: us) :
    (∃ value, t.lexeme = .string value) ∨ t.lexeme = .badString := by
  obtain ⟨cs, hcs⟩ := h
  obtain ⟨rest, hn, hrest⟩ := hcs.of_cons
  have hquoted : Scan.startsQuoted rest = true := (Scan.sound_next? hn).2.2 hurl
  obtain ⟨vs, hskip, hvs⟩ := hrest.skipTrivia_dropWhile
  obtain ⟨l, after, hn', hl⟩ : ∃ l after, Scan.next? (rest.dropWhile isBlank) = some (l, after) ∧
      ((∃ value, l = .string value) ∨ l = .badString) := by
    rw [Scan.startsQuoted] at hquoted
    split at hquoted
    · next q ds heq =>
      rw [heq]
      exact Scan.next?_quote (by simpa using hquoted) ds
    · cases hquoted
  obtain ⟨loc', ws, rfl, _⟩ := hvs.next hn'
  have htrivia : l.isTrivia = false := by
    rcases hl with ⟨value, rfl⟩ | rfl <;> rfl
  have heq : Grammar.skipTrivia (⟨l, loc'⟩ :: ws) = ⟨l, loc'⟩ :: ws :=
    List.dropWhile_cons_of_neg (by simp [htrivia])
  rw [hskip, heq] at hs
  cases hs
  exact hl

theorem minus {name : String} {loc loc' : Location}
    (h : Scanned (⟨.delim '-', loc⟩ :: ⟨.function name, loc'⟩ :: ts)) : False := by
  obtain ⟨cs, hcs⟩ := h
  obtain ⟨rest, hn, hrest⟩ := hcs.of_cons
  obtain ⟨rest', hn', _⟩ := hrest.of_cons
  have h1 : Scan.startsName rest = false := Scan.sound_next? hn rfl
  have h2 : Scan.startsName rest = true := (Scan.sound_next? hn').2.1
  rw [h1] at h2
  cases h2

end Scanned

end Css2
