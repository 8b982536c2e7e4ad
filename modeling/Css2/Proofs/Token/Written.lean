import Css2.Token.Scan
import Css2.Written

/-!
# Written names and strings read back

What the printer does to a name or a string, the scanner undoes.  A name is read back to its last
character if what follows it is no part of a name (`takeName_ident`, `takeName_unit`,
`takeName_name`), and a string is read back whatever follows it (`takeString_string`).  The one
character that has no spelling is the null character, so names must be free of it.
-/

namespace Css2

namespace Scan

/-! ### Characters by their codes -/

theorem isDigit_iff {c : Char} : c.isDigit = true ↔ 48 ≤ c.toNat ∧ c.toNat ≤ 57 := by
  simp only [Char.isDigit, Bool.and_eq_true, decide_eq_true_eq, UInt32.le_iff_toNat_le, ge_iff_le]
  rfl

theorem isAlpha_iff {c : Char} : c.isAlpha = true ↔
    65 ≤ c.toNat ∧ c.toNat ≤ 90 ∨ 97 ≤ c.toNat ∧ c.toNat ≤ 122 := by
  delta Char.isAlpha Char.isUpper Char.isLower
  simp only [Bool.or_eq_true, Bool.and_eq_true, decide_eq_true_eq, UInt32.le_iff_toNat_le,
    ge_iff_le]
  rfl

theorem isNameStart_iff {c : Char} : isNameStart c = true ↔
    65 ≤ c.toNat ∧ c.toNat ≤ 90 ∨ 97 ≤ c.toNat ∧ c.toNat ≤ 122 ∨ c.toNat = 95 ∨
      128 ≤ c.toNat := by
  have h : c = '_' ↔ c.toNat = 95 := Char.toNat_inj.symm
  simp only [isNameStart, isNonAscii, Bool.or_eq_true, decide_eq_true_eq, isAlpha_iff, h]
  omega

theorem isNameChar_iff {c : Char} : isNameChar c = true ↔
    65 ≤ c.toNat ∧ c.toNat ≤ 90 ∨ 97 ≤ c.toNat ∧ c.toNat ≤ 122 ∨ c.toNat = 95 ∨
      128 ≤ c.toNat ∨ 48 ≤ c.toNat ∧ c.toNat ≤ 57 ∨ c.toNat = 45 := by
  have h : c = '-' ↔ c.toNat = 45 := Char.toNat_inj.symm
  simp only [isNameChar, Bool.or_eq_true, decide_eq_true_eq, isNameStart_iff, isDigit_iff, h]
  omega

theorem isHexDigit_iff {c : Char} : isHexDigit c = true ↔
    48 ≤ c.toNat ∧ c.toNat ≤ 57 ∨ 97 ≤ c.toNat ∧ c.toNat ≤ 102 ∨
      65 ≤ c.toNat ∧ c.toNat ≤ 70 := by
  have hl : ('a' ≤ c ∧ c ≤ 'f') ↔ 97 ≤ c.toNat ∧ c.toNat ≤ 102 := Iff.rfl
  have hu : ('A' ≤ c ∧ c ≤ 'F') ↔ 65 ≤ c.toNat ∧ c.toNat ≤ 70 := Iff.rfl
  rw [isHexDigit, hexValue?]
  rw [← hl, ← hu, ← isDigit_iff]
  split
  · next h => simp [h]
  · next h =>
    split
    · next h' => simp [h']
    · next h' => split <;> simp_all

theorem isNewline_iff {c : Char} : isNewline c = true ↔
    c.toNat = 10 ∨ c.toNat = 13 ∨ c.toNat = 12 := by
  have h1 : c = '\n' ↔ c.toNat = 10 := Char.toNat_inj.symm
  have h2 : c = '\r' ↔ c.toNat = 13 := Char.toNat_inj.symm
  have h3 : c = '\x0c' ↔ c.toNat = 12 := Char.toNat_inj.symm
  simp only [isNewline, Bool.or_eq_true, decide_eq_true_eq, h1, h2, h3]
  omega

theorem isBlank_iff {c : Char} : isBlank c = true ↔
    c.toNat = 32 ∨ c.toNat = 9 ∨ c.toNat = 10 ∨ c.toNat = 13 ∨ c.toNat = 12 := by
  have h1 : c = ' ' ↔ c.toNat = 32 := Char.toNat_inj.symm
  have h2 : c = '\t' ↔ c.toNat = 9 := Char.toNat_inj.symm
  simp only [isBlank, Bool.or_eq_true, decide_eq_true_eq, isNewline_iff, h1, h2]
  omega

theorem isControl_iff {c : Char} : isControl c = true ↔
    c.toNat < 32 ∨ 127 ≤ c.toNat ∧ c.toNat < 160 := by
  simp [isControl]

theorem isNameChar_of_isHexDigit {c : Char} (h : isHexDigit c = true) : isNameChar c = true := by
  rw [isHexDigit_iff] at h
  rw [isNameChar_iff]
  omega

theorem isNewline_of_isControl {c : Char} (h : isControl c = false) : isNewline c = false := by
  rw [← Bool.not_eq_true, isControl_iff] at h
  rw [← Bool.not_eq_true, isNewline_iff]
  omega

theorem isNewline_of_isNameChar {c : Char} (h : isNameChar c = true) : isNewline c = false := by
  rw [isNameChar_iff] at h
  rw [← Bool.not_eq_true, isNewline_iff]
  omega

/-! ### Escapes -/

theorem hexValue?_digitChar {d : Nat} (h : d < 16) : hexValue? (Nat.digitChar d) = some d := by
  have hall : ∀ d : Fin 16, hexValue? (Nat.digitChar d.val) = some d.val := by decide
  exact hall ⟨d, h⟩

theorem hexNumber_append (ds : List Char) {d : Nat} (h : d < 16) :
    hexNumber (ds ++ [Nat.digitChar d]) = 16 * hexNumber ds + d := by
  rw [hexNumber]
  rw [List.foldl_append, List.foldl_cons, List.foldl_nil, hexValue?_digitChar h]
  rfl

theorem hexNumber_toDigits (n : Nat) : hexNumber (Nat.toDigits 16 n) = n := by
  induction n using Nat.strongRecOn with
  | ind n ih =>
    rw [Nat.toDigits_eq_if (by decide)]
    split
    · next h => exact (hexNumber_append [] h).trans (by simp [hexNumber])
    · next h =>
      have hlt : n % 16 < 16 := Nat.mod_lt _ (by decide)
      rw [hexNumber_append _ hlt, ih (n / 16) (by omega)]
      omega

theorem isHexDigit_toDigits (n : Nat) : ∀ c ∈ Nat.toDigits 16 n, isHexDigit c = true := by
  induction n using Nat.strongRecOn with
  | ind n ih =>
    rw [Nat.toDigits_eq_if (by decide)]
    split
    · next h =>
      intro c hc
      rw [List.mem_singleton.1 hc]
      rw [isHexDigit]
      rw [hexValue?_digitChar h]
      rfl
    · next h =>
      intro c hc
      rcases List.mem_append.1 hc with hc | hc
      · exact ih (n / 16) (by omega) c hc
      · rw [List.mem_singleton.1 hc]
        rw [isHexDigit]
        rw [hexValue?_digitChar (Nat.mod_lt _ (by decide))]
        rfl

/-- Characters of the class are taken up to one that is not, if there are few enough. -/
theorem takeUpTo_append {p : Char → Bool} {n : Nat} {ds rest : List Char}
    (hp : ∀ d ∈ ds, p d = true) (hn : ds.length ≤ n)
    (hr : ∀ c, rest.head? = some c → p c = false) : takeUpTo p n (ds ++ rest) = (ds, rest) := by
  induction ds generalizing n with
  | nil =>
    cases n with
    | zero => rfl
    | succ n =>
      cases rest with
      | nil => rfl
      | cons c rest =>
        rw [List.nil_append, takeUpTo, hr c rfl]
        rfl
  | cons d ds ih =>
    cases n with
    | zero => simp at hn
    | succ n =>
      rw [List.cons_append, takeUpTo, hp d (by simp)]
      simp only [if_true]
      rw [ih (fun e he => hp e (by simp [he])) (by simpa using hn)]

theorem charOfCode_toNat {c : Char} (h : c ≠ '\x00') : charOfCode c.toNat = c := by
  rw [charOfCode]
  have hne : c.toNat ≠ 0 := by
    intro h0
    apply h
    apply Char.ext
    apply UInt32.toNat_inj.1
    exact h0
  rw [if_pos ⟨hne, c.valid⟩]
  exact Char.ofNat_toNat c

/-- **An escape by the code of a character stands for that character.** -/
theorem takeEscape_hex {c : Char} (h : c ≠ '\x00') (rest : List Char) :
    takeEscape (Nat.toDigits 16 c.toNat ++ ' ' :: rest) = (c, rest) := by
  have hdigits := isHexDigit_toDigits c.toNat
  have hnumber := hexNumber_toDigits c.toNat
  have hlen : (Nat.toDigits 16 c.toNat).length ≤ 6 := by
    rw [Nat.length_toDigits_le_iff (by decide) (by decide)]
    have := c.valid
    rw [UInt32.isValidChar, Nat.isValidChar] at this
    rw [Char.toNat]
    omega
  cases hds : Nat.toDigits 16 c.toNat with
  | nil => exact absurd hds Nat.toDigits_ne_nil
  | cons d ds =>
    rw [hds] at hdigits hnumber hlen
    simp only [List.length_cons] at hlen
    rw [List.cons_append]
    rw [takeEscape]
    dsimp only
    have hblank : ∀ c, (' ' :: rest).head? = some c → isHexDigit c = false := by
      intro c hc
      cases hc
      rfl
    rw [if_pos (hdigits d (by simp)),
      takeUpTo_append (fun e he => hdigits e (by simp [he])) (by omega) hblank]
    dsimp only
    rw [hnumber, charOfCode_toNat h]
    rfl

/-! ### Names -/

def endsName : List Char → Bool
  | [] => true
  | c :: _ => !isNameChar c && c != '\\'

theorem takeName_of_endsName {cs : List Char} (h : endsName cs = true) :
    takeName cs = ([], cs) := by
  cases cs with
  | nil => rw [takeName]
  | cons c cs =>
    rw [endsName] at h
    simp only [Bool.and_eq_true, Bool.not_eq_true', bne_iff_ne] at h
    rw [takeName, h.1, if_neg (by simp), if_neg (by simp [h.2])]

theorem takeName_escape {cs : List Char} (h : escapes cs = true) :
    takeName ('\\' :: cs)
      = ((takeEscape cs).1 :: (takeName (takeEscape cs).2).1, (takeName (takeEscape cs).2).2) := by
  rw [takeName, if_neg (by decide), if_pos ⟨rfl, h⟩]

theorem escapes_hex (c : Char) (rest : List Char) :
    escapes (Nat.toDigits 16 c.toNat ++ ' ' :: rest) = true := by
  have hdigits := isHexDigit_toDigits c.toNat
  cases hds : Nat.toDigits 16 c.toNat with
  | nil => exact absurd hds Nat.toDigits_ne_nil
  | cons d ds =>
    rw [hds] at hdigits
    rw [List.cons_append, escapes,
      isNewline_of_isNameChar (isNameChar_of_isHexDigit (hdigits d (by simp)))]
    rfl

theorem hexEscape_append (c : Char) (rest : List Char) :
    Written.hexEscape c ++ rest = '\\' :: (Nat.toDigits 16 c.toNat ++ ' ' :: rest) := by
  simp [Written.hexEscape]

theorem takeName_hexEscape {c : Char} (h : c ≠ '\x00') (rest : List Char) :
    takeName (Written.hexEscape c ++ rest) = (c :: (takeName rest).1, (takeName rest).2) := by
  rw [hexEscape_append, takeName_escape (escapes_hex c rest), takeEscape_hex h]

/-- **A character of a written name is read back.** -/
theorem takeName_nameChar {c : Char} (h : c ≠ '\x00') (rest : List Char) :
    takeName (Written.nameChar c ++ rest) = (c :: (takeName rest).1, (takeName rest).2) := by
  rw [Written.nameChar]
  split
  · next hc =>
    rw [List.singleton_append, takeName, if_pos hc]
  · next hc =>
    split
    · exact takeName_hexEscape h rest
    · next hcontrol =>
      rw [Bool.not_eq_true] at hcontrol
      have hesc : escapes (c :: rest) = true := by
        rw [escapes, isNewline_of_isControl hcontrol]
        rfl
      have hhex : isHexDigit c ≠ true := fun hx => hc (isNameChar_of_isHexDigit hx)
      show takeName ('\\' :: c :: rest) = _
      rw [takeName_escape hesc, takeEscape, if_neg hhex]

theorem takeName_nameStart {c : Char} (h : c ≠ '\x00') (rest : List Char) :
    takeName (Written.nameStart c ++ rest) = (c :: (takeName rest).1, (takeName rest).2) := by
  rw [Written.nameStart]
  split
  · exact takeName_hexEscape h rest
  · exact takeName_nameChar h rest

theorem takeName_name_append {cs : List Char} (h : '\x00' ∉ cs) (rest : List Char) :
    takeName (Written.name cs ++ rest) = (cs ++ (takeName rest).1, (takeName rest).2) := by
  induction cs with
  | nil => rfl
  | cons c cs ih =>
    rw [List.mem_cons, not_or] at h
    have heq : Written.name (c :: cs) ++ rest
        = Written.nameChar c ++ (Written.name cs ++ rest) := by
      simp [Written.name]
    rw [heq, takeName_nameChar (Ne.symm h.1), ih h.2]
    rfl

/-- **A name behind a number sign is read back.** -/
theorem takeName_name {cs rest : List Char} (h : '\x00' ∉ cs) (hr : endsName rest = true) :
    takeName (Written.name cs ++ rest) = (cs, rest) := by
  rw [takeName_name_append h, takeName_of_endsName hr, List.append_nil]

theorem takeName_hyphen (rest : List Char) :
    takeName ('-' :: rest) = ('-' :: (takeName rest).1, (takeName rest).2) := by
  rw [takeName, if_pos (by decide)]

/-- **A name that stands alone is read back.** -/
theorem takeName_ident {cs rest : List Char} (h : '\x00' ∉ cs) (hr : endsName rest = true) :
    takeName (Written.ident cs ++ rest) = (cs, rest) := by
  unfold Written.ident
  split
  · show takeName ('\\' :: '-' :: rest) = _
    have hhex : isHexDigit '-' ≠ true := by decide
    rw [takeName_escape rfl, takeEscape, if_neg hhex, takeName_of_endsName hr]
  · next c cs =>
    simp only [List.mem_cons, not_or] at h
    rw [List.cons_append, List.append_assoc, takeName_hyphen, takeName_nameStart (Ne.symm h.2.1),
      takeName_name h.2.2 hr]
  · next c cs _ _ =>
    rw [List.mem_cons, not_or] at h
    rw [List.append_assoc, takeName_nameStart (Ne.symm h.1), takeName_name h.2 hr]
  · exact takeName_of_endsName hr

/-- **A unit is read back.** -/
theorem takeName_unit {cs rest : List Char} (h : '\x00' ∉ cs) (hr : endsName rest = true) :
    takeName (Written.unit cs ++ rest) = (cs, rest) := by
  unfold Written.unit
  split
  · next c cs =>
    split
    · rw [List.mem_cons, not_or] at h
      rw [List.append_assoc, takeName_hexEscape (Ne.symm h.1), takeName_name h.2 hr]
    · exact takeName_ident h hr
  · exact takeName_of_endsName hr

/-! ### How written names begin -/

theorem nameChar_cases (c : Char) : Written.nameChar c = [c] ∧ isNameChar c = true ∨
    ∃ ds, Written.nameChar c = '\\' :: ds ∧ ∀ rest, escapes (ds ++ rest) = true := by
  rw [Written.nameChar]
  split
  · next hc => exact .inl ⟨rfl, hc⟩
  · split
    · refine .inr ⟨_, rfl, fun rest => ?_⟩
      rw [List.append_assoc]
      exact escapes_hex c rest
    · next hcontrol =>
      rw [Bool.not_eq_true] at hcontrol
      refine .inr ⟨[c], rfl, fun rest => ?_⟩
      rw [List.singleton_append, escapes, isNewline_of_isControl hcontrol]
      rfl

/-- Where a digit may not stand, a character that is written as it is is no digit. -/
theorem nameStart_cases (c : Char) :
    Written.nameStart c = [c] ∧ isNameChar c = true ∧ c.isDigit = false ∨
      ∃ ds, Written.nameStart c = '\\' :: ds ∧ ∀ rest, escapes (ds ++ rest) = true := by
  rw [Written.nameStart]
  split
  · refine .inr ⟨_, rfl, fun rest => ?_⟩
    rw [List.append_assoc]
    exact escapes_hex c rest
  · next hd =>
    rw [Bool.not_eq_true] at hd
    rcases nameChar_cases c with ⟨h1, h2⟩ | h
    · exact .inl ⟨h1, h2, hd⟩
    · exact .inr h

theorem isNameStart_of_isNameChar {c : Char} (h : isNameChar c = true) (hd : c.isDigit = false)
    (hc : c ≠ '-') : isNameStart c = true := by
  have h45 : c.toNat ≠ 45 := fun h => hc (Char.toNat_inj.1 h)
  rw [← Bool.not_eq_true, isDigit_iff] at hd
  rw [isNameChar_iff] at h
  rw [isNameStart_iff]
  omega

theorem startsName_backslash {cs : List Char} (h : escapes cs = true) :
    startsName ('\\' :: cs) = true := by
  rw [startsName]
  exact h

theorem startsName_of_isNameStart {c : Char} (h : isNameStart c = true) (cs : List Char) :
    startsName (c :: cs) = true := by
  unfold startsName
  split
  · next heq =>
    cases heq
    exact absurd h (by decide)
  · next heq =>
    cases heq
    exact absurd h (by decide)
  · next heq =>
    cases heq
    exact absurd h (by decide)
  · next heq =>
    cases heq
    exact h
  · next heq => cases heq

/-- A name starts with a character that is written where a digit may not stand. -/
theorem startsName_nameStart {c : Char} (hc : c ≠ '-') (rest : List Char) :
    startsName (Written.nameStart c ++ rest) = true := by
  rcases nameStart_cases c with ⟨heq, hd, hdigit⟩ | ⟨ds, heq, hesc⟩
  · rw [heq]
    exact startsName_of_isNameStart (isNameStart_of_isNameChar hd hdigit hc) _
  · rw [heq]
    exact startsName_backslash (hesc rest)

theorem startsName_hyphen (c : Char) (rest : List Char) :
    startsName ('-' :: (Written.nameStart c ++ rest)) = true := by
  rcases nameStart_cases c with ⟨heq, hd, hdigit⟩ | ⟨ds, heq, hesc⟩
  · rw [heq, List.singleton_append]
    by_cases hc : c = '-'
    · subst hc
      rfl
    · have hstart := isNameStart_of_isNameChar hd hdigit hc
      unfold startsName
      split
      · next heq =>
        cases heq
        exact absurd hstart (by decide)
      · next heq =>
        cases heq
        rw [hstart]
        rfl
      · next heq => cases heq
      · next h2 _ heq =>
        cases heq
        exact absurd rfl (h2 c _ rfl)
      · next heq => cases heq
  · rw [heq, List.cons_append, startsName]
    exact hesc rest

/-- **A name that stands alone starts a name.** -/
theorem startsName_ident {cs : List Char} (h : cs ≠ []) (rest : List Char) :
    startsName (Written.ident cs ++ rest) = true := by
  unfold Written.ident
  split
  · exact startsName_backslash rfl
  · rw [List.cons_append, List.append_assoc]
    exact startsName_hyphen _ _
  · next c cs h1 h2 =>
    have hc : c ≠ '-' := by
      rintro rfl
      cases cs with
      | nil => exact h1 rfl rfl
      | cons d ds => exact h2 d ds rfl rfl
    rw [List.append_assoc]
    exact startsName_nameStart hc _
  · exact absurd rfl h

/-! ### Strings -/

theorem dropNewline?_cons {c : Char} (h : isNewline c = false) (cs : List Char) :
    dropNewline? (c :: cs) = none := by
  have hc : c ≠ '\r' := by
    rintro rfl
    cases h
  unfold dropNewline?
  split
  · next heq =>
    cases heq
    exact absurd rfl hc
  · next heq =>
    cases heq
    rw [h]
    rfl
  · next heq => cases heq

/-- **A character of a written string is read back.** -/
theorem takeString_stringChar (c : Char) (rest : List Char) :
    takeString '\x22' (Written.stringChar c ++ rest)
      = ((takeString '\x22' rest).1.map (c :: ·), (takeString '\x22' rest).2) := by
  rw [Written.stringChar]
  split
  · next hc =>
    have hn : isNewline c = false := by rcases hc with rfl | rfl <;> rfl
    have hhex : isHexDigit c ≠ true := by rcases hc with rfl | rfl <;> decide
    show takeString '\x22' ('\\' :: c :: rest) = _
    rw [takeString_backslash (by decide) (dropNewline?_cons hn rest), takeEscape, if_neg hhex]
  · next hc =>
    rw [not_or] at hc
    split
    · next hn =>
      have hnull : c ≠ '\x00' := by
        rintro rfl
        cases hn
      have hdrop : dropNewline? (Nat.toDigits 16 c.toNat ++ ' ' :: rest) = none := by
        have hesc := escapes_hex c rest
        cases hds : Nat.toDigits 16 c.toNat ++ ' ' :: rest with
        | nil => simp at hds
        | cons d ds =>
          rw [hds, escapes, Bool.not_eq_true'] at hesc
          exact dropNewline?_cons hesc ds
      rw [hexEscape_append, takeString_backslash (by decide) hdrop, takeEscape_hex hnull]
    · next hn =>
      rw [List.singleton_append, takeString, if_neg hc.1, if_neg hn, if_neg hc.2]

/-- **A written string is read back**, whatever follows its closing quote. -/
theorem takeString_string (cs rest : List Char) :
    takeString '\x22' (cs.flatMap Written.stringChar ++ '\x22' :: rest) = (some cs, rest) := by
  induction cs with
  | nil =>
    rw [List.flatMap_nil, List.nil_append, takeString, if_pos rfl]
  | cons c cs ih =>
    rw [List.flatMap_cons, List.append_assoc, takeString_stringChar, ih]
    rfl

end Scan

end Css2
