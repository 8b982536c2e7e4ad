import Css2.Grammar.Basic
import Css2.Proofs.Token.Written

/-!
# Written lexemes read back

Each kind of lexeme that the printer writes is what `next?` finds at the front of the text, if
nothing stands behind it that would go on with it.  `TokensOf` joins the characters of a text to
its tokens and leaves out where they are, so that a production can be followed through the text
that it reads.
-/

namespace Css2

/-- A name that has a spelling: it is not empty, and the null character is not in it. -/
def IsName (name : String) : Prop :=
  name ≠ "" ∧ '\x00' ∉ name.toList

theorem IsName.toList_ne_nil {name : String} (h : IsName name) : name.toList ≠ [] :=
  fun hnil => h.1 (String.toList_eq_nil_iff.1 hnil)

namespace Scan

/-! ### Names -/

theorem startsUnsigned_of_ne {c : Char} (hd : c.isDigit = false) (hc : c ≠ '.') (cs : List Char) :
    startsUnsigned (c :: cs) = false := by
  unfold startsUnsigned
  split
  · next heq =>
    cases heq
    exact absurd rfl hc
  · exact hd

theorem isDigit_of_isNameStart {c : Char} (h : isNameStart c = true) : c.isDigit = false := by
  rw [isNameStart_iff] at h
  rw [← Bool.not_eq_true, isDigit_iff]
  omega

theorem startsNumber_of_startsName {cs : List Char} (h : startsName cs = true) :
    startsNumber cs = false := by
  unfold startsName at h
  split at h
  · rfl
  · next c cs _ =>
    have hc : c.isDigit = false ∧ c ≠ '.' := by
      rw [Bool.or_eq_true, decide_eq_true_eq] at h
      rcases h with h | rfl
      · refine ⟨isDigit_of_isNameStart h, ?_⟩
        rintro rfl
        cases h
      · decide
    exact startsUnsigned_of_ne hc.1 hc.2 cs
  · rfl
  · next c cs _ _ _ =>
    have hne : ∀ d : Char, isNameStart d = false → c ≠ d := by
      rintro d hd rfl
      rw [h] at hd
      cases hd
    unfold startsNumber
    split
    · next heq =>
      cases heq
      exact absurd rfl (hne _ rfl)
    · next heq =>
      cases heq
      exact absurd rfl (hne _ rfl)
    · exact startsUnsigned_of_ne (isDigit_of_isNameStart h) (hne _ rfl) cs
  · cases h

theorem startsUnsigned_of_startsName {cs : List Char} (h : startsName cs = true) :
    startsUnsigned cs = false := by
  have hn := startsNumber_of_startsName h
  unfold startsNumber at hn
  split at hn
  · rfl
  · rfl
  · exact hn

theorem startsDigit_of_startsName {cs : List Char} (h : startsName cs = true) :
    startsDigit cs = false := by
  have hu := startsUnsigned_of_startsName h
  unfold startsUnsigned at hu
  split at hu
  · rfl
  · exact hu

/-- An identifier ends before these characters, which would not make it a Unicode range or the end
of a comment either. -/
def endsIdent (cs : List Char) : Bool :=
  endsName cs && cs.head? != some '+' && cs.head? != some '>'

theorem endsName_of_endsIdent {cs : List Char} (h : endsIdent cs = true) : endsName cs = true := by
  rw [endsIdent] at h
  simp only [Bool.and_eq_true] at h
  exact h.1.1

/-- The first character of a written name stands in a name or is a backslash; if the name is
empty, it is what follows. -/
theorem head?_name_append {cs rest : List Char} {d : Char}
    (h : (Written.name cs ++ rest).head? = some d) :
    isNameChar d = true ∨ d = '\\' ∨ rest.head? = some d := by
  cases cs with
  | nil => exact .inr (.inr h)
  | cons c cs =>
    have heq : Written.name (c :: cs) = Written.nameChar c ++ Written.name cs := by
      simp [Written.name]
    rw [heq] at h
    rcases nameChar_cases c with ⟨hw, hc⟩ | ⟨ds, hw, _⟩
    · rw [hw] at h
      cases h
      exact .inl hc
    · rw [hw] at h
      cases h
      exact .inr (.inl rfl)

/-- What follows the first character of an identifier goes on with a name, or is what follows
it. -/
theorem head?_name_ne {cs rest : List Char} (hr : endsIdent rest = true) :
    (Written.name cs ++ rest).head? ≠ some '+' ∧ (Written.name cs ++ rest).head? ≠ some '>' := by
  rw [endsIdent] at hr
  simp only [Bool.and_eq_true, bne_iff_ne] at hr
  constructor
  · intro h
    rcases head?_name_append h with h | h | h
    · exact absurd h (by decide)
    · exact absurd h (by decide)
    · exact hr.1.2 h
  · intro h
    rcases head?_name_append h with h | h | h
    · exact absurd h (by decide)
    · exact absurd h (by decide)
    · exact hr.2 h

theorem takeMark?_ident {cs rest : List Char} (h : cs ≠ []) (hr : endsIdent rest = true) :
    takeMark? (Written.ident cs ++ rest) = none := by
  have hplain : ∀ {c : Char} {ds : List Char}, isNameChar c = true → c ≠ '-' →
      takeMark? (c :: ds) = none := by
    intro c ds hc hne
    unfold takeMark?
    split
    · next heq =>
      cases heq
      exact absurd rfl hne
    · next heq => cases heq; exact absurd hc (by decide)
    · next heq => cases heq; exact absurd hc (by decide)
    · next heq => cases heq; exact absurd hc (by decide)
    · rfl
  unfold Written.ident
  split
  · rfl
  · next c cs =>
    rw [List.cons_append, List.append_assoc]
    rcases nameStart_cases c with ⟨hw, _, _⟩ | ⟨ds, hw, _⟩
    · rw [hw, List.singleton_append]
      have hgt := (@head?_name_ne cs _ hr).2
      unfold takeMark?
      split
      · next heq =>
        simp only [List.cons.injEq, true_and] at heq
        rw [heq.2] at hgt
        exact absurd rfl hgt
      · next heq => cases heq
      · next heq => cases heq
      · next heq => cases heq
      · rfl
    · rw [hw]
      rfl
  · next c cs h1 h2 =>
    rw [List.append_assoc]
    rcases nameStart_cases c with ⟨hw, hc, _⟩ | ⟨ds, hw, _⟩
    · rw [hw, List.singleton_append]
      refine hplain hc ?_
      rintro rfl
      cases cs with
      | nil => exact h1 rfl rfl
      | cons d ds => exact h2 d ds rfl rfl
    · rw [hw]
      rfl
  · exact absurd rfl h

theorem startsUnicodeRange_ident {cs rest ds : List Char} {c : Char}
    (h : cs ≠ []) (hr : endsIdent rest = true) (heq : Written.ident cs ++ rest = c :: ds)
    (hc : c = 'u' ∨ c = 'U') : startsUnicodeRange ds = false := by
  have hplus : ∀ {es : List Char}, es.head? ≠ some '+' → startsUnicodeRange es = false := by
    intro es hes
    unfold startsUnicodeRange
    split
    · exact absurd rfl hes
    · rfl
  have hback : c ≠ '\\' := by rcases hc with rfl | rfl <;> decide
  have hhyphen : c ≠ '-' := by rcases hc with rfl | rfl <;> decide
  unfold Written.ident at heq
  split at heq
  · cases heq
    exact absurd rfl hback
  · cases heq
    exact absurd rfl hhyphen
  · next d cs _ _ =>
    rw [List.append_assoc] at heq
    rcases nameStart_cases d with ⟨hw, _, _⟩ | ⟨es, hw, _⟩
    · rw [hw] at heq
      cases heq
      exact hplus (head?_name_ne hr).1
    · rw [hw] at heq
      cases heq
      exact absurd rfl hback
  · exact absurd rfl h

/-- A written identifier is not a comment, a number, a Unicode range or a mark. -/
theorem next?_ident_append {cs rest : List Char} (h : cs ≠ []) (hr : endsIdent rest = true) :
    next? (Written.ident cs ++ rest) = some (takeNamed (Written.ident cs ++ rest)) := by
  have hname := startsName_ident h rest
  have hmark := takeMark?_ident h hr
  cases heq : Written.ident cs ++ rest with
  | nil =>
    rw [heq] at hname
    cases hname
  | cons c ds =>
    rw [heq] at hname hmark
    have hslash : c ≠ '/' := by
      rintro rfl
      cases hname
    have hrange : ¬((c = 'u' ∨ c = 'U') ∧ startsUnicodeRange ds = true) := by
      rintro ⟨hc, hu⟩
      rw [startsUnicodeRange_ident h hr heq hc] at hu
      cases hu
    unfold next?
    split
    · next h => cases h
    · next h =>
      cases h
      exact absurd rfl hslash
    · next h =>
      cases h
      rw [startsNumber_of_startsName hname, if_neg (by decide), if_neg hrange, hmark]
      simp only [hname, if_true]

/-- **An identifier is read back.** -/
theorem next?_ident {name : String} {rest : List Char} (h : IsName name)
    (hr : endsIdent rest = true) (hparen : rest.head? ≠ some '(') :
    next? (Written.ident name.toList ++ rest) = some (.ident name, rest) := by
  rw [next?_ident_append h.toList_ne_nil hr]
  rw [takeNamed]
  rw [takeName_ident h.2 (endsName_of_endsIdent hr)]
  dsimp only
  rw [String.ofList_toList]
  split
  · exact absurd rfl hparen
  · rfl

/-- **The name of a function is read back** with its opening parenthesis. -/
theorem next?_function {name : String} {rest : List Char} (h : IsName name)
    (hurl : sameName name "url" = true → startsQuoted rest = true) :
    next? (Written.ident name.toList ++ '(' :: rest) = some (.function name, rest) := by
  rw [next?_ident_append h.toList_ne_nil rfl]
  rw [takeNamed]
  rw [takeName_ident h.2 rfl]
  dsimp only
  rw [String.ofList_toList]
  have hquoted : ¬(sameName name "url" && !startsQuoted rest) = true := by
    rw [Bool.and_eq_true, Bool.not_eq_true', not_and, Bool.not_eq_false]
    exact hurl
  split
  · next heq =>
    cases heq
    rw [if_neg hquoted]
  · next hne => exact absurd rfl (hne rest)

/-- **A name behind an at sign is read back.** -/
theorem next?_atKeyword {cs rest : List Char} (h : cs ≠ []) (hnull : '\x00' ∉ cs)
    (hr : endsName rest = true) :
    next? ('@' :: (Written.ident cs ++ rest)) = some (.atKeyword (String.ofList cs), rest) := by
  have hname := startsName_ident h rest
  show some (takeSpecial '@' (Written.ident cs ++ rest)) = _
  have hspecial : takeSpecial '@' (Written.ident cs ++ rest)
      = (.atKeyword (String.ofList (takeName (Written.ident cs ++ rest)).1),
          (takeName (Written.ident cs ++ rest)).2) := by
    rw [takeSpecial]
    rw [if_neg (by decide), if_neg (by decide), if_neg (by decide), if_neg (by decide),
      if_pos ⟨rfl, hname⟩]
  rw [hspecial, takeName_ident hnull hr]

/-- What begins with a name begins with a character that may stand in one, or with an escape. -/
theorem continuesName_of_startsName {cs : List Char} (h : startsName cs = true) :
    continuesName cs = true := by
  unfold startsName at h
  split at h
  · rfl
  · rfl
  · exact h
  · next c cs _ _ hc =>
    unfold continuesName
    split
    · next heq =>
      cases heq
      exact absurd h (by decide)
    · next heq =>
      cases heq
      rw [isNameChar]
      rw [h]
      rfl
    · next heq => cases heq
  · cases h

theorem next?_hash_of_continuesName {cs : List Char} (h : continuesName cs = true) :
    next? ('#' :: cs)
      = some (.hash (String.ofList (takeName cs).1) (startsName cs), (takeName cs).2) := by
  show some (takeHash cs) = _
  rw [takeHash]
  rw [if_pos h]

/-- **A name behind a number sign is read back.** -/
theorem next?_hash {name : String} {rest : List Char} (h : IsName name)
    (hr : endsName rest = true) :
    ∃ isIdent, next? ('#' :: (Written.name name.toList ++ rest))
      = some (.hash name isIdent, rest) := by
  have hcont : continuesName (Written.name name.toList ++ rest) = true := by
    cases hcs : name.toList with
    | nil => exact absurd hcs h.toList_ne_nil
    | cons c cs =>
      have heq : Written.name (c :: cs) ++ rest
          = Written.nameChar c ++ (Written.name cs ++ rest) := by
        simp [Written.name]
      rw [heq]
      rcases nameChar_cases c with ⟨hw, hc⟩ | ⟨ds, hw, hesc⟩
      · rw [hw, List.singleton_append]
        unfold continuesName
        split
        · next heq =>
          cases heq
          exact absurd hc (by decide)
        · next heq =>
          cases heq
          exact hc
        · next heq => cases heq
      · rw [hw]
        exact hesc _
  refine ⟨startsName (Written.name name.toList ++ rest), ?_⟩
  rw [next?_hash_of_continuesName hcont, takeName_name h.2 hr, String.ofList_toList]

/-- **An identifier behind a number sign is read back**, and known to be one. -/
theorem next?_idHash {name : String} {rest : List Char} (h : IsName name)
    (hr : endsName rest = true) :
    next? ('#' :: (Written.ident name.toList ++ rest)) = some (.hash name true, rest) := by
  have hname := startsName_ident h.toList_ne_nil rest
  rw [next?_hash_of_continuesName (continuesName_of_startsName hname), takeName_ident h.2 hr,
    String.ofList_toList, hname]

/-! ### Other lexemes -/

/-- **A string is read back.** -/
theorem next?_string (value : String) (rest : List Char) :
    next? (Written.string value.toList ++ rest) = some (.string value, rest) := by
  have heq : Written.string value.toList ++ rest
      = '\x22' :: (value.toList.flatMap Written.stringChar ++ '\x22' :: rest) := by
    simp [Written.string]
  rw [heq]
  show some (takeSpecial '\x22' _) = _
  rw [takeSpecial]
  rw [if_neg (by decide), if_pos (.inl rfl), takeString_string]
  dsimp only
  rw [String.ofList_toList]

theorem next?_blank {c : Char} (h : isBlank c = true) (cs : List Char) :
    next? (c :: cs) = some (.whitespace, cs.dropWhile isBlank) := by
  have hc : c = ' ' ∨ c = '\t' ∨ c = '\n' ∨ c = '\r' ∨ c = '\x0c' := by
    rw [isBlank_iff] at h
    rcases h with h | h | h | h | h
    · exact .inl (Char.toNat_inj.1 h)
    · exact .inr (.inl (Char.toNat_inj.1 h))
    · exact .inr (.inr (.inl (Char.toNat_inj.1 h)))
    · exact .inr (.inr (.inr (.inl (Char.toNat_inj.1 h))))
    · exact .inr (.inr (.inr (.inr (Char.toNat_inj.1 h))))
  rcases hc with rfl | rfl | rfl | rfl | rfl <;> rfl

theorem dropTrivia_cons {c : Char} (hb : isBlank c = false) (hc : c ≠ '/') (cs : List Char) :
    dropTrivia (c :: cs) = c :: cs := by
  rw [dropTrivia, hb]
  · rfl
  · rintro _ rfl _
    exact hc rfl

theorem dropWhile_isBlank_of_next? {cs rest : List Char} {l : Lexeme}
    (h : next? cs = some (l, rest)) (hl : l ≠ .whitespace) : cs.dropWhile isBlank = cs := by
  cases cs with
  | nil => rfl
  | cons c cs =>
    refine List.dropWhile_cons_of_neg ?_
    intro hc
    rw [next?_blank hc] at h
    cases h
    exact hl rfl

theorem next?_special {c : Char} {cs : List Char} (hn : startsNumber (c :: cs) = false)
    (hname : startsName (c :: cs) = false) (hmark : takeMark? (c :: cs) = none)
    (hrange : c ≠ 'u' ∧ c ≠ 'U') (hcomment : c ≠ '/' ∨ cs.head? ≠ some '*') :
    next? (c :: cs) = some (takeSpecial c cs) := by
  unfold next?
  split
  · next heq => cases heq
  · next heq =>
    cases heq
    rcases hcomment with h | h <;> exact absurd rfl h
  · next heq =>
    cases heq
    have hu : ¬((c = 'u' ∨ c = 'U') ∧ startsUnicodeRange cs = true) := by
      rintro ⟨hc | hc, _⟩
      · exact hrange.1 hc
      · exact hrange.2 hc
    rw [hn, if_neg (by decide), if_neg hu, hmark, hname]
    rfl

theorem next?_plus {cs : List Char} (h : startsUnsigned cs = false) :
    next? ('+' :: cs) = some (.delim '+', cs) :=
  next?_special h rfl rfl ⟨by decide, by decide⟩ (.inl (by decide))

theorem next?_point {cs : List Char} (h : startsDigit cs = false) :
    next? ('.' :: cs) = some (.delim '.', cs) :=
  next?_special h rfl rfl ⟨by decide, by decide⟩ (.inl (by decide))

theorem next?_slash {cs : List Char} (h : cs.head? ≠ some '*') :
    next? ('/' :: cs) = some (.delim '/', cs) :=
  next?_special rfl rfl rfl ⟨by decide, by decide⟩ (.inr h)

/-- **The mark of an important declaration is read back.** -/
theorem next?_important {rest : List Char} (hr : endsName rest = true) :
    next? ("!important".toList ++ rest) = some (.important, rest) := by
  have htake : takeName ("important".toList ++ rest) = ("important".toList, rest) :=
    @takeName_ident "important".toList _ (by decide) hr
  have hdrop : dropTrivia ("important".toList ++ rest) = "important".toList ++ rest :=
    dropTrivia_cons rfl (by decide) _
  have hsame : sameName (String.ofList "important".toList) "important" = true := by
    rw [String.ofList_toList]
    exact beq_self_eq_true _
  show some (takeImportant ("important".toList ++ rest)) = _
  rw [takeImportant]
  rw [hdrop, htake]
  dsimp only
  rw [hsame]
  rfl

/-! ### Unicode ranges -/

/-- What may stand behind `U+`: a few digits or question marks, or two numbers of a few digits. -/
def IsRange (range : List Char) : Prop :=
  (range ≠ [] ∧ range.length ≤ 6 ∧ ∀ c ∈ range, isRangeChar c = true) ∨
    ∃ first second, range = first ++ '-' :: second ∧
      (first ≠ [] ∧ first.length ≤ 6 ∧ ∀ c ∈ first, isHexDigit c = true) ∧
      (second ≠ [] ∧ second.length ≤ 6 ∧ ∀ c ∈ second, isHexDigit c = true)

def endsRange : List Char → Bool
  | [] => true
  | c :: _ => !isRangeChar c && c != '-'

theorem isRangeChar_of_isHexDigit {c : Char} (h : isHexDigit c = true) : isRangeChar c = true := by
  rw [isRangeChar]
  rw [h]
  rfl

theorem isRangeChar_head {rest : List Char} (hr : endsRange rest = true) (c : Char)
    (hc : rest.head? = some c) : isRangeChar c = false := by
  cases rest with
  | nil => cases hc
  | cons d ds =>
    cases hc
    rw [endsRange] at hr
    simp only [Bool.and_eq_true, Bool.not_eq_true'] at hr
    exact hr.1

theorem takeUnicodeRange_range {range rest : List Char} (h : IsRange range)
    (hr : endsRange rest = true) : takeUnicodeRange (range ++ rest) = (range, rest) := by
  have hend := isRangeChar_head hr
  rcases h with ⟨_, hlen, hall⟩ | ⟨first, second, rfl, ⟨_, hlen1, hall1⟩, hne, hlen2, hall2⟩
  · rw [takeUnicodeRange]
    rw [takeUpTo_append hall hlen hend]
    dsimp only
    split
    · next c rest' => exact absurd hr (by simp [endsRange])
    · rfl
  · have hend2 : ∀ c, rest.head? = some c → isHexDigit c = false := by
      intro c hc
      have hrange := hend c hc
      rw [isRangeChar] at hrange
      rw [Bool.or_eq_false_iff] at hrange
      exact hrange.1
    have hmark : first.contains '?' = false := by
      rw [← Bool.not_eq_true, List.contains_iff_mem]
      intro hmem
      exact absurd (hall1 _ hmem) (by decide)
    cases second with
    | nil => exact absurd rfl hne
    | cons c cs =>
      have hfirst : takeUpTo isRangeChar 6 (first ++ ('-' :: c :: cs ++ rest))
          = (first, '-' :: c :: cs ++ rest) := by
        refine takeUpTo_append (fun d hd => isRangeChar_of_isHexDigit (hall1 d hd)) hlen1 ?_
        intro d hd
        cases hd
        decide
      have hsecond := takeUpTo_append hall2 hlen2 hend2
      rw [List.cons_append] at hsecond
      rw [takeUnicodeRange]
      rw [List.append_assoc, hfirst]
      simp only [List.cons_append, hall2 c (by simp), hmark, Bool.not_false, Bool.and_self, if_true,
        hsecond]

theorem IsRange.head {range : List Char} (h : IsRange range) (rest : List Char) :
    startsUnicodeRange ('+' :: (range ++ rest)) = true := by
  rcases h with ⟨hne, _, hall⟩ | ⟨first, second, rfl, ⟨hne, _, hall⟩, _⟩
  · cases range with
    | nil => exact absurd rfl hne
    | cons c cs => exact hall c (by simp)
  · cases first with
    | nil => exact absurd rfl hne
    | cons c cs => exact isRangeChar_of_isHexDigit (hall c (by simp))

/-- **A Unicode range is read back.** -/
theorem next?_unicodeRange {range : String} {rest : List Char} (h : IsRange range.toList)
    (hr : endsRange rest = true) :
    next? ('U' :: '+' :: (range.toList ++ rest)) = some (.unicodeRange range, rest) := by
  have htake := takeUnicodeRange_range h hr
  have hstart := h.head rest
  have hcond : ('U' = 'u' ∨ 'U' = 'U') ∧
      startsUnicodeRange ('+' :: (range.toList ++ rest)) = true := ⟨.inr rfl, hstart⟩
  show (if ('U' = 'u' ∨ 'U' = 'U') ∧ startsUnicodeRange ('+' :: (range.toList ++ rest)) = true
    then some (Lexeme.unicodeRange
      (String.ofList (takeUnicodeRange (range.toList ++ rest)).1),
        (takeUnicodeRange (range.toList ++ rest)).2) else _) = _
  rw [if_pos hcond, htake, String.ofList_toList]

/-! ### Numbers -/

theorem next?_of_startsNumber {cs : List Char} (h : startsNumber cs = true) :
    next? cs = some (takeNumeric cs) := by
  unfold next?
  split
  · cases h
  · cases h
  · rw [if_pos h]

/-- A unit starts a name, even one that begins with `e`. -/
theorem startsName_unit {cs : List Char} (h : cs ≠ []) (rest : List Char) :
    startsName (Written.unit cs ++ rest) = true := by
  unfold Written.unit
  split
  · next c cs =>
    split
    · rw [List.append_assoc, hexEscape_append]
      exact startsName_backslash (escapes_hex c _)
    · exact startsName_ident (List.cons_ne_nil c cs) rest
  · exact absurd rfl h

end Scan

/-! ### Tokens -/

/-- The tokens are those of the characters, wherever these stand. -/
def TokensOf (cs : List Char) (ts : List Token) : Prop :=
  ∃ loc, scanFrom loc cs = ts

theorem tokensOf_scan (text : String) : TokensOf text.toList (scan text) :=
  ⟨Location.start, rfl⟩

namespace TokensOf

variable {cs rest : List Char} {ts us : List Token} {t : Token} {l : Lexeme}

theorem exists_tokens (cs : List Char) : ∃ ts, TokensOf cs ts :=
  ⟨_, Location.start, rfl⟩

theorem eq_nil (h : TokensOf [] ts) : ts = [] := by
  obtain ⟨loc, rfl⟩ := h
  rw [scanFrom]
  rfl

/-- **The first token** is the lexeme at the front of the text. -/
theorem next (h : TokensOf cs ts) (hn : Scan.next? cs = some (l, rest)) :
    ∃ loc us, ts = ⟨l, loc⟩ :: us ∧ TokensOf rest us := by
  obtain ⟨loc, rfl⟩ := h
  rw [scanFrom]
  split
  · next hnone =>
    rw [hn] at hnone
    cases hnone
  · next l' rest' hsome =>
    rw [hn] at hsome
    cases hsome
    exact ⟨loc, _, rfl, _, rfl⟩

theorem of_cons (h : TokensOf cs (t :: ts)) :
    ∃ rest, Scan.next? cs = some (t.lexeme, rest) ∧ TokensOf rest ts := by
  obtain ⟨loc, h⟩ := h
  rw [scanFrom] at h
  split at h
  · cases h
  · next l rest hsome =>
    cases h
    exact ⟨rest, hsome, _, rfl⟩

theorem blank {c : Char} (h : TokensOf (c :: cs) ts) (hc : isBlank c = true)
    (hcs : cs.dropWhile isBlank = cs) :
    ∃ loc us, ts = ⟨.whitespace, loc⟩ :: us ∧ TokensOf cs us := by
  obtain ⟨loc, us, rfl, hus⟩ := h.next (Scan.next?_blank hc cs)
  rw [hcs] at hus
  exact ⟨loc, us, rfl, hus⟩

theorem openBrace (h : TokensOf (' ' :: '\x7b' :: cs) ts) :
    ∃ loc loc' us, ts = ⟨.whitespace, loc⟩ :: ⟨.mark .openBrace, loc'⟩ :: us ∧ TokensOf cs us := by
  obtain ⟨loc, us, rfl, hus⟩ := h.blank rfl rfl
  obtain ⟨loc', vs, rfl, hvs⟩ := hus.next (l := .mark .openBrace) rfl
  exact ⟨loc, loc', vs, rfl, hvs⟩

theorem skipTrivia_dropWhile (h : TokensOf cs ts) :
    ∃ us, Grammar.skipTrivia ts = Grammar.skipTrivia us ∧ TokensOf (cs.dropWhile isBlank) us := by
  cases cs with
  | nil => exact ⟨ts, rfl, h⟩
  | cons c cs =>
    by_cases hc : isBlank c = true
    · obtain ⟨loc, us, rfl, hus⟩ := h.next (Scan.next?_blank hc cs)
      rw [List.dropWhile_cons_of_pos hc]
      exact ⟨us, rfl, hus⟩
    · rw [List.dropWhile_cons_of_neg hc]
      exact ⟨ts, rfl, h⟩

theorem dropWhile_isBlank
    (h : ∀ ts, TokensOf cs ts → ∃ t us, ts = t :: us ∧ t.lexeme ≠ .whitespace) :
    cs.dropWhile isBlank = cs := by
  obtain ⟨ts, hts⟩ := exists_tokens cs
  obtain ⟨t, us, rfl, ht⟩ := h ts hts
  obtain ⟨rest, hn, _⟩ := hts.of_cons
  exact Scan.dropWhile_isBlank_of_next? hn ht

end TokensOf

end Css2
