import Css2.Token.Basic

/-! # Scanning

A text is cut into tokens from left to right.  Each function here takes the characters still to be
read and gives back what it made of some of them, together with the rest.  Escapes and numbers are
resolved on the way.  `scan` repeats `next?`, whose rest is always shorter (`next?_lt`), so every
character belongs to exactly one token.
-/

namespace Css2

namespace Scan

/-! ### Looking ahead -/

/-- Whether a backslash before these characters begins an escape.  At the end of the text it
does. -/
def escapes : List Char → Bool
  | [] => true
  | c :: _ => !isNewline c

def startsName : List Char → Bool
  | '-' :: '\\' :: cs => escapes cs
  | '-' :: c :: _ => isNameStart c || c = '-'
  | '\\' :: cs => escapes cs
  | c :: _ => isNameStart c
  | [] => false

def startsDigit : List Char → Bool
  | c :: _ => c.isDigit
  | [] => false

/-- Whether the characters begin with digits, or with a point and digits. -/
def startsUnsigned : List Char → Bool
  | '.' :: cs => startsDigit cs
  | cs => startsDigit cs

/-- Whether the characters begin with a number, which may have a sign. -/
def startsNumber : List Char → Bool
  | '+' :: cs => startsUnsigned cs
  | '-' :: cs => startsUnsigned cs
  | cs => startsUnsigned cs

/-! ### Escapes and names -/

/-- Takes at most `n` characters of the class `p`. -/
def takeUpTo (p : Char → Bool) : Nat → List Char → List Char × List Char
  | n + 1, c :: cs =>
    if p c then
      let r := takeUpTo p n cs
      (c :: r.1, r.2)
    else ([], c :: cs)
  | _, cs => ([], cs)

/-- Takes the one blank that may end an escape; the pair that ends a line counts as one. -/
def dropBlank : List Char → List Char
  | '\r' :: '\n' :: cs => cs
  | c :: cs => if isBlank c then cs else c :: cs
  | [] => []

def hexNumber (digits : List Char) : Nat :=
  digits.foldl (fun n c => 16 * n + (hexValue? c).getD 0) 0

/-- What stands for a character that cannot be written. -/
def replacement : Char := '\ufffd'

/-- The character with the given code, unless there is none or it is the null character. -/
def charOfCode (n : Nat) : Char :=
  if n ≠ 0 ∧ n.isValidChar then Char.ofNat n else replacement

/-- The character that an escape stands for, the backslash being read already: up to six
hexadecimal digits with a blank behind them, or any one character. -/
def takeEscape : List Char → Char × List Char
  | [] => (replacement, [])
  | c :: cs =>
    if isHexDigit c then
      let digits := takeUpTo isHexDigit 5 cs
      (charOfCode (hexNumber (c :: digits.1)), dropBlank digits.2)
    else (c, cs)

theorem takeUpTo_le (p : Char → Bool) :
    ∀ (n : Nat) (cs : List Char), (takeUpTo p n cs).2.length ≤ cs.length := by
  intro n
  induction n with
  | zero => intro cs; simp [takeUpTo]
  | succ n ih =>
    intro cs
    cases cs with
    | nil => simp [takeUpTo]
    | cons c cs =>
      unfold takeUpTo
      split
      · exact Nat.le_succ_of_le (ih cs)
      · exact Nat.le_refl _

theorem dropBlank_le (cs : List Char) : (dropBlank cs).length ≤ cs.length := by
  unfold dropBlank
  split
  · simp only [List.length_cons]; omega
  · split
    · exact Nat.le_succ _
    · exact Nat.le_refl _
  · exact Nat.le_refl _

theorem takeEscape_le (cs : List Char) : (takeEscape cs).2.length ≤ cs.length := by
  unfold takeEscape
  split
  · exact Nat.le_refl _
  · split
    · exact Nat.le_succ_of_le (Nat.le_trans (dropBlank_le _) (takeUpTo_le _ _ _))
    · exact Nat.le_succ _

def takeName : List Char → List Char × List Char
  | [] => ([], [])
  | c :: cs =>
    if isNameChar c then
      let r := takeName cs
      (c :: r.1, r.2)
    else if c = '\\' ∧ escapes cs then
      let r := takeName (takeEscape cs).2
      ((takeEscape cs).1 :: r.1, r.2)
    else ([], c :: cs)
termination_by cs => cs.length
decreasing_by
  · simp only [List.length_cons]; omega
  · have := takeEscape_le cs
    simp only [List.length_cons]; omega

theorem takeName_le (cs : List Char) : (takeName cs).2.length ≤ cs.length := by
  fun_induction takeName cs with
  | case1 => exact Nat.le_refl _
  | case2 c cs _ r ih => exact Nat.le_succ_of_le ih
  | case3 c cs _ _ r ih =>
    exact Nat.le_succ_of_le (Nat.le_trans ih (takeEscape_le cs))
  | case4 => exact Nat.le_refl _

/-! ### Comments, strings and addresses -/

/-- The text of a comment, its opening being read already, and what follows its end. -/
def takeComment : List Char → List Char × List Char
  | '*' :: '/' :: cs => ([], cs)
  | c :: cs =>
    let r := takeComment cs
    (c :: r.1, r.2)
  | [] => ([], [])

theorem takeComment_le (cs : List Char) : (takeComment cs).2.length ≤ cs.length := by
  fun_induction takeComment cs with
  | case1 cs => simp only [List.length_cons]; omega
  | case2 c cs _ r ih => exact Nat.le_succ_of_le ih
  | case3 => exact Nat.le_refl _

/-- Takes the line break that a backslash in a string hides. -/
def dropNewline? : List Char → Option (List Char)
  | '\r' :: '\n' :: cs => some cs
  | c :: cs => if isNewline c then some cs else none
  | [] => some []

theorem dropNewline?_le {cs rest : List Char} (h : dropNewline? cs = some rest) :
    rest.length ≤ cs.length := by
  unfold dropNewline? at h
  split at h
  · cases h; simp only [List.length_cons]; omega
  · split at h
    · cases h; exact Nat.le_succ _
    · cases h
  · cases h; exact Nat.le_refl _

/-- The value of a string up to its closing quote, the opening one being read already; nothing if
a line break cuts it short, and then the break is not read.  The end of the text ends it too. -/
def takeString (quote : Char) : List Char → Option (List Char) × List Char
  | [] => (some [], [])
  | c :: cs =>
    if c = quote then (some [], cs)
    else if isNewline c then (none, c :: cs)
    else if c = '\\' then
      match _h : dropNewline? cs with
      | some rest => takeString quote rest
      | none =>
        let r := takeString quote (takeEscape cs).2
        (r.1.map ((takeEscape cs).1 :: ·), r.2)
    else
      let r := takeString quote cs
      (r.1.map (c :: ·), r.2)
termination_by cs => cs.length
decreasing_by
  · have := dropNewline?_le _h
    simp only [List.length_cons]; omega
  · have := takeEscape_le cs
    simp only [List.length_cons]; omega
  · simp only [List.length_cons]; omega

theorem takeString_le (quote : Char) (cs : List Char) :
    (takeString quote cs).2.length ≤ cs.length := by
  fun_induction takeString quote cs with
  | case1 => exact Nat.le_refl _
  | case2 => exact Nat.le_succ _
  | case3 => exact Nat.le_refl _
  | case4 cs rest h _ _ ih =>
    exact Nat.le_succ_of_le (Nat.le_trans ih (dropNewline?_le h))
  | case5 cs _ _ h r ih =>
    exact Nat.le_succ_of_le (Nat.le_trans ih (takeEscape_le cs))
  | case6 c cs _ _ _ r ih => exact Nat.le_succ_of_le ih

/-- A line break that a backslash hides is no part of a string. -/
theorem takeString_hidden {quote : Char} {cs rest : List Char} (hq : '\\' ≠ quote)
    (h : dropNewline? cs = some rest) :
    takeString quote ('\\' :: cs) = takeString quote rest := by
  rw [takeString, if_neg hq, if_neg (by decide), if_pos rfl]
  split
  · next heq =>
    rw [h] at heq
    cases heq
    rfl
  · next heq =>
    rw [h] at heq
    cases heq

/-- A backslash in a string that does not hide a line break begins an escape. -/
theorem takeString_backslash {quote : Char} {cs : List Char} (hq : '\\' ≠ quote)
    (h : dropNewline? cs = none) :
    takeString quote ('\\' :: cs)
      = ((takeString quote (takeEscape cs).2).1.map ((takeEscape cs).1 :: ·),
          (takeString quote (takeEscape cs).2).2) := by
  rw [takeString, if_neg hq, if_neg (by decide), if_pos rfl]
  split
  · next heq =>
    rw [h] at heq
    cases heq
  · rfl

/-- What follows a malformed address: everything behind its closing parenthesis. -/
def dropBadUrl : List Char → List Char
  | [] => []
  | c :: cs =>
    if c = ')' then cs
    else if c = '\\' ∧ escapes cs then dropBadUrl (takeEscape cs).2
    else dropBadUrl cs
termination_by cs => cs.length
decreasing_by
  · have := takeEscape_le cs
    simp only [List.length_cons]; omega
  · simp only [List.length_cons]; omega

theorem dropBadUrl_le (cs : List Char) : (dropBadUrl cs).length ≤ cs.length := by
  fun_induction dropBadUrl cs with
  | case1 => exact Nat.le_refl _
  | case2 => exact Nat.le_succ _
  | case3 c cs _ _ ih => exact Nat.le_succ_of_le (Nat.le_trans ih (takeEscape_le cs))
  | case4 c cs _ _ ih => exact Nat.le_succ_of_le ih

/-- An unquoted address, its opening parenthesis and the blanks behind that being read already;
nothing if it is malformed. -/
def takeUrl : List Char → Option (List Char) × List Char
  | [] => (some [], [])
  | c :: cs =>
    if c = ')' then (some [], cs)
    else if isBlank c then
      match cs.dropWhile isBlank with
      | [] => (some [], [])
      | d :: ds => if d = ')' then (some [], ds) else (none, dropBadUrl (d :: ds))
    else if c = '\x22' ∨ c = '\x27' ∨ c = '(' then (none, dropBadUrl cs)
    else if c = '\\' then
      if escapes cs then
        let r := takeUrl (takeEscape cs).2
        (r.1.map ((takeEscape cs).1 :: ·), r.2)
      else (none, dropBadUrl cs)
    else
      let r := takeUrl cs
      (r.1.map (c :: ·), r.2)
termination_by cs => cs.length
decreasing_by
  · have := takeEscape_le cs
    simp only [List.length_cons]; omega
  · simp only [List.length_cons]; omega

theorem dropWhile_le (p : Char → Bool) (cs : List Char) :
    (cs.dropWhile p).length ≤ cs.length :=
  (List.dropWhile_sublist p).length_le

theorem takeUrl_le (cs : List Char) : (takeUrl cs).2.length ≤ cs.length := by
  fun_induction takeUrl cs with
  | case1 => exact Nat.le_refl _
  | case2 => exact Nat.le_succ _
  | case3 => exact Nat.zero_le _
  | case4 c cs _ _ ds h =>
    have := dropWhile_le isBlank cs
    rw [h] at this
    simp only [List.length_cons] at this ⊢; omega
  | case5 c cs _ _ d ds h _ =>
    have := dropWhile_le isBlank cs
    rw [h] at this
    exact Nat.le_succ_of_le (Nat.le_trans (dropBadUrl_le _) this)
  | case6 c cs => exact Nat.le_succ_of_le (dropBadUrl_le cs)
  | case7 cs _ _ _ _ r ih =>
    exact Nat.le_succ_of_le (Nat.le_trans ih (takeEscape_le cs))
  | case8 cs => exact Nat.le_succ_of_le (dropBadUrl_le cs)
  | case9 c cs _ _ _ _ r ih => exact Nat.le_succ_of_le ih

/-! ### Numbers -/

def takeFraction : List Char → List Char × List Char
  | '.' :: cs =>
    if startsDigit cs then (cs.takeWhile Char.isDigit, cs.dropWhile Char.isDigit)
    else ([], '.' :: cs)
  | cs => ([], cs)

def takeExponent : List Char → Option Int × List Char
  | [] => (none, [])
  | c :: cs =>
    let r := takeSign cs
    if (c = 'e' ∨ c = 'E') ∧ startsDigit r.2 then
      let n : Int := Decimal.natOfDigits (r.2.takeWhile Char.isDigit)
      (some (if r.1 then -n else n), r.2.dropWhile Char.isDigit)
    else (none, c :: cs)

/-- Takes a number: a sign, digits, digits behind a point, and an exponent, each but the digits
being optional. -/
def takeNumber (cs : List Char) : (Decimal × NumberForm) × List Char :=
  let signed := takeSign cs
  let whole := signed.2.takeWhile Char.isDigit
  let fraction := takeFraction (signed.2.dropWhile Char.isDigit)
  let exponent := takeExponent fraction.2
  let form := if fraction.1.isEmpty && exponent.1.isNone then NumberForm.integer else .real
  ((Decimal.ofParts signed.1 whole fraction.1 (exponent.1.getD 0), form), exponent.2)

theorem takeSign_le (cs : List Char) : (takeSign cs).2.length ≤ cs.length := by
  unfold takeSign
  split
  · exact Nat.le_succ _
  · exact Nat.le_succ _
  · exact Nat.le_refl _

theorem takeFraction_le (cs : List Char) : (takeFraction cs).2.length ≤ cs.length := by
  unfold takeFraction
  split
  · split
    · exact Nat.le_succ_of_le (dropWhile_le _ _)
    · exact Nat.le_refl _
  · exact Nat.le_refl _

theorem takeExponent_le (cs : List Char) : (takeExponent cs).2.length ≤ cs.length := by
  unfold takeExponent
  split
  · exact Nat.le_refl _
  · dsimp only
    split
    · exact Nat.le_succ_of_le (Nat.le_trans (dropWhile_le _ _) (takeSign_le _))
    · exact Nat.le_refl _

/-- Digits at the front are taken. -/
theorem dropWhile_lt {p : Char → Bool} {c : Char} {cs : List Char} (h : p c = true) :
    ((c :: cs).dropWhile p).length < (c :: cs).length := by
  rw [List.dropWhile_cons_of_pos h]
  exact Nat.lt_succ_of_le (dropWhile_le p cs)

/-- What is left of an unsigned number once its whole part and its fraction are taken. -/
theorem takeFraction_dropWhile_lt {cs : List Char} (h : startsUnsigned cs = true) :
    (takeFraction (cs.dropWhile Char.isDigit)).2.length < cs.length := by
  match cs, h with
  | [], h => simp [startsUnsigned, startsDigit] at h
  | c :: cs, h =>
    by_cases hd : c.isDigit = true
    · exact Nat.lt_of_le_of_lt (takeFraction_le _) (dropWhile_lt hd)
    · have hc : c = '.' := by
        by_cases hc : c = '.'
        · exact hc
        · simp [startsUnsigned, startsDigit, hc, hd] at h
      subst hc
      rw [List.dropWhile_cons_of_neg hd]
      simp only [startsUnsigned] at h
      simp only [takeFraction, h, if_true, List.length_cons]
      exact Nat.lt_succ_of_le (dropWhile_le _ _)

theorem takeNumber_lt {cs : List Char} (h : startsNumber cs = true) :
    (takeNumber cs).2.length < cs.length := by
  have key : startsUnsigned (takeSign cs).2 = true := by
    unfold startsNumber at h
    unfold takeSign
    split at h <;> simp_all
  exact Nat.lt_of_le_of_lt (takeExponent_le _)
    (Nat.lt_of_lt_of_le (takeFraction_dropWhile_lt key) (takeSign_le cs))

/-! ### Lexemes of several parts -/

/-- A number with the unit or the percent sign behind it. -/
def takeNumeric (cs : List Char) : Lexeme × List Char :=
  let n := takeNumber cs
  let value := n.1.1.toFloat
  if startsName n.2 then
    let unit := takeName n.2
    (.dimension value n.1.2 (String.ofList unit.1), unit.2)
  else match n.2 with
    | '%' :: rest => (.percentage value, rest)
    | rest => (.number value n.1.2, rest)

/-- Whether a quoted string comes next, behind blanks. -/
def startsQuoted (cs : List Char) : Bool :=
  match cs.dropWhile isBlank with
  | c :: _ => c = '\x22' || c = '\x27'
  | [] => false

/-- A name, with an address or an opening parenthesis behind it.  `url(` before a quoted string is
a function like any other. -/
def takeNamed (cs : List Char) : Lexeme × List Char :=
  let name := takeName cs
  let text := String.ofList name.1
  match name.2 with
  | '(' :: rest =>
    if sameName text "url" && !startsQuoted rest then
      match takeUrl (rest.dropWhile isBlank) with
      | (some value, rest) => (.url (String.ofList value), rest)
      | (none, rest) => (.badUrl, rest)
    else (.function text, rest)
  | rest => (.ident text, rest)

def dropTrivia : List Char → List Char
  | '/' :: '*' :: cs => dropTrivia (takeComment cs).2
  | c :: cs => if isBlank c then dropTrivia cs else c :: cs
  | [] => []
termination_by cs => cs.length
decreasing_by
  · have := takeComment_le cs
    simp only [List.length_cons]; omega
  · simp only [List.length_cons]; omega

theorem dropTrivia_le (cs : List Char) : (dropTrivia cs).length ≤ cs.length := by
  fun_induction dropTrivia cs with
  | case1 cs ih =>
    have := takeComment_le cs
    simp only [List.length_cons]; omega
  | case2 c cs _ _ ih => exact Nat.le_succ_of_le ih
  | case3 => exact Nat.le_refl _
  | case4 => exact Nat.le_refl _

/-- What follows an exclamation mark: `important` behind trivia, or nothing of interest, and then
nothing more is read. -/
def takeImportant (cs : List Char) : Lexeme × List Char :=
  let name := takeName (dropTrivia cs)
  if startsName (dropTrivia cs) && sameName (String.ofList name.1) "important" then
    (.important, name.2)
  else (.delim '!', cs)

/-- A digit of a Unicode range, or a question mark that stands for any. -/
def isRangeChar (c : Char) : Bool :=
  isHexDigit c || c = '?'

/-- Whether `+` and a first digit of a Unicode range come next. -/
def startsUnicodeRange : List Char → Bool
  | '+' :: c :: _ => isRangeChar c
  | _ => false

/-- A Unicode range behind its `U+`: up to six digits or question marks, and if none of them is a
question mark, up to six more digits behind a hyphen. -/
def takeUnicodeRange (cs : List Char) : List Char × List Char :=
  let first := takeUpTo isRangeChar 6 cs
  match first.2 with
  | '-' :: c :: rest =>
    if isHexDigit c && !first.1.contains '?' then
      let second := takeUpTo isHexDigit 6 (c :: rest)
      (first.1 ++ '-' :: second.1, second.2)
    else first
  | _ => first

theorem takeNumeric_lt {cs : List Char} (h : startsNumber cs = true) :
    (takeNumeric cs).2.length < cs.length := by
  have hn := takeNumber_lt h
  unfold takeNumeric
  dsimp only
  split
  · exact Nat.lt_of_le_of_lt (takeName_le _) hn
  · split
    · next rest heq =>
      rw [heq] at hn
      exact Nat.lt_of_succ_lt hn
    · exact hn

/-- Where a name starts, taking it takes at least one character. -/
theorem takeName_lt {cs : List Char} (h : startsName cs = true) :
    (takeName cs).2.length < cs.length := by
  match cs, h with
  | [], h => simp [startsName] at h
  | c :: cs, h =>
    unfold takeName
    split
    · exact Nat.lt_succ_of_le (takeName_le cs)
    · next hc =>
      split
      · exact Nat.lt_succ_of_le (Nat.le_trans (takeName_le _) (takeEscape_le cs))
      · next hb =>
        exfalso
        unfold startsName at h
        split at h <;> simp_all [isNameChar]

theorem takeNamed_lt {cs : List Char} (h : startsName cs = true) :
    (takeNamed cs).2.length < cs.length := by
  have hn := takeName_lt h
  unfold takeNamed
  dsimp only
  split
  · next rest heq =>
    rw [heq] at hn
    simp only [List.length_cons] at hn
    split
    · have hu := takeUrl_le (rest.dropWhile isBlank)
      have hd := dropWhile_le isBlank rest
      split
      · next heq => rw [heq] at hu; dsimp only at hu ⊢; omega
      · next heq => rw [heq] at hu; dsimp only at hu ⊢; omega
    · dsimp only; omega
  · exact hn

theorem takeImportant_le (cs : List Char) : (takeImportant cs).2.length ≤ cs.length := by
  unfold takeImportant
  dsimp only
  split
  · exact Nat.le_trans (takeName_le _) (dropTrivia_le cs)
  · exact Nat.le_refl _

theorem takeUnicodeRange_le (cs : List Char) :
    (takeUnicodeRange cs).2.length ≤ cs.length := by
  have hf := takeUpTo_le isRangeChar 6 cs
  unfold takeUnicodeRange
  dsimp only
  split
  · next c rest heq =>
    split
    · have hs := takeUpTo_le isHexDigit 6 (c :: rest)
      rw [heq] at hf
      exact Nat.le_trans hs (Nat.le_of_succ_le hf)
    · exact hf
  · exact hf

/-! ### The next lexeme -/

def markOf? : Char → Option Mark
  | '(' => some .openParen
  | ')' => some .closeParen
  | ',' => some .comma
  | ':' => some .colon
  | ';' => some .semicolon
  | '[' => some .openBracket
  | ']' => some .closeBracket
  | '\x7b' => some .openBrace
  | '\x7d' => some .closeBrace
  | _ => none

/-- Whether the characters begin with one that may stand inside a name, or with an escape. -/
def continuesName : List Char → Bool
  | '\\' :: cs => escapes cs
  | c :: _ => isNameChar c
  | [] => false

/-- What a number sign begins: a hash, if a character of a name follows. -/
def takeHash (cs : List Char) : Lexeme × List Char :=
  if continuesName cs then
    let name := takeName cs
    (.hash (String.ofList name.1) (startsName cs), name.2)
  else (.delim '#', cs)

/-- The mark of several characters that the text begins with. -/
def takeMark? : List Char → Option (Mark × List Char)
  | '-' :: '-' :: '>' :: cs => some (.closeComment, cs)
  | '<' :: '!' :: '-' :: '-' :: cs => some (.openComment, cs)
  | '~' :: '=' :: cs => some (.includes, cs)
  | '|' :: '=' :: cs => some (.dashMatch, cs)
  | _ => none

/-- The next lexeme that does not begin with a letter of its own: it is told by its first
character. -/
def takeSpecial (c : Char) (cs : List Char) : Lexeme × List Char :=
  if isBlank c then (.whitespace, cs.dropWhile isBlank)
  else if c = '\x22' ∨ c = '\x27' then
    match takeString c cs with
    | (some value, rest) => (.string (String.ofList value), rest)
    | (none, rest) => (.badString, rest)
  else if c = '#' then takeHash cs
  else if c = '!' then takeImportant cs
  else if c = '@' ∧ startsName cs then
    let name := takeName cs
    (.atKeyword (String.ofList name.1), name.2)
  else match markOf? c with
    | some m => (.mark m, cs)
    | none => (.delim c, cs)

/-- The lexeme at the front of a text, and the rest of the text. -/
def next? : List Char → Option (Lexeme × List Char)
  | [] => none
  | '/' :: '*' :: cs =>
    let r := takeComment cs
    some (.comment (String.ofList r.1), r.2)
  | c :: cs =>
    if startsNumber (c :: cs) then some (takeNumeric (c :: cs))
    else if (c = 'u' ∨ c = 'U') ∧ startsUnicodeRange cs then
      let r := takeUnicodeRange (cs.drop 1)
      some (.unicodeRange (String.ofList r.1), r.2)
    else match takeMark? (c :: cs) with
      | some (m, rest) => some (.mark m, rest)
      | none =>
        if startsName (c :: cs) then some (takeNamed (c :: cs))
        else some (takeSpecial c cs)

theorem takeHash_le (cs : List Char) : (takeHash cs).2.length ≤ cs.length := by
  unfold takeHash
  split
  · exact takeName_le cs
  · exact Nat.le_refl _

theorem takeMark?_lt {cs rest : List Char} {m : Mark} (h : takeMark? cs = some (m, rest)) :
    rest.length < cs.length := by
  unfold takeMark? at h
  split at h
  · cases h; simp only [List.length_cons]; omega
  · cases h; simp only [List.length_cons]; omega
  · cases h; simp only [List.length_cons]; omega
  · cases h; simp only [List.length_cons]; omega
  · cases h

theorem takeSpecial_le (c : Char) (cs : List Char) :
    (takeSpecial c cs).2.length ≤ cs.length := by
  unfold takeSpecial
  split
  · exact dropWhile_le _ _
  · split
    · have := takeString_le c cs
      split <;> (next heq => rw [heq] at this; exact this)
    · split
      · exact takeHash_le cs
      · split
        · exact takeImportant_le cs
        · split
          · exact takeName_le cs
          · split <;> exact Nat.le_refl _

/-- Every lexeme takes at least one character. -/
theorem next?_lt {cs rest : List Char} {l : Lexeme} (h : next? cs = some (l, rest)) :
    rest.length < cs.length := by
  unfold next? at h
  split at h
  · cases h
  · next cs' =>
    have := takeComment_le cs'
    cases h
    simp only [List.length_cons]; omega
  · next c cs' _ =>
    split at h
    · next hn =>
      have := takeNumeric_lt hn
      simp only [Option.some.injEq] at h
      rw [h] at this
      exact this
    · split at h
      · have := takeUnicodeRange_le (cs'.drop 1)
        cases h
        simp only [List.length_drop] at this
        simp only [List.length_cons]; omega
      · split at h
        · next heq => cases h; exact takeMark?_lt heq
        · split at h
          · next hn =>
            have := takeNamed_lt hn
            simp only [Option.some.injEq] at h
            rw [h] at this
            exact this
          · have := takeSpecial_le c cs'
            simp only [Option.some.injEq] at h
            rw [h] at this
            exact Nat.lt_succ_of_le this

end Scan

/-! ### Whole texts -/

/-- The tokens of the characters that follow the position `loc`. -/
def scanFrom (loc : Location) (cs : List Char) : List Token :=
  match _h : Scan.next? cs with
  | none => []
  | some (lexeme, rest) =>
    ⟨lexeme, loc⟩ :: scanFrom (loc.walk cs (cs.length - rest.length)) rest
termination_by cs.length
decreasing_by exact Scan.next?_lt _h

def scan (text : String) : List Token :=
  scanFrom Location.start text.toList

/-- The position after the last character of a text. -/
def endOf (text : String) : Location :=
  Location.ofEnd text.toList

end Css2
