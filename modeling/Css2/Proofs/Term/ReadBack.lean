import Css2.Proofs.Decimal.ReadBack
import Css2.Proofs.Grammar.Stretch
import Css2.Proofs.Token.ReadBack
import Css2.Term.Print

/-!
# Written values read back

The grammar reads the text of a value as that value.  `Value.Readable` says which values have such
a text: their names have spellings, their numbers are finite, no number has a sign of its own, and
the functions in them are not nested too deeply.  The reading of a value is joined from those of
its terms (`Grammar.terms_text`), and a function from that of its arguments
(`Grammar.value_call`); an address and a color are written as functions, too.
-/

namespace Css2

open Scan

/-! ### Readable values -/

def Measure.Readable : Measure → Prop
  | .other name => IsName name ∧ Measure.ofName name = .other name
  | _ => True

def Value.isFunction : Value → Bool
  | .function _ _ => true
  | _ => false

/-- The first of the arguments is a string without a sign. -/
def beginsQuoted : List Term → Bool
  | ⟨.string _, none, _⟩ :: _ => true
  | _ => false

/-- There is a last term, and nothing separates it from a next one. -/
def Term.lastBare : List Term → Bool
  | [] => false
  | [t] => t.separator.isNone
  | _ :: t :: ts => Term.lastBare (t :: ts)

mutual

/-- The grammar reads the value from its text, with `k` more levels of nesting allowed. -/
def Value.Readable (k : Nat) : Value → Prop
  | .number n => n.value.isFinite = true ∧ n.unit.Readable
  | .function name args =>
    0 < k ∧ IsName name ∧ (sameName name "url" = true → beginsQuoted args = true) ∧
      Value.ofFunction name args = .function name args ∧ Term.lastBare args = true ∧
      Term.AllReadable (k - 1) args
  | .string _ => True
  | .ident name => IsName name
  | .uri _ => 0 < k
  | .rgb _ => 0 < k
  | .unicodeRange range => IsRange range.toList
  | .hash name => IsName name

/-- The same for a term.  Only a function has a sign of its own, and that is a plus. -/
def Term.Readable (k : Nat) : Term → Prop
  | ⟨value, sign, _⟩ =>
    value.Readable k ∧ (sign = none ∨ sign = some .plus ∧ value.isFunction = true)

def Term.AllReadable (k : Nat) : List Term → Prop
  | [] => True
  | t :: ts => t.Readable k ∧ Term.AllReadable k ts

end

/-! ### Reading a value from its text -/

def endsTerm : List Char → Bool
  | c :: _ => c = ' ' || c = ',' || c = '/' || c = ')' || c = ';'
  | [] => true

/-- The text of the value is read as the value wherever a term may end behind it. -/
def Value.ReadsBack (n : Nesting) (v : Value) : Prop :=
  ∀ rest ts, endsTerm rest = true → TokensOf (v.text.toList ++ rest) ts →
    ∃ t us vs, ts = t :: us ∧ Grammar.value n t us = .ok (v, vs) ∧ TokensOf rest vs

def Term.ReadsBack (n : Nesting) (t : Term) : Prop :=
  ∀ rest ts, endsTerm rest = true → TokensOf (t.text.toList ++ rest) ts →
    ∃ u us vs, Grammar.sign ts = (t.sign, u :: us) ∧ Grammar.value n u us = .ok (t.value, vs) ∧
      (t.sign.isSome && !t.value.takesSign) = false ∧ TokensOf rest vs

section Follow

variable {rest : List Char}

theorem endsTerm_head (h : endsTerm rest = true) (c : Char) (hc : rest.head? = some c) :
    c = ' ' ∨ c = ',' ∨ c = '/' ∨ c = ')' ∨ c = ';' := by
  cases rest with
  | nil => cases hc
  | cons d ds =>
    cases hc
    rw [endsTerm] at h
    simp only [Bool.or_eq_true, decide_eq_true_eq] at h
    rcases h with (((h | h) | h) | h) | h
    · exact .inl h
    · exact .inr (.inl h)
    · exact .inr (.inr (.inl h))
    · exact .inr (.inr (.inr (.inl h)))
    · exact .inr (.inr (.inr (.inr h)))

theorem endsIdent_of_endsTerm (h : endsTerm rest = true) : endsIdent rest = true := by
  cases rest with
  | nil => rfl
  | cons c cs => rcases endsTerm_head h c rfl with rfl | rfl | rfl | rfl | rfl <;> rfl

theorem endsName_of_endsTerm (h : endsTerm rest = true) : endsName rest = true :=
  endsName_of_endsIdent (endsIdent_of_endsTerm h)

theorem endsRange_of_endsTerm (h : endsTerm rest = true) : endsRange rest = true := by
  cases rest with
  | nil => rfl
  | cons c cs => rcases endsTerm_head h c rfl with rfl | rfl | rfl | rfl | rfl <;> rfl

theorem startsName_of_endsTerm (h : endsTerm rest = true) : startsName rest = false := by
  cases rest with
  | nil => rfl
  | cons c cs => rcases endsTerm_head h c rfl with rfl | rfl | rfl | rfl | rfl <;> rfl

theorem endsNumber_of_endsTerm (h : endsTerm rest = true) : EndsNumber rest := by
  cases rest with
  | nil => exact ⟨rfl, rfl, rfl⟩
  | cons c cs =>
    have hc := endsTerm_head h c rfl
    refine ⟨?_, ?_, ?_⟩
    · rcases hc with rfl | rfl | rfl | rfl | rfl <;> rfl
    · rcases hc with rfl | rfl | rfl | rfl | rfl <;> rfl
    · have he : ¬((c = 'e' ∨ c = 'E') ∧ startsDigit (takeSign cs).2 = true) := by
        rintro ⟨he | he, _⟩ <;> rcases hc with rfl | rfl | rfl | rfl | rfl <;> cases he
      rw [takeExponent]
      exact if_neg he

end Follow

namespace Grammar

/-! ### Single tokens -/

theorem value_of_simpleValue? {n : Nesting} {t : Token} {rest : List Token} {v : Value}
    (h : simpleValue? t.lexeme = some v) : value n t rest = .ok (v, rest) := by
  rw [value]
  split
  · next hf =>
    rw [hf] at h
    cases h
  · rw [h]

/-- **A value of one token** is read from its text if the scanner finds the token there. -/
theorem readsBack_of_next? {n : Nesting} {v : Value}
    (h : ∀ rest, endsTerm rest = true → ∃ l, Scan.next? (v.text.toList ++ rest) = some (l, rest) ∧
      simpleValue? l = some v) : v.ReadsBack n := by
  intro rest ts hr hts
  obtain ⟨l, hl, hv⟩ := h rest hr
  obtain ⟨loc, us, rfl, hus⟩ := hts.next hl
  exact ⟨_, us, us, rfl, value_of_simpleValue? hv, hus⟩

theorem readsBack_string (n : Nesting) (value : String) : (Value.string value).ReadsBack n := by
  refine readsBack_of_next? fun rest _ => ⟨.string value, ?_, rfl⟩
  have htext : (Value.string value).text.toList = Written.string value.toList := by
    simp [Value.text, stringText]
  rw [htext, next?_string]

theorem readsBack_ident (n : Nesting) {name : String} (h : IsName name) :
    (Value.ident name).ReadsBack n := by
  refine readsBack_of_next? fun rest hr => ⟨.ident name, ?_, rfl⟩
  have htext : (Value.ident name).text.toList = Written.ident name.toList := by
    simp [Value.text, identText]
  have hparen : rest.head? ≠ some '(' := by
    intro hc
    rcases endsTerm_head hr _ hc with hc | hc | hc | hc | hc <;> cases hc
  rw [htext, next?_ident h (endsIdent_of_endsTerm hr) hparen]

theorem readsBack_hash (n : Nesting) {name : String} (h : IsName name) :
    (Value.hash name).ReadsBack n := by
  refine readsBack_of_next? fun rest hr => ?_
  have htext : (Value.hash name).text.toList = '#' :: Written.name name.toList := by
    simp [Value.text, hashText]
  obtain ⟨isIdent, hn⟩ := next?_hash h (endsName_of_endsTerm hr)
  exact ⟨.hash name isIdent, by rw [htext]; exact hn, rfl⟩

theorem readsBack_unicodeRange (n : Nesting) {range : String} (h : IsRange range.toList) :
    (Value.unicodeRange range).ReadsBack n := by
  refine readsBack_of_next? fun rest hr => ⟨.unicodeRange range, ?_, rfl⟩
  have htext : (Value.unicodeRange range).text.toList = 'U' :: '+' :: range.toList := by
    simp [Value.text]
  rw [htext]
  exact next?_unicodeRange h (endsRange_of_endsTerm hr)

/-! ### Numbers -/

theorem next?_dimension {x : Float} (hx : x.isFinite = true) {rest cs after : List Char}
    (hr : EndsNumber rest) (hs : startsName rest = true) (hn : takeName rest = (cs, after)) :
    ∃ form, Scan.next? ((numberText x).toList ++ rest)
      = some (.dimension x form (String.ofList cs), after) := by
  obtain ⟨d, form, htake, rfl⟩ := takeNumber_numberText hx hr
  refine ⟨form, ?_⟩
  rw [next?_of_startsNumber (startsNumber_numberText hx rest)]
  rw [takeNumeric]
  rw [htake]
  dsimp only
  rw [if_pos hs, hn]

theorem next?_percentage {x : Float} (hx : x.isFinite = true) (rest : List Char) :
    Scan.next? ((numberText x).toList ++ '%' :: rest) = some (.percentage x, rest) := by
  have hr : EndsNumber ('%' :: rest) := by
    refine ⟨rfl, rfl, ?_⟩
    rw [takeExponent]
    exact if_neg (by rintro ⟨he | he, _⟩ <;> cases he)
  obtain ⟨d, form, htake, rfl⟩ := takeNumber_numberText hx hr
  rw [next?_of_startsNumber (startsNumber_numberText hx _)]
  rw [takeNumeric]
  rw [htake]
  rfl

theorem next?_number {x : Float} (hx : x.isFinite = true) {rest : List Char}
    (hr : endsTerm rest = true) :
    ∃ form, Scan.next? ((numberText x).toList ++ rest) = some (.number x form, rest) := by
  obtain ⟨d, form, htake, rfl⟩ := takeNumber_numberText hx (endsNumber_of_endsTerm hr)
  refine ⟨form, ?_⟩
  rw [next?_of_startsNumber (startsNumber_numberText hx rest)]
  rw [takeNumeric]
  rw [htake]
  dsimp only
  rw [startsName_of_endsTerm hr, if_neg (by decide)]
  split
  · next rest' =>
    rcases endsTerm_head hr '%' rfl with h | h | h | h | h <;> cases h
  · rfl

theorem endsNumber_of_startsName {cs : List Char} (h : startsName cs = true)
    (he : ∀ c ds, cs = c :: ds → (c = 'e' ∨ c = 'E') → startsDigit (takeSign ds).2 = false) :
    EndsNumber cs := by
  refine ⟨startsDigit_of_startsName h, ?_, ?_⟩
  · unfold takeFraction
    split
    · next ds =>
      have hpoint : startsName ('.' :: ds) = false := rfl
      rw [hpoint] at h
      cases h
    · rfl
  · cases cs with
    | nil => rfl
    | cons c ds =>
      rw [takeExponent]
      refine if_neg ?_
      rintro ⟨hc, hdigit⟩
      rw [he c ds rfl hc] at hdigit
      cases hdigit

/-- A unit that is written behind a backslash if it begins with `e` is not an exponent. -/
theorem endsNumber_unit {cs : List Char} (h : cs ≠ []) (rest : List Char) :
    EndsNumber (Written.unit cs ++ rest) := by
  refine endsNumber_of_startsName (startsName_unit h rest) ?_
  intro c ds heq hc
  exfalso
  have hback : c ≠ '\\' := by rcases hc with rfl | rfl <;> decide
  have hhyphen : c ≠ '-' := by rcases hc with rfl | rfl <;> decide
  cases cs with
  | nil => exact h rfl
  | cons d cs =>
    unfold Written.unit at heq
    dsimp only at heq
    split at heq
    · rw [List.append_assoc, hexEscape_append] at heq
      cases heq
      exact hback rfl
    · next hd =>
      unfold Written.ident at heq
      split at heq
      · cases heq
        exact hback rfl
      · cases heq
        exact hhyphen rfl
      · next d' cs' _ _ hcons =>
        cases hcons
        rw [List.append_assoc] at heq
        rcases nameStart_cases d with ⟨hw, _, _⟩ | ⟨es, hw, _⟩
        · rw [hw] at heq
          cases heq
          exact hd hc
        · rw [hw] at heq
          cases heq
          exact hback rfl
      · next hnil => cases hnil

/-- The units that CSS 2.1 defines are spelled without escapes. -/
theorem known_spelling {u : Measure} (h : u ∈ Measure.known) (hn : u ≠ .none)
    (hp : u ≠ .percent) : u.text.toList ≠ [] ∧ Written.ident u.text.toList = u.text.toList ∧
      '\x00' ∉ u.text.toList ∧ Measure.ofName u.text = u := by
  have hall : ∀ u ∈ Measure.known, u ≠ .none → u ≠ .percent →
      u.text.toList ≠ [] ∧ Written.ident u.text.toList = u.text.toList ∧
        '\x00' ∉ u.text.toList ∧ Measure.ofName u.text = u := by
    decide +kernel
  exact hall u h hn hp

/-- The two units that begin with `e` go on with a letter. -/
theorem endsNumber_known {u : Measure} (h : u ∈ Measure.known) (hn : u ≠ .none)
    (hp : u ≠ .percent) (rest : List Char) : EndsNumber (u.text.toList ++ rest) := by
  obtain ⟨hne, hident, _⟩ := known_spelling h hn hp
  have hs := startsName_ident hne rest
  rw [hident] at hs
  refine endsNumber_of_startsName hs ?_
  intro c ds heq hc
  cases u with
  | none => exact absurd rfl hn
  | percent => exact absurd rfl hp
  | other name => exact absurd h (by simp [Measure.known])
  | _ =>
    cases heq
    first
    | rfl
    | rcases hc with hc | hc <;> cases hc

theorem readsBack_known (n : Nesting) {x : Float} (hx : x.isFinite = true) {u : Measure}
    (h : u ∈ Measure.known) (hn : u ≠ .none) (hp : u ≠ .percent)
    (htext : (Quantity.mk x u).text = numberText x ++ u.text) :
    (Value.number ⟨x, u⟩).ReadsBack n := by
  obtain ⟨hne, hident, hnull, hof⟩ := known_spelling h hn hp
  refine readsBack_of_next? fun rest hr => ?_
  have hs := startsName_ident hne rest
  have htake := takeName_ident hnull (endsName_of_endsTerm hr)
  rw [hident] at hs htake
  obtain ⟨form, hnext⟩ := next?_dimension hx (endsNumber_known h hn hp rest) hs htake
  have hlist : (Value.number ⟨x, u⟩).text.toList ++ rest
      = (numberText x).toList ++ (u.text.toList ++ rest) := by
    rw [Value.text, htext, String.toList_append, List.append_assoc]
  refine ⟨_, by rw [hlist]; exact hnext, ?_⟩
  rw [String.ofList_toList]
  show some (Value.number ⟨x, Measure.ofName u.text⟩) = _
  rw [hof]

/-- **A number is read back** with its unit. -/
theorem readsBack_number (n : Nesting) {q : Quantity} (hx : q.value.isFinite = true)
    (hu : q.unit.Readable) : (Value.number q).ReadsBack n := by
  obtain ⟨x, u⟩ := q
  cases u with
  | none =>
    refine readsBack_of_next? fun rest hr => ?_
    obtain ⟨form, hnext⟩ := next?_number hx hr
    refine ⟨.number x form, ?_, rfl⟩
    rw [← hnext]
    simp [Value.text, Quantity.text, Measure.text]
  | percent =>
    refine readsBack_of_next? fun rest _ => ⟨.percentage x, ?_, rfl⟩
    rw [← next?_percentage hx rest]
    simp [Value.text, Quantity.text, Measure.text]
  | other name =>
    obtain ⟨hname, hof⟩ := hu
    have hcs := hname.toList_ne_nil
    refine readsBack_of_next? fun rest hr => ?_
    obtain ⟨form, hnext⟩ := next?_dimension hx (endsNumber_unit hcs rest)
      (startsName_unit hcs rest) (takeName_unit hname.2 (endsName_of_endsTerm hr))
    rw [String.ofList_toList] at hnext
    refine ⟨.dimension x form name, ?_, ?_⟩
    · rw [← hnext]
      simp [Value.text, Quantity.text, unitText]
    · show some (Value.number ⟨x, Measure.ofName name⟩) = _
      rw [hof]
  | _ => exact readsBack_known n hx (by decide) (by decide) (by decide) rfl

/-! ### Terms -/

theorem startsTerm_of_value {n : Nesting} {t : Token} {rest after : List Token} {v : Value}
    (h : value n t rest = .ok (v, after)) :
    startsTerm t.lexeme = true ∧ ∀ c, t.lexeme ≠ .delim c := by
  rw [value] at h
  split at h
  · next name heq =>
    rw [heq]
    exact ⟨rfl, fun c hc => by cases hc⟩
  · split at h
    · next v' hv =>
      cases hl : t.lexeme <;> rw [hl] at hv <;>
        first
        | exact ⟨rfl, fun c hc => by cases hc⟩
        | cases hv
    · cases h

theorem sign_of_ne_delim {t : Token} (h : ∀ c, t.lexeme ≠ .delim c) (rest : List Token) :
    sign (t :: rest) = (none, t :: rest) := by
  unfold sign
  split
  · next c loc us heq =>
    cases heq
    exact absurd rfl (h c)
  · rfl

theorem startsTerm_of_terms {n : Nesting} {ts : List Token} {r : List Term × List Token}
    (h : terms n ts = .ok r) : ∃ t us, ts = t :: us ∧ startsTerm t.lexeme = true := by
  rw [terms_eq] at h
  split at h
  · cases h
  · next s t rest hs =>
    obtain ⟨⟨v, after⟩, hv, _⟩ := bind_eq_ok h
    unfold sign at hs
    split at hs
    · next c loc us =>
      refine ⟨_, _, rfl, ?_⟩
      split at hs
      · next hc =>
        rw [hc]
        rfl
      · split at hs
        · next hc =>
          rw [hc]
          rfl
        · cases hs
          exact absurd rfl ((startsTerm_of_value hv).2 c)
    · cases hs
      exact ⟨t, rest, rfl, (startsTerm_of_value hv).1⟩

theorem startsTerm_ne {l : Lexeme} (h : startsTerm l = true) :
    l.isTrivia = false ∧ l.isMark .comma = false ∧ l.isDelim '/' = false := by
  cases l with
  | delim c =>
    rw [startsTerm] at h
    rw [Bool.or_eq_true, decide_eq_true_eq, decide_eq_true_eq] at h
    rcases h with rfl | rfl <;> exact ⟨rfl, rfl, rfl⟩
  | _ => first | exact ⟨rfl, rfl, rfl⟩ | cases h

theorem skipTrivia_of_startsTerm {t : Token} (h : startsTerm t.lexeme = true) (us : List Token) :
    skipTrivia (t :: us) = t :: us :=
  List.dropWhile_cons_of_neg (by simp [(startsTerm_ne h).1])

section Head

variable {cs : List Char}
  (h : ∀ us, TokensOf cs us → ∃ t vs, us = t :: vs ∧ startsTerm t.lexeme = true)

include h

theorem dropWhile_isBlank_of_startsTerm : cs.dropWhile isBlank = cs := by
  refine TokensOf.dropWhile_isBlank fun us hus => ?_
  obtain ⟨t, vs, heq, ht⟩ := h us hus
  refine ⟨t, vs, heq, ?_⟩
  intro hw
  rw [hw] at ht
  cases ht

theorem head?_of_startsTerm : cs.head? ≠ some '*' := by
  obtain ⟨us, hus⟩ := TokensOf.exists_tokens cs
  obtain ⟨t, vs, rfl, ht⟩ := h us hus
  obtain ⟨rest, hn, _⟩ := hus.of_cons
  intro hstar
  cases cs with
  | nil => cases hstar
  | cons c cs =>
    cases hstar
    have hdelim : Scan.next? ('*' :: cs) = some (.delim '*', cs) := rfl
    rw [hdelim] at hn
    cases hl : t.lexeme <;> rw [hl] at hn <;> cases hn
    rw [hl] at ht
    cases ht

/-- **The separator is read back** behind a term, and the next term stands behind it. -/
theorem next?_separator {sep : Option Separator} {ts : List Token}
    (hts : TokensOf ((separatorText sep).toList ++ cs) ts) :
    ∃ us, next? ts = some (sep, us) ∧ TokensOf cs us := by
  have hblank := dropWhile_isBlank_of_startsTerm h
  cases sep with
  | none =>
    obtain ⟨loc, us, rfl, hus⟩ := TokensOf.blank (c := ' ') hts rfl hblank
    obtain ⟨t, vs, rfl, ht⟩ := h us hus
    obtain ⟨_, hcomma, hslash⟩ := startsTerm_ne ht
    have hskip : skipTrivia (⟨.whitespace, loc⟩ :: t :: vs) = t :: vs :=
      skipTrivia_of_startsTerm ht vs
    refine ⟨t :: vs, ?_, hus⟩
    rw [next?]
    rw [hskip]
    dsimp only
    rw [hcomma, hslash, ht]
    rfl
  | some sep =>
    cases sep with
    | comma =>
      obtain ⟨loc, us, rfl, hus⟩ :=
        (show TokensOf (',' :: ' ' :: cs) _ from hts).next (l := .mark .comma) rfl
      obtain ⟨loc', vs, rfl, hvs⟩ := hus.blank rfl hblank
      obtain ⟨t, ws, rfl, ht⟩ := h vs hvs
      refine ⟨t :: ws, ?_, hvs⟩
      show some (some Separator.comma, skipTrivia (t :: ws)) = _
      rw [skipTrivia_of_startsTerm ht]
    | slash =>
      obtain ⟨loc, us, rfl, hus⟩ := hts.next (next?_slash (head?_of_startsTerm h))
      obtain ⟨t, vs, rfl, ht⟩ := h us hus
      refine ⟨t :: vs, ?_, hus⟩
      show some (some Separator.slash, skipTrivia (t :: vs)) = _
      rw [skipTrivia_of_startsTerm ht]

end Head

theorem endsTerm_separator (sep : Option Separator) (cs : List Char) :
    endsTerm ((separatorText sep).toList ++ cs) = true := by
  cases sep with
  | none => rfl
  | some sep => cases sep <;> rfl

/-- **A value is read back** if each of its terms is, up to what ends it. -/
theorem terms_text {n : Nesting} {ts : List Term} (h : ∀ t ∈ ts, t.ReadsBack n)
    (hlast : Term.lastBare ts = true) {rest : List Char} (hrest : endsTerm rest = true)
    (hstop : ∀ vs, TokensOf rest vs → next? vs = none) {us : List Token}
    (hus : TokensOf ((valueText ts).toList ++ rest) us) :
    ∃ vs, terms n us = .ok (ts, skipTrivia vs) ∧ TokensOf rest vs := by
  induction ts generalizing us with
  | nil => cases hlast
  | cons t ts ih =>
    obtain ⟨v, s, p⟩ := t
    cases ts with
    | nil =>
      obtain ⟨u, us', vs, hsign, hvalue, htakes, hvs⟩ := h ⟨v, s, p⟩ (by simp) rest us hrest hus
      have hp : p = none := Option.isNone_iff_eq_none.1 hlast
      refine ⟨vs, ?_, hvs⟩
      rw [terms_eq, hsign]
      dsimp only at hvalue htakes ⊢
      rw [hvalue]
      dsimp only [bind, Except.bind]
      rw [htakes, hstop vs hvs, hp]
      rfl
    | cons w ws =>
      have hmore : ∀ us, TokensOf ((valueText (w :: ws)).toList ++ rest) us →
          ∃ vs, terms n us = .ok (w :: ws, skipTrivia vs) ∧ TokensOf rest vs :=
        fun us hus => ih (fun t ht => h t (by simp [ht])) hlast hus
      have htext : (valueText (⟨v, s, p⟩ :: w :: ws)).toList ++ rest
          = (Term.text ⟨v, s, p⟩).toList ++
            ((separatorText p).toList ++ ((valueText (w :: ws)).toList ++ rest)) := by
        simp [valueText]
      rw [htext] at hus
      obtain ⟨u, us', vs, hsign, hvalue, htakes, hvs⟩ :=
        h ⟨v, s, p⟩ (by simp) _ us (endsTerm_separator p _) hus
      obtain ⟨xs, hnext, hxs⟩ := next?_separator (fun us hus => by
        obtain ⟨vs, hterms, _⟩ := hmore us hus
        exact startsTerm_of_terms hterms) hvs
      obtain ⟨ys, hterms, hys⟩ := hmore xs hxs
      refine ⟨ys, ?_, hys⟩
      rw [terms_eq, hsign]
      dsimp only at hvalue htakes ⊢
      rw [hvalue]
      dsimp only [bind, Except.bind]
      rw [htakes, hnext]
      dsimp only
      rw [hterms]
      rfl

/-! ### Functions -/

theorem startsQuoted_valueText {args : List Term} (h : beginsQuoted args = true)
    (rest : List Char) : startsQuoted ((valueText args).toList ++ rest) = true := by
  unfold beginsQuoted at h
  split at h
  · next value p more =>
    cases more with
    | nil => 
      have htext : (valueText [⟨.string value, none, p⟩]).toList ++ rest
          = '\x22' :: (value.toList.flatMap Written.stringChar ++ '\x22' :: rest) := by
        simp [valueText, Term.text, Value.text, stringText, Written.string]
      rw [htext]
      rfl
    | cons t ts =>
      have htext : (valueText (⟨.string value, none, p⟩ :: t :: ts)).toList ++ rest
          = '\x22' :: (value.toList.flatMap Written.stringChar ++
            '\x22' :: ((separatorText p).toList ++ ((valueText (t :: ts)).toList ++ rest))) := by
        simp [valueText, Term.text, Value.text, stringText, Written.string]
      rw [htext]
      rfl
  · cases h

/-- **A function is read back** if its arguments are, and gives what it gives for them. -/
theorem value_call {n : Nesting} {name : String} {args : List Term} (hname : IsName name)
    (hurl : sameName name "url" = true → beginsQuoted args = true) (hn : n.depth < n.limit)
    (hargs : ∀ t ∈ args, t.ReadsBack { n with depth := n.depth + 1 })
    (hlast : Term.lastBare args = true) {rest : List Char} {ts : List Token}
    (hts : TokensOf ((identText name ++ "(" ++ valueText args ++ ")").toList ++ rest) ts) :
    ∃ t us vs, ts = t :: us ∧ value n t us = .ok (Value.ofFunction name args, vs) ∧
      TokensOf rest vs := by
  have htext : (identText name ++ "(" ++ valueText args ++ ")").toList ++ rest
      = Written.ident name.toList ++ '(' :: ((valueText args).toList ++ ')' :: rest) := by
    simp [identText]
  have hquoted : sameName name "url" = true →
      startsQuoted ((valueText args).toList ++ ')' :: rest) = true := by
    intro hsame
    exact startsQuoted_valueText (hurl hsame) _
  rw [htext] at hts
  obtain ⟨loc, us, rfl, hus⟩ := hts.next (next?_function hname hquoted)
  have hstop : ∀ vs, TokensOf (')' :: rest) vs → next? vs = none := by
    intro vs hvs
    obtain ⟨loc', ws, rfl, _⟩ := hvs.next (l := .mark .closeParen) rfl
    rfl
  obtain ⟨vs, hterms, hvs⟩ := terms_text hargs hlast rfl hstop hus
  obtain ⟨loc', ws, rfl, hws⟩ := hvs.next (l := .mark .closeParen) rfl
  obtain ⟨t, us', rfl, ht⟩ := startsTerm_of_terms hterms
  refine ⟨_, _, ws, rfl, ?_, hws⟩
  rw [value]
  dsimp only
  rw [enter_of_lt hn]
  dsimp only [bind, Except.bind]
  rw [skipTrivia_of_startsTerm ht, hterms]
  rfl

/-- A term without a sign is read back if its value is. -/
theorem readsBack_unsigned {n : Nesting} {v : Value} (h : v.ReadsBack n)
    (p : Option Separator) : Term.ReadsBack n ⟨v, none, p⟩ := by
  intro rest ts hr hts
  have htext : (Term.text ⟨v, none, p⟩).toList = v.text.toList := by simp [Term.text]
  rw [htext] at hts
  obtain ⟨t, us, vs, rfl, hv, hvs⟩ := h rest ts hr hts
  exact ⟨t, us, vs, sign_of_ne_delim (startsTerm_of_value hv).2 us, hv, rfl, hvs⟩

/-- **An address is read back** as a function of a string. -/
theorem readsBack_uri {n : Nesting} (hn : n.depth < n.limit) (address : String) :
    (Value.uri address).ReadsBack n := by
  intro rest ts _ hts
  have hname : IsName "url" := ⟨by decide, by decide⟩
  have htext : (Value.uri address).text
      = identText "url" ++ "(" ++ valueText [⟨.string address, none, none⟩] ++ ")" := by
    have hident : identText "url" = "url" := by decide +kernel
    rw [hident]
    simp [Value.text, uriText, valueText, Term.text]
  rw [htext] at hts
  have hargs : ∀ t ∈ [(⟨.string address, none, none⟩ : Term)],
      t.ReadsBack { n with depth := n.depth + 1 } := by
    intro t ht
    rw [List.mem_singleton.1 ht]
    exact readsBack_unsigned (readsBack_string _ address) none
  obtain ⟨t, us, vs, rfl, hv, hvs⟩ := value_call hname (fun _ => rfl) hn hargs rfl hts
  have hurl : Value.ofFunction "url" [⟨.string address, none, none⟩] = .uri address := by
    have hsame : sameName "url" "url" = true := beq_self_eq_true _
    rw [Value.ofFunction]
    rw [if_pos hsame]
    rfl
  rw [hurl] at hv
  exact ⟨t, us, vs, rfl, hv, hvs⟩

/-- The channel of a color as the number that is written for it. -/
def channelNumber (channel : UInt8) : Float :=
  (Decimal.mk false channel.toNat 0).toFloat

theorem channelNumber_spec (channel : UInt8) :
    numberText (channelNumber channel) = toString channel.toNat ∧
      (channelNumber channel).isFinite = true ∧
        Rgb.channelOfFloat (channelNumber channel) false = channel := by
  have hall : ∀ c : Fin 256, numberText (channelNumber (UInt8.ofNat c.val)) = toString c.val ∧
      (channelNumber (UInt8.ofNat c.val)).isFinite = true ∧
        Rgb.channelOfFloat (channelNumber (UInt8.ofNat c.val)) false = UInt8.ofNat c.val := by
    decide +kernel
  have h := hall ⟨channel.toNat, channel.toNat_lt⟩
  rwa [UInt8.ofNat_toNat] at h

/-- The arguments of the function that a color is written as. -/
def rgbArgs (c : Rgb) : List Term :=
  [⟨.number ⟨channelNumber c.red, .none⟩, none, some .comma⟩,
    ⟨.number ⟨channelNumber c.green, .none⟩, none, some .comma⟩,
    ⟨.number ⟨channelNumber c.blue, .none⟩, none, none⟩]

theorem ofFunction_rgbArgs (c : Rgb) : Value.ofFunction "rgb" (rgbArgs c) = .rgb c := by
  have hred := (channelNumber_spec c.red).2.2
  have hgreen := (channelNumber_spec c.green).2.2
  have hblue := (channelNumber_spec c.blue).2.2
  have hargs : rgbOfArgs? (rgbArgs c) = some c := by
    simp [rgbArgs, rgbOfArgs?, Term.channel?, Term.number?, hred, hgreen, hblue]
  have hurl : sameName "rgb" "url" = false := by decide +kernel
  have hrgb : sameName "rgb" "rgb" = true := beq_self_eq_true _
  rw [Value.ofFunction]
  rw [hurl, hrgb, hargs]
  rfl

/-- **A color is read back** as a function of its channels. -/
theorem readsBack_rgb {n : Nesting} (hn : n.depth < n.limit) (c : Rgb) :
    (Value.rgb c).ReadsBack n := by
  intro rest ts _ hts
  have hname : IsName "rgb" := ⟨by decide, by decide⟩
  have htext : (Value.rgb c).text = identText "rgb" ++ "(" ++ valueText (rgbArgs c) ++ ")" := by
    have hident : identText "rgb" = "rgb" := by decide +kernel
    rw [hident]
    simp [Value.text, Rgb.text, rgbArgs, valueText, Term.text, Quantity.text, Measure.text,
      separatorText, channelNumber_spec, String.append_assoc]
  have hnumber : ∀ channel p, Term.ReadsBack { n with depth := n.depth + 1 }
      ⟨.number ⟨channelNumber channel, .none⟩, none, p⟩ := fun channel p =>
    readsBack_unsigned (readsBack_number _ (q := ⟨channelNumber channel, .none⟩)
      (channelNumber_spec channel).2.1 trivial) p
  have hargs : ∀ t ∈ rgbArgs c, t.ReadsBack { n with depth := n.depth + 1 } := by
    intro t ht
    simp only [rgbArgs, List.mem_cons, List.not_mem_nil, or_false] at ht
    rcases ht with rfl | rfl | rfl <;> exact hnumber _ _
  have hurl : sameName "rgb" "url" = true → beginsQuoted (rgbArgs c) = true := by
    intro h
    exact absurd h (by decide +kernel)
  rw [htext] at hts
  obtain ⟨t, us, vs, rfl, hv, hvs⟩ := value_call hname hurl hn hargs rfl hts
  rw [ofFunction_rgbArgs] at hv
  exact ⟨t, us, vs, rfl, hv, hvs⟩

/-! ### All values -/

theorem readsBack_plus {n : Nesting} {name : String} {args : List Term} (hname : IsName name)
    (h : (Value.function name args).ReadsBack n) (p : Option Separator) :
    Term.ReadsBack n ⟨.function name args, some .plus, p⟩ := by
  intro rest ts hr hts
  have htext : (Term.text ⟨.function name args, some .plus, p⟩).toList ++ rest
      = '+' :: ((Value.function name args).text.toList ++ rest) := by
    simp [Term.text, Sign.text]
  have hfunction : (Value.function name args).text.toList ++ rest
      = Written.ident name.toList ++ '(' :: ((valueText args).toList ++ ')' :: rest) := by
    simp [Value.text, identText]
  have hstart : startsUnsigned ((Value.function name args).text.toList ++ rest) = false := by
    rw [hfunction]
    exact startsUnsigned_of_startsName (startsName_ident hname.toList_ne_nil _)
  rw [htext] at hts
  obtain ⟨loc, us, rfl, hus⟩ := hts.next (next?_plus hstart)
  obtain ⟨t, vs, ws, rfl, hv, hws⟩ := h rest us hr hus
  exact ⟨t, vs, ws, rfl, hv, rfl, hws⟩

mutual

/-- **A readable value is read back.** -/
theorem readsBack_value : ∀ (n : Nesting) (v : Value), v.Readable (n.limit - n.depth) →
    v.ReadsBack n
  | n, .number q, h => readsBack_number n h.1 h.2
  | n, .function name args, h => by
    obtain ⟨hk, hname, hurl, hof, hlast, hargs⟩ := h
    intro rest ts _ hts
    have hdeeper : n.limit - n.depth - 1 = n.limit - (n.depth + 1) := by omega
    rw [hdeeper] at hargs
    have hread := readsBack_terms { n with depth := n.depth + 1 } args hargs
    rw [Value.text] at hts
    obtain ⟨t, us, vs, rfl, hv, hvs⟩ := value_call hname hurl (by omega) hread hlast hts
    rw [hof] at hv
    exact ⟨t, us, vs, rfl, hv, hvs⟩
  | n, .string value, _ => readsBack_string n value
  | n, .ident _, h => readsBack_ident n h
  | _, .uri address, h => readsBack_uri (Nat.lt_of_sub_pos h) address
  | _, .rgb color, h => readsBack_rgb (Nat.lt_of_sub_pos h) color
  | n, .unicodeRange _, h => readsBack_unicodeRange n h
  | n, .hash _, h => readsBack_hash n h

theorem readsBack_term : ∀ (n : Nesting) (t : Term), t.Readable (n.limit - n.depth) →
    t.ReadsBack n
  | n, ⟨v, s, p⟩, h => by
    obtain ⟨hv, rfl | ⟨rfl, hf⟩⟩ := h
    · exact readsBack_unsigned (readsBack_value n v hv) p
    · cases v with
      | function name args => exact readsBack_plus hv.2.1 (readsBack_value n _ hv) p
      | _ => cases hf

theorem readsBack_terms : ∀ (n : Nesting) (ts : List Term),
    Term.AllReadable (n.limit - n.depth) ts → ∀ t ∈ ts, t.ReadsBack n
  | _, [], _, t, ht => by cases ht
  | n, u :: us, h, t, ht => by
    rcases List.mem_cons.1 ht with heq | ht
    · rw [heq]
      exact readsBack_term n u h.1
    · exact readsBack_terms n us h.2 t ht

end

end Grammar

end Css2
