import Css2.Grammar.Selector
import Css2.Proofs.Token.ReadBack
import Css2.Selector.Print

/-!
# Written selectors read back

The grammar reads the text of a selector as that selector (`Grammar.selector_text`).  Tests of
attributes that follow one upon the other are one condition, though each is written in brackets of
its own, so the conditions of a link are readable if they are joined from single ones.
-/

namespace Css2

open Scan

/-! ### Readable selectors -/

/-- A test that the grammar reads from its text: it has a value just if it compares one. -/
def AttributeSel.Readable (a : AttributeSel) : Prop :=
  IsName a.name ∧ (a.test = .present ↔ a.value = none)

/-- Behind a name that is written with an argument, no address is read. -/
def Pseudo.Readable (p : Pseudo) : Prop :=
  IsName p.name ∧ ∀ argument, p.argument = some argument →
    IsName argument ∧ sameName p.name "url" = false

/-- A condition that the grammar reads at once from its text. -/
def Condition.Readable : Condition → Prop
  | .className name => IsName name
  | .id name => IsName name
  | .pseudo p => p.Readable
  | .attributes tests => ∃ a, tests = [a] ∧ a.Readable

/-- Conditions that are read one after the other and joined. -/
inductive Condition.Joined : List Condition → Prop
  | nil : Joined []
  | cons {c : Condition} {cs : List Condition} :
      c.Readable → Joined cs → Joined (Grammar.joinCondition c cs)

structure Link.Readable (l : Link) : Prop where
  name : ∀ name, l.name = some name → IsName name
  conditions : Condition.Joined l.conditions

/-- A chain that the grammar reads from its text: it has a first link, and combinators join the
others to it. -/
def Chain.Readable (c : Chain) : Prop :=
  ∃ l ls, c.links = l :: ls ∧ l.Readable ∧ l.combinator = .first ∧
    ∀ k ∈ ls, k.Readable ∧ k.combinator ≠ .first

/-- A selector that the grammar reads from its text. -/
def Selector.Readable (s : Selector) : Prop :=
  s.chains ≠ [] ∧ ∀ c ∈ s.chains, c.Readable

namespace Grammar

/-! ### Conditions -/

/-- A condition ends before these characters: another one follows, or the link ends. -/
def endsCondition : List Char → Bool
  | c :: _ => c = '.' || c = '#' || c = ':' || c = '[' || c = ' ' || c = ','
  | [] => true

theorem endsIdent_of_endsCondition {rest : List Char} (h : endsCondition rest = true) :
    endsIdent rest = true ∧ rest.head? ≠ some '(' := by
  unfold endsCondition at h
  split at h
  · simp only [Bool.or_eq_true, decide_eq_true_eq] at h
    rcases h with ((((rfl | rfl) | rfl) | rfl) | rfl) | rfl <;> exact ⟨rfl, by simp⟩
  · exact ⟨rfl, by simp⟩

theorem attributeTest?_text {test : AttributeTest} (h : test ≠ .present) (name : String)
    (value : Option String) (rest : List Char) :
    ∃ cs l, (AttributeSel.text ⟨name, test, value⟩).toList ++ rest
        = '[' :: (Written.ident name.toList ++ cs) ∧
      endsIdent cs = true ∧ cs.head? ≠ some '(' ∧
      Scan.next? cs
        = some (l, Written.string (value.getD "").toList ++ ']' :: rest) ∧
      attributeTest? l = some test ∧ l.isTrivia = false ∧ l.isMark .closeBracket = false := by
  cases test with
  | present => exact absurd rfl h
  | equals =>
    refine ⟨'=' :: (Written.string (value.getD "").toList ++ ']' :: rest), .delim '=', ?_, rfl,
      by simp, rfl, rfl, rfl, rfl⟩
    simp [AttributeSel.text, identText, stringText]
  | includes =>
    refine ⟨'~' :: '=' :: (Written.string (value.getD "").toList ++ ']' :: rest), .mark .includes,
      ?_, rfl, by simp, rfl, rfl, rfl, rfl⟩
    simp [AttributeSel.text, identText, stringText]
  | dashMatch =>
    refine ⟨'|' :: '=' :: (Written.string (value.getD "").toList ++ ']' :: rest), .mark .dashMatch,
      ?_, rfl, by simp, rfl, rfl, rfl, rfl⟩
    simp [AttributeSel.text, identText, stringText]

/-- **A test of an attribute is read back.** -/
theorem attributeSel_text {a : AttributeSel} (h : a.Readable) {rest : List Char} {ts : List Token}
    (hts : TokensOf (a.text.toList ++ rest) ts) :
    ∃ loc us vs, ts = ⟨.mark .openBracket, loc⟩ :: us ∧ attributeSel us = .ok (a, vs) ∧
      TokensOf rest vs := by
  obtain ⟨name, test, value⟩ := a
  obtain ⟨hname, hvalue⟩ := h
  dsimp only at hname hvalue
  by_cases htest : test = .present
  · subst htest
    have htext : (AttributeSel.text ⟨name, .present, value⟩).toList ++ rest
        = '[' :: (Written.ident name.toList ++ ']' :: rest) := by
      simp [AttributeSel.text, identText]
    rw [htext] at hts
    obtain ⟨loc, us, rfl, hus⟩ := hts.next (l := .mark .openBracket) rfl
    obtain ⟨loc1, us1, rfl, hus1⟩ := hus.next (next?_ident hname rfl (by simp))
    obtain ⟨loc2, us2, rfl, hus2⟩ := hus1.next (l := .mark .closeBracket) rfl
    rw [hvalue.1 rfl]
    exact ⟨loc, _, us2, rfl, rfl, hus2⟩
  · obtain ⟨cs, l, htext, hident, hparen, hnext, hread, htrivia, hclose⟩ :=
      attributeTest?_text htest name value rest
    rw [htext] at hts
    obtain ⟨loc, us, rfl, hus⟩ := hts.next (l := .mark .openBracket) rfl
    obtain ⟨loc1, us1, rfl, hus1⟩ := hus.next (next?_ident hname hident hparen)
    obtain ⟨loc2, us2, rfl, hus2⟩ := hus1.next hnext
    obtain ⟨loc3, us3, rfl, hus3⟩ := hus2.next (next?_string _ _)
    obtain ⟨loc4, us4, rfl, hus4⟩ := hus3.next (l := .mark .closeBracket) rfl
    obtain ⟨v, rfl⟩ : ∃ v, value = some v := by
      cases value with
      | none => exact absurd (hvalue.2 rfl) htest
      | some v => exact ⟨v, rfl⟩
    refine ⟨loc, _, us4, rfl, ?_, hus4⟩
    have hskip : skipTrivia (⟨l, loc2⟩ :: ⟨.string v, loc3⟩ :: ⟨.mark .closeBracket, loc4⟩ :: us4)
        = ⟨l, loc2⟩ :: ⟨.string v, loc3⟩ :: ⟨.mark .closeBracket, loc4⟩ :: us4 :=
      List.dropWhile_cons_of_neg (by simp [htrivia])
    have hread' : ident .attributeName (skipTrivia (⟨.ident name, loc1⟩ :: ⟨l, loc2⟩ ::
        ⟨.string v, loc3⟩ :: ⟨.mark .closeBracket, loc4⟩ :: us4))
        = .ok (name, ⟨l, loc2⟩ :: ⟨.string v, loc3⟩ :: ⟨.mark .closeBracket, loc4⟩ :: us4) := rfl
    rw [attributeSel, Option.getD_some, hread']
    dsimp only [bind, Except.bind]
    rw [hskip]
    dsimp only
    rw [hclose, hread]
    rfl

/-- **A name behind a colon is read back.** -/
theorem pseudo_text {p : Pseudo} (h : p.Readable) {rest : List Char}
    (hr : endsCondition rest = true) {ts : List Token} (hts : TokensOf (p.text.toList ++ rest) ts) :
    ∃ loc us vs, ts = ⟨.mark .colon, loc⟩ :: us ∧ pseudo us = .ok (p, vs) ∧ TokensOf rest vs := by
  obtain ⟨name, argument⟩ := p
  obtain ⟨hname, hargument⟩ := h
  dsimp only at hname hargument
  cases argument with
  | none =>
    have htext : (Pseudo.text ⟨name, none⟩).toList ++ rest
        = ':' :: (Written.ident name.toList ++ rest) := by
      simp [Pseudo.text, identText]
    obtain ⟨hident, hparen⟩ := endsIdent_of_endsCondition hr
    rw [htext] at hts
    obtain ⟨loc, us, rfl, hus⟩ := hts.next (l := .mark .colon) rfl
    obtain ⟨loc1, us1, rfl, hus1⟩ := hus.next (next?_ident hname hident hparen)
    exact ⟨loc, _, us1, rfl, rfl, hus1⟩
  | some argument =>
    obtain ⟨harg, hurl⟩ := hargument argument rfl
    have htext : (Pseudo.text ⟨name, some argument⟩).toList ++ rest
        = ':' :: (Written.ident name.toList ++
          '(' :: (Written.ident argument.toList ++ ')' :: rest)) := by
      simp [Pseudo.text, identText]
    rw [htext] at hts
    obtain ⟨loc, us, rfl, hus⟩ := hts.next (l := .mark .colon) rfl
    obtain ⟨loc1, us1, rfl, hus1⟩ := hus.next (next?_function hname (by simp [hurl]))
    obtain ⟨loc2, us2, rfl, hus2⟩ := hus1.next (next?_ident harg rfl (by simp))
    obtain ⟨loc3, us3, rfl, hus3⟩ := hus2.next (l := .mark .closeParen) rfl
    exact ⟨loc, _, us3, rfl, rfl, hus3⟩

/-- **A condition is read back.** -/
theorem condition?_text {c : Condition} (h : c.Readable) {rest : List Char}
    (hr : endsCondition rest = true) {ts : List Token}
    (hts : TokensOf (c.text.toList ++ rest) ts) :
    ∃ us, condition? ts = .ok (some (c, us)) ∧ TokensOf rest us := by
  obtain ⟨hident, hparen⟩ := endsIdent_of_endsCondition hr
  cases c with
  | className name =>
    have htext : (Condition.className name).text.toList ++ rest
        = '.' :: (Written.ident name.toList ++ rest) := by
      simp [Condition.text, identText]
    rw [htext] at hts
    have hdigit := startsDigit_of_startsName (startsName_ident (IsName.toList_ne_nil h) rest)
    obtain ⟨loc, us, rfl, hus⟩ := hts.next (next?_point hdigit)
    obtain ⟨loc1, us1, rfl, hus1⟩ := hus.next (next?_ident h hident hparen)
    exact ⟨us1, rfl, hus1⟩
  | id name =>
    have htext : (Condition.id name).text.toList ++ rest
        = '#' :: (Written.ident name.toList ++ rest) := by
      simp [Condition.text, identText]
    rw [htext] at hts
    obtain ⟨loc, us, rfl, hus⟩ := hts.next (next?_idHash h (endsName_of_endsIdent hident))
    exact ⟨us, rfl, hus⟩
  | pseudo p =>
    obtain ⟨loc, us, vs, rfl, hp, hvs⟩ := pseudo_text h hr hts
    refine ⟨vs, ?_, hvs⟩
    rw [condition?]
    dsimp only
    rw [hp]
    rfl
  | attributes tests =>
    obtain ⟨a, rfl, ha⟩ := h
    have htext : (Condition.attributes [a]).text = a.text := by
      simp [Condition.text]
    rw [htext] at hts
    obtain ⟨loc, us, vs, rfl, hsel, hvs⟩ := attributeSel_text ha hts
    refine ⟨vs, ?_, hvs⟩
    rw [condition?]
    dsimp only
    rw [hsel]
    rfl

def conditionsText (cs : List Condition) : String :=
  String.join (cs.map Condition.text)

theorem conditionsText_joinCondition (c : Condition) (cs : List Condition) :
    conditionsText (joinCondition c cs) = c.text ++ conditionsText cs := by
  unfold joinCondition
  split
  · simp [conditionsText, Condition.text, String.append_assoc]
  · simp [conditionsText]

theorem endsCondition_text {c : Condition} (h : c.Readable) (rest : List Char) :
    endsCondition (c.text.toList ++ rest) = true := by
  cases c with
  | className name => simp [Condition.text, endsCondition]
  | id name => simp [Condition.text, endsCondition]
  | pseudo p => simp [Condition.text, Pseudo.text, endsCondition]
  | attributes tests =>
    obtain ⟨a, rfl, _⟩ := h
    simp [Condition.text, AttributeSel.text, endsCondition]

theorem endsCondition_conditions {cs : List Condition} (h : Condition.Joined cs) {rest : List Char}
    (hr : endsCondition rest = true) :
    endsCondition ((conditionsText cs).toList ++ rest) = true := by
  cases h with
  | nil => exact hr
  | cons hc _ =>
    rw [conditionsText_joinCondition, String.toList_append, List.append_assoc]
    exact endsCondition_text hc _

/-- **Conditions are read back** up to a token that begins none. -/
theorem conditions_text {cs : List Condition} (h : Condition.Joined cs) {rest : List Char}
    (hr : endsCondition rest = true) (hstop : ∀ us, TokensOf rest us → condition? us = .ok none)
    {ts : List Token} (hts : TokensOf ((conditionsText cs).toList ++ rest) ts) :
    ∃ us, conditions ts = .ok (cs, us) ∧ TokensOf rest us := by
  induction h generalizing ts with
  | nil =>
    refine ⟨ts, ?_, hts⟩
    rw [conditions_eq, hstop ts hts]
  | @cons c cs hc hcs ih =>
    rw [conditionsText_joinCondition, String.toList_append, List.append_assoc] at hts
    obtain ⟨us, hcond, hus⟩ := condition?_text hc (endsCondition_conditions hcs hr) hts
    obtain ⟨vs, hmore, hvs⟩ := ih hus
    refine ⟨vs, ?_, hvs⟩
    rw [conditions_eq, hcond]
    dsimp only
    rw [hmore]
    rfl

/-! ### Links -/

/-- A link ends before these characters: at a blank, at a comma or at the end. -/
def endsLink : List Char → Bool
  | c :: _ => c = ' ' || c = ','
  | [] => true

theorem endsCondition_of_endsLink {rest : List Char} (h : endsLink rest = true) :
    endsCondition rest = true := by
  unfold endsLink at h
  split at h
  · rw [Bool.or_eq_true, decide_eq_true_eq, decide_eq_true_eq] at h
    rcases h with rfl | rfl <;> rfl
  · rfl

theorem condition?_of_endsLink {rest : List Char} (h : endsLink rest = true) {us : List Token}
    (hus : TokensOf rest us) : condition? us = .ok none := by
  unfold endsLink at h
  split at h
  · next c cs =>
    rw [Bool.or_eq_true, decide_eq_true_eq, decide_eq_true_eq] at h
    rcases h with rfl | rfl
    · obtain ⟨loc, vs, rfl, _⟩ := hus.next (next?_blank rfl cs)
      rfl
    · obtain ⟨loc, vs, rfl, _⟩ := hus.next (l := .mark .comma) rfl
      rfl
  · rw [hus.eq_nil]
    rfl

theorem elementName?_of_condition? {ts : List Token} {r : Condition × List Token}
    (h : condition? ts = .ok (some r)) : elementName? ts = none := by
  unfold condition? at h
  split at h
  · rfl
  · split at h
    · next hc =>
      rw [hc]
      rfl
    · cases h
  · rfl
  · rfl
  · cases h

section Links

variable {cs : List Condition} {combinator : Combinator} {rest : List Char} {ts : List Token}

theorem link_text_name {name : String} (hname : IsName name) (hcs : Condition.Joined cs)
    (hr : endsLink rest = true)
    (hts : TokensOf ((Link.text ⟨some name, cs, combinator⟩).toList ++ rest) ts) :
    ∃ us, link combinator ts = .ok (⟨some name, cs, combinator⟩, us) ∧ TokensOf rest us := by
  have hrc := endsCondition_of_endsLink hr
  have htext : (Link.text ⟨some name, cs, combinator⟩).toList ++ rest
      = Written.ident name.toList ++ ((conditionsText cs).toList ++ rest) := by
    simp [Link.text, identText, conditionsText]
  obtain ⟨hident, hparen⟩ := endsIdent_of_endsCondition (endsCondition_conditions hcs hrc)
  rw [htext] at hts
  obtain ⟨loc, us, rfl, hus⟩ := hts.next (next?_ident hname hident hparen)
  obtain ⟨vs, hconds, hvs⟩ :=
    conditions_text hcs hrc (fun us hus => condition?_of_endsLink hr hus) hus
  refine ⟨vs, ?_, hvs⟩
  show (conditions us >>= _) = _
  rw [hconds]
  rfl

theorem link_text_any (hr : endsLink rest = true)
    (hts : TokensOf ((Link.text ⟨none, [], combinator⟩).toList ++ rest) ts) :
    ∃ us, link combinator ts = .ok (⟨none, [], combinator⟩, us) ∧ TokensOf rest us := by
  have htext : (Link.text ⟨none, [], combinator⟩).toList ++ rest = '*' :: rest := by
    simp [Link.text]
  rw [htext] at hts
  obtain ⟨loc, us, rfl, hus⟩ := hts.next (l := .delim '*') rfl
  obtain ⟨vs, hconds, hvs⟩ := conditions_text .nil (endsCondition_of_endsLink hr)
    (fun us hus => condition?_of_endsLink hr hus) hus
  refine ⟨vs, ?_, hvs⟩
  show (conditions us >>= _) = _
  rw [hconds]
  rfl

/-- A link without a name that has conditions. -/
theorem link_text_conditions {c : Condition} (hc : c.Readable) (hcs : Condition.Joined cs)
    (hr : endsLink rest = true)
    (hts : TokensOf ((Link.text ⟨none, joinCondition c cs, combinator⟩).toList ++ rest) ts) :
    ∃ us, link combinator ts = .ok (⟨none, joinCondition c cs, combinator⟩, us) ∧
      TokensOf rest us := by
  have hrc := endsCondition_of_endsLink hr
  have hjoined : (joinCondition c cs).isEmpty = false := by
    unfold joinCondition
    split <;> rfl
  have htext : (Link.text ⟨none, joinCondition c cs, combinator⟩).toList ++ rest
      = (conditionsText (joinCondition c cs)).toList ++ rest := by
    simp only [Link.text, hjoined]
    simp [conditionsText]
  rw [htext] at hts
  have hts' := hts
  rw [conditionsText_joinCondition, String.toList_append, List.append_assoc] at hts'
  obtain ⟨us, hcond, hus⟩ := condition?_text hc (endsCondition_conditions hcs hrc) hts'
  obtain ⟨vs, hconds, hvs⟩ :=
    conditions_text (.cons hc hcs) hrc (fun us hus => condition?_of_endsLink hr hus) hts
  refine ⟨vs, ?_, hvs⟩
  rw [link, elementName?_of_condition? hcond]
  dsimp only
  rw [hconds]
  dsimp only [bind, Except.bind]
  rw [hjoined]
  rfl

/-- **A link is read back** behind its combinator. -/
theorem link_text {l : Link} (h : l.Readable) (hr : endsLink rest = true)
    (hts : TokensOf (l.text.toList ++ rest) ts) :
    ∃ us, link l.combinator ts = .ok (l, us) ∧ TokensOf rest us := by
  obtain ⟨name, cs, combinator⟩ := l
  obtain ⟨hname, hcs⟩ := h
  cases name with
  | some name => exact link_text_name (hname name rfl) hcs hr hts
  | none =>
    cases hcs with
    | nil => exact link_text_any hr hts
    | cons hc hcs => exact link_text_conditions hc hcs hr hts

end Links

/-! ### Chains -/

def startsLink : Lexeme → Bool
  | .ident _ | .hash _ _ | .mark .openBracket | .mark .colon => true
  | .delim c => c = '*' || c = '.'
  | _ => false

theorem startsLink_of_condition? {ts : List Token} {r : Condition × List Token}
    (h : condition? ts = .ok (some r)) :
    ∃ t us, ts = t :: us ∧ startsLink t.lexeme = true := by
  unfold condition? at h
  split at h
  · exact ⟨_, _, rfl, rfl⟩
  · split at h
    · next hc =>
      rw [hc]
      exact ⟨_, _, rfl, rfl⟩
    · cases h
  · exact ⟨_, _, rfl, rfl⟩
  · exact ⟨_, _, rfl, rfl⟩
  · cases h

theorem startsLink_of_link {c : Combinator} {ts : List Token} {r : Link × List Token}
    (h : link c ts = .ok r) : ∃ t us, ts = t :: us ∧ startsLink t.lexeme = true := by
  rw [link] at h
  split at h
  · next name rest hname =>
    unfold elementName? at hname
    split at hname
    · exact ⟨_, _, rfl, rfl⟩
    · split at hname
      · next hc =>
        rw [hc]
        exact ⟨_, _, rfl, rfl⟩
      · cases hname
    · cases hname
  · obtain ⟨⟨cs, final⟩, hconds, h⟩ := bind_eq_ok h
    rw [conditions_eq] at hconds
    split at hconds
    · cases hconds
    · cases hconds
      cases h
    · next hcond => exact startsLink_of_condition? hcond

/-- What begins a link is neither trivia nor a combinator nor the end of a chain. -/
theorem startsLink_ne {l : Lexeme} (h : startsLink l = true) :
    l.isTrivia = false ∧ l.isDelim '+' = false ∧ l.isDelim '>' = false ∧
      l.isMark .comma = false ∧ l.isMark .openBrace = false := by
  cases l with
  | delim c =>
    rw [startsLink] at h
    rw [Bool.or_eq_true, decide_eq_true_eq, decide_eq_true_eq] at h
    rcases h with rfl | rfl <;> exact ⟨rfl, rfl, rfl, rfl, rfl⟩
  | mark m => cases m <;> first | exact ⟨rfl, rfl, rfl, rfl, rfl⟩ | cases h
  | _ => first | exact ⟨rfl, rfl, rfl, rfl, rfl⟩ | cases h

theorem skipTrivia_of_startsLink {t : Token} (h : startsLink t.lexeme = true) (us : List Token) :
    skipTrivia (t :: us) = t :: us :=
  List.dropWhile_cons_of_neg (by simp [(startsLink_ne h).1])

theorem dropWhile_isBlank_of_startsLink {cs : List Char}
    (h : ∀ us, TokensOf cs us → ∃ t vs, us = t :: vs ∧ startsLink t.lexeme = true) :
    cs.dropWhile isBlank = cs := by
  refine TokensOf.dropWhile_isBlank fun us hus => ?_
  obtain ⟨t, vs, heq, ht⟩ := h us hus
  refine ⟨t, vs, heq, ?_⟩
  intro hw
  rw [hw] at ht
  cases ht

/-- **A combinator is read back** before a link. -/
theorem combinator?_text {c : Combinator} (hc : c ≠ .first) {cs : List Char} {ts : List Token}
    (hcs : ∀ us, TokensOf cs us → ∃ t vs, us = t :: vs ∧ startsLink t.lexeme = true)
    (h : TokensOf (c.text.toList ++ cs) ts) :
    ∃ us, combinator? ts = .ok (some (c, us)) ∧ TokensOf cs us := by
  have hblank := dropWhile_isBlank_of_startsLink hcs
  cases c with
  | first => exact absurd rfl hc
  | descendant =>
    obtain ⟨loc, us, rfl, hus⟩ := TokensOf.blank (c := ' ') h rfl hblank
    obtain ⟨t, vs, rfl, ht⟩ := hcs us hus
    obtain ⟨_, hplus, hgt, hcomma, hbrace⟩ := startsLink_ne ht
    have hskip : skipTrivia (⟨.whitespace, loc⟩ :: t :: vs) = t :: vs :=
      skipTrivia_of_startsLink ht vs
    have hspaced : spaced (⟨.whitespace, loc⟩ :: t :: vs) = true := rfl
    refine ⟨t :: vs, ?_, hus⟩
    rw [combinator?]
    rw [hskip]
    dsimp only
    rw [hplus, hgt, hcomma, hbrace, hspaced]
    rfl
  | child =>
    obtain ⟨loc, us, rfl, hus⟩ :=
      (show TokensOf (' ' :: '>' :: ' ' :: cs) _ from h).blank rfl rfl
    obtain ⟨loc1, us1, rfl, hus1⟩ := hus.next (l := .delim '>') rfl
    obtain ⟨loc2, us2, rfl, hus2⟩ := hus1.blank rfl hblank
    obtain ⟨t, vs, rfl, ht⟩ := hcs us2 hus2
    refine ⟨t :: vs, ?_, hus2⟩
    show Except.ok (some (Combinator.child, skipTrivia (t :: vs))) = _
    rw [skipTrivia_of_startsLink ht]
  | adjacent =>
    obtain ⟨loc, us, rfl, hus⟩ :=
      (show TokensOf (' ' :: '+' :: ' ' :: cs) _ from h).blank rfl rfl
    obtain ⟨loc1, us1, rfl, hus1⟩ := hus.next (l := .delim '+') rfl
    obtain ⟨loc2, us2, rfl, hus2⟩ := hus1.blank rfl hblank
    obtain ⟨t, vs, rfl, ht⟩ := hcs us2 hus2
    refine ⟨t :: vs, ?_, hus2⟩
    show Except.ok (some (Combinator.adjacent, skipTrivia (t :: vs))) = _
    rw [skipTrivia_of_startsLink ht]

def moreLinksText (ls : List Link) : String :=
  String.join (ls.map fun l => l.combinator.text ++ l.text)

theorem endsLink_moreLinks {ls : List Link} (h : ∀ l ∈ ls, l.combinator ≠ .first) {rest : List Char}
    (hr : endsLink rest = true) : endsLink ((moreLinksText ls).toList ++ rest) = true := by
  cases ls with
  | nil => exact hr
  | cons l ls =>
    have hl := h l (by simp)
    simp only [moreLinksText, List.map_cons, String.join_cons, String.toList_append,
      List.append_assoc]
    cases hc : l.combinator <;> rfl

/-- **The links behind the first one are read back**, up to what ends the chain. -/
theorem moreLinks_text {ls : List Link} (h : ∀ l ∈ ls, l.Readable ∧ l.combinator ≠ .first)
    {rest : List Char} (hr : endsLink rest = true)
    (hstop : ∀ us, TokensOf rest us → combinator? us = .ok none) {ts : List Token}
    (hts : TokensOf ((moreLinksText ls).toList ++ rest) ts) :
    ∃ us, moreLinks ts = .ok (ls, skipTrivia us) ∧ TokensOf rest us := by
  induction ls generalizing ts with
  | nil =>
    refine ⟨ts, ?_, hts⟩
    rw [moreLinks_eq, hstop ts hts]
  | cons l ls ih =>
    obtain ⟨hl, hc⟩ := h l (by simp)
    have hls : ∀ k ∈ ls, k.Readable ∧ k.combinator ≠ .first := fun k hk => h k (by simp [hk])
    have hend := endsLink_moreLinks (fun k hk => (hls k hk).2) hr
    have hlink : ∀ us, TokensOf (l.text.toList ++ ((moreLinksText ls).toList ++ rest)) us →
        ∃ vs, link l.combinator us = .ok (l, vs) ∧
          TokensOf ((moreLinksText ls).toList ++ rest) vs :=
      fun us hus => link_text hl hend hus
    have htext : (moreLinksText (l :: ls)).toList ++ rest
        = l.combinator.text.toList ++ (l.text.toList ++ ((moreLinksText ls).toList ++ rest)) := by
      simp [moreLinksText]
    rw [htext] at hts
    obtain ⟨us, hcomb, hus⟩ := combinator?_text hc (fun us hus => by
      obtain ⟨vs, hlink, _⟩ := hlink us hus
      exact startsLink_of_link hlink) hts
    obtain ⟨vs, hlink, hvs⟩ := hlink us hus
    obtain ⟨ws, hmore, hws⟩ := ih hls hvs
    refine ⟨ws, ?_, hws⟩
    rw [moreLinks_eq, hcomb]
    dsimp only
    rw [hlink]
    dsimp only [bind, Except.bind]
    rw [hmore]

/-- **A chain is read back**, up to what ends it. -/
theorem chain_text {c : Chain} (h : c.Readable) {rest : List Char} (hr : endsLink rest = true)
    (hstop : ∀ us, TokensOf rest us → combinator? us = .ok none) {ts : List Token}
    (hts : TokensOf (c.text.toList ++ rest) ts) :
    ∃ us, chain ts = .ok (c, skipTrivia us) ∧ TokensOf rest us := by
  obtain ⟨links⟩ := c
  obtain ⟨l, ls, rfl, hl, hfirst, hls⟩ := h
  have htext : (Chain.text ⟨l :: ls⟩).toList ++ rest
      = l.text.toList ++ ((moreLinksText ls).toList ++ rest) := by
    simp [Chain.text, moreLinksText]
  rw [htext] at hts
  obtain ⟨us, hlink, hus⟩ := link_text hl (endsLink_moreLinks (fun k hk => (hls k hk).2) hr) hts
  obtain ⟨vs, hmore, hvs⟩ := moreLinks_text hls hr hstop hus
  rw [hfirst] at hlink
  refine ⟨vs, ?_, hvs⟩
  rw [chain]
  rw [hlink]
  dsimp only [bind, Except.bind]
  rw [hmore]

/-! ### Groups of chains -/

theorem startsLink_of_chain {ts : List Token} {r : Chain × List Token} (h : chain ts = .ok r) :
    ∃ t us, ts = t :: us ∧ startsLink t.lexeme = true := by
  obtain ⟨⟨l, rest⟩, hl, _⟩ := bind_eq_ok h
  exact startsLink_of_link hl

theorem startsLink_of_chains {ts : List Token} {r : List Chain × List Token}
    (h : chains ts = .ok r) : ∃ t us, ts = t :: us ∧ startsLink t.lexeme = true := by
  rw [chains_eq] at h
  split at h
  · cases h
  · next hchain => exact startsLink_of_chain hchain
  · next hchain => exact startsLink_of_chain hchain

def chainsText (cs : List Chain) : String :=
  String.intercalate ", " (cs.map Chain.text)

/-- **Chains are read back** up to what ends the last of them, if this is no comma. -/
theorem chains_text_append {cs : List Chain} (hne : cs ≠ []) (h : ∀ c ∈ cs, c.Readable)
    {rest : List Char} (hr : endsLink rest = true)
    (hstop : ∀ us, TokensOf rest us → combinator? us = .ok none)
    (hcomma : ∀ us, TokensOf rest us → ∀ loc vs, skipTrivia us ≠ ⟨.mark .comma, loc⟩ :: vs)
    {ts : List Token} (hts : TokensOf ((chainsText cs).toList ++ rest) ts) :
    ∃ us, chains ts = .ok (cs, skipTrivia us) ∧ TokensOf rest us := by
  induction cs generalizing ts with
  | nil => exact absurd rfl hne
  | cons c cs ih =>
    have hc := h c (by simp)
    cases cs with
    | nil =>
      have htext : (chainsText [c]).toList = c.text.toList := by
        simp [chainsText]
      rw [htext] at hts
      obtain ⟨us, hchain, hus⟩ := chain_text hc hr hstop hts
      refine ⟨us, ?_, hus⟩
      rw [chains_eq, hchain]
      split
      · next heq => cases heq
      · next heq =>
        exact absurd (congrArg Prod.snd (Except.ok.inj heq)) (hcomma us hus _ _)
      · next heq =>
        cases heq
        rfl
    | cons d ds =>
      have htext : (chainsText (c :: d :: ds)).toList ++ rest
          = c.text.toList ++ ',' :: ' ' :: ((chainsText (d :: ds)).toList ++ rest) := by
        simp [chainsText, String.intercalate_cons_cons]
      rw [htext] at hts
      have hmore : ∀ us, TokensOf ((chainsText (d :: ds)).toList ++ rest) us →
          ∃ vs, chains us = .ok (d :: ds, skipTrivia vs) ∧ TokensOf rest vs :=
        fun us hus => ih (by simp) (fun e he => h e (by simp [he])) hus
      have hstart : ∀ us, TokensOf ((chainsText (d :: ds)).toList ++ rest) us →
          ∃ t vs, us = t :: vs ∧ startsLink t.lexeme = true := by
        intro us hus
        obtain ⟨vs, hchains, _⟩ := hmore us hus
        exact startsLink_of_chains hchains
      have hend : ∀ us, TokensOf (',' :: ' ' :: ((chainsText (d :: ds)).toList ++ rest)) us →
          combinator? us = .ok none := by
        intro us hus
        obtain ⟨loc, vs, rfl, _⟩ := hus.next (l := .mark .comma) rfl
        rfl
      obtain ⟨us, hchain, hus⟩ := chain_text hc rfl hend hts
      obtain ⟨loc, vs, rfl, hvs⟩ := hus.next (l := .mark .comma) rfl
      obtain ⟨loc', ws, rfl, hws⟩ := hvs.blank rfl (dropWhile_isBlank_of_startsLink hstart)
      obtain ⟨xs, hchains, hxs⟩ := hmore ws hws
      obtain ⟨t, ys, rfl, ht⟩ := hstart ws hws
      refine ⟨xs, ?_, hxs⟩
      rw [chains_eq, hchain]
      show (chains (skipTrivia (t :: ys)) >>= _) = _
      rw [skipTrivia_of_startsLink ht, hchains]
      rfl

/-- **A selector is read back** up to the brace that opens a block. -/
theorem selector_text {s : Selector} (h : s.Readable) {rest : List Char} {ts : List Token}
    (hts : TokensOf (s.text.toList ++ ' ' :: '\x7b' :: rest) ts) :
    ∃ loc us, selector ts = .ok (s, ⟨.mark .openBrace, loc⟩ :: us) ∧ TokensOf rest us := by
  have hbrace : ∀ us, TokensOf (' ' :: '\x7b' :: rest) us →
      ∃ loc vs, skipTrivia us = ⟨.mark .openBrace, loc⟩ :: vs ∧ combinator? us = .ok none ∧
        TokensOf rest vs := by
    intro us hus
    obtain ⟨_, loc, vs, rfl, hvs⟩ := hus.openBrace
    exact ⟨loc, vs, rfl, rfl, hvs⟩
  obtain ⟨us, hchains, hus⟩ := chains_text_append h.1 h.2 rfl
    (fun us hus => (hbrace us hus).choose_spec.choose_spec.2.1)
    (fun us hus _ _ heq => by
      obtain ⟨_, _, hskip, -⟩ := hbrace us hus
      cases hskip.symm.trans heq) hts
  obtain ⟨loc, vs, hskip, -, hvs⟩ := hbrace us hus
  refine ⟨loc, vs, ?_, hvs⟩
  rw [selector, hchains, hskip]
  rfl

/-- **A selector that is a whole text is read back.** -/
theorem selector_text_end {s : Selector} (h : s.Readable) {ts : List Token}
    (hts : TokensOf s.text.toList ts) : selector ts = .ok (s, []) := by
  rw [← List.append_nil s.text.toList] at hts
  obtain ⟨us, hchains, hus⟩ := chains_text_append h.1 h.2 rfl
    (fun us hus => by rw [hus.eq_nil]; rfl)
    (fun us hus _ _ heq => by rw [hus.eq_nil] at heq; cases heq) hts
  rw [selector, hchains, hus.eq_nil]
  rfl

theorem startsLink_of_selector {ts : List Token} {r : Selector × List Token}
    (h : selector ts = .ok r) : ∃ t us, ts = t :: us ∧ startsLink t.lexeme = true := by
  obtain ⟨⟨cs, rest⟩, hcs, _⟩ := bind_eq_ok h
  exact startsLink_of_chains hcs

end Grammar

end Css2
