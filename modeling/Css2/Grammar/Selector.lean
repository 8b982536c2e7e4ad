import Css2.Grammar.Basic
import Css2.Selector.Basic

/-! # The grammar of selectors

    selector  : chain [ ',' S* chain ]*
    chain     : link [ combinator link ]*
    combinator: S* [ '+' | '>' ] S* | S
    link      : [ IDENT | '*' ] condition* | condition+
    condition : HASH | '.' IDENT | ':' [ IDENT | FUNCTION S* IDENT S* ')' ]
              | '[' S* IDENT S* [ [ '=' | INCLUDES | DASHMATCH ] S* [ IDENT | STRING ] S* ]? ']'

A selector ends at a comma, an opening brace or the end of the text.
-/

namespace Css2

namespace Grammar

/-! ### Conditions -/

def attributeTest? : Lexeme → Option AttributeTest
  | .delim c => if c = '=' then some .equals else none
  | .mark .includes => some .includes
  | .mark .dashMatch => some .dashMatch
  | _ => none

def attributeValue (ts : List Token) : Except Failure (String × List Token) :=
  match ts with
  | ⟨.ident value, _⟩ :: rest => .ok (value, rest)
  | ⟨.string value, _⟩ :: rest => .ok (value, rest)
  | _ => .error (missing .attributeValue ts)

/-- Reads a test of an attribute behind its opening bracket. -/
def attributeSel (ts : List Token) : Except Failure (AttributeSel × List Token) := do
  let (name, ts) ← ident .attributeName (skipTrivia ts)
  match skipTrivia ts with
  | [] => .error (missing .attributeTest [])
  | t :: rest =>
    if t.lexeme.isMark .closeBracket then .ok (⟨name, .present, none⟩, rest)
    else match attributeTest? t.lexeme with
      | none => .error (missing .attributeTest (t :: rest))
      | some test => do
        let (value, ts) ← attributeValue (skipTrivia rest)
        let rest ← expect .closeBracket (skipTrivia ts)
        .ok (⟨name, test, some value⟩, rest)

/-- Reads a pseudo-class or a pseudo-element behind its colon. -/
def pseudo (ts : List Token) : Except Failure (Pseudo × List Token) :=
  match ts with
  | ⟨.ident name, _⟩ :: rest => .ok (⟨name, none⟩, rest)
  | ⟨.function name, _⟩ :: rest => do
    let (argument, ts) ← ident .pseudoArgument (skipTrivia rest)
    let rest ← expect .closeParen (skipTrivia ts)
    .ok (⟨name, some argument⟩, rest)
  | _ => .error (missing .pseudoName ts)

/-- Reads one condition, or nothing if the next token does not begin one. -/
def condition? (ts : List Token) : Except Failure (Option (Condition × List Token)) :=
  match ts with
  | ⟨.hash name isIdent, _⟩ :: rest =>
    if isIdent then .ok (some (.id name, rest)) else .error (missing .idName ts)
  | ⟨.delim c, _⟩ :: rest =>
    if c = '.' then do
      let (name, rest) ← ident .className rest
      .ok (some (.className name, rest))
    else .ok none
  | ⟨.mark .openBracket, _⟩ :: rest => do
    let (test, rest) ← attributeSel rest
    .ok (some (.attributes [test], rest))
  | ⟨.mark .colon, _⟩ :: rest => do
    let (p, rest) ← pseudo rest
    .ok (some (.pseudo p, rest))
  | _ => .ok none

theorem attributeValue_lt {ts rest : List Token} {value : String}
    (h : attributeValue ts = .ok (value, rest)) : rest.length < ts.length := by
  unfold attributeValue at h
  split at h
  · cases h
    exact Nat.lt_succ_self _
  · cases h
    exact Nat.lt_succ_self _
  · cases h

theorem attributeSel_lt {ts rest : List Token} {a : AttributeSel}
    (h : attributeSel ts = .ok (a, rest)) : rest.length < ts.length := by
  unfold attributeSel at h
  obtain ⟨⟨name, us⟩, hi, h⟩ := bind_eq_ok h
  have h1 := skipTrivia_le ts
  have h2 := ident_lt hi
  have h3 := skipTrivia_le us
  dsimp only at h
  split at h
  · cases h
  · next t vs heq =>
    rw [heq, List.length_cons] at h3
    split at h
    · cases h
      omega
    · split at h
      · cases h
      · obtain ⟨⟨value, ws⟩, hv, h⟩ := bind_eq_ok h
        obtain ⟨xs, he, h⟩ := bind_eq_ok h
        dsimp only at he
        cases h
        have h4 := skipTrivia_le vs
        have h5 := attributeValue_lt hv
        have h6 := skipTrivia_le ws
        have h7 := expect_lt he
        omega

theorem pseudo_lt {ts rest : List Token} {p : Pseudo}
    (h : pseudo ts = .ok (p, rest)) : rest.length < ts.length := by
  unfold pseudo at h
  split at h
  · cases h
    exact Nat.lt_succ_self _
  · next name loc tail =>
    obtain ⟨⟨argument, us⟩, hi, h⟩ := bind_eq_ok h
    obtain ⟨xs, he, h⟩ := bind_eq_ok h
    cases h
    have h1 := skipTrivia_le tail
    have h2 := ident_lt hi
    have h3 := skipTrivia_le us
    have h4 := expect_lt he
    simp only [List.length_cons]
    omega
  · cases h

theorem condition?_lt {ts rest : List Token} {c : Condition}
    (h : condition? ts = .ok (some (c, rest))) : rest.length < ts.length := by
  unfold condition? at h
  split at h
  · split at h
    · cases h
      exact Nat.lt_succ_self _
    · cases h
  · split at h
    · obtain ⟨⟨name, us⟩, hi, h⟩ := bind_eq_ok h
      cases h
      exact Nat.lt_succ_of_lt (ident_lt hi)
    · cases h
  · obtain ⟨⟨a, us⟩, ha, h⟩ := bind_eq_ok h
    cases h
    exact Nat.lt_succ_of_lt (attributeSel_lt ha)
  · obtain ⟨⟨p, us⟩, hp, h⟩ := bind_eq_ok h
    cases h
    exact Nat.lt_succ_of_lt (pseudo_lt hp)
  · cases h

/-- Puts a condition in front of others.  Tests of attributes that follow one upon the other become
one condition. -/
def joinCondition : Condition → List Condition → List Condition
  | .attributes tests, .attributes more :: cs => .attributes (tests ++ more) :: cs
  | c, cs => c :: cs

def conditions (ts : List Token) : Except Failure (List Condition × List Token) :=
  match _h : condition? ts with
  | .error e => .error e
  | .ok none => .ok ([], ts)
  | .ok (some (c, rest)) => do
    let (cs, final) ← conditions rest
    .ok (joinCondition c cs, final)
termination_by ts.length
decreasing_by exact condition?_lt _h

/-- Conditions, as an equation. -/
theorem conditions_eq (ts : List Token) :
    conditions ts = (match condition? ts with
      | .error e => .error e
      | .ok none => .ok ([], ts)
      | .ok (some (c, rest)) => do
        let (cs, final) ← conditions rest
        .ok (joinCondition c cs, final)) := by
  rw [conditions]
  split <;> (next h => rw [h])

theorem conditions_le {ts rest : List Token} {cs : List Condition}
    (h : conditions ts = .ok (cs, rest)) : rest.length ≤ ts.length := by
  fun_induction conditions ts generalizing cs rest with
  | case1 => cases h
  | case2 =>
    cases h
    exact Nat.le_refl _
  | case3 ts c us hc ih =>
    obtain ⟨⟨ds, final⟩, hr, h⟩ := bind_eq_ok h
    cases h
    exact Nat.le_trans (ih hr) (Nat.le_of_lt (condition?_lt hc))

/-- Where conditions are read, at least one token is. -/
theorem conditions_lt {ts rest : List Token} {c : Condition} {cs : List Condition}
    (h : conditions ts = .ok (c :: cs, rest)) : rest.length < ts.length := by
  rw [conditions] at h
  split at h
  · cases h
  · cases h
  · next d us hd =>
    obtain ⟨⟨ds, final⟩, hr, h⟩ := bind_eq_ok h
    simp only [Except.ok.injEq, Prod.mk.injEq] at h
    obtain ⟨_, rfl⟩ := h
    exact Nat.lt_of_le_of_lt (conditions_le hr) (condition?_lt hd)

/-! ### Links -/

/-- Reads the name that a link may begin with: an identifier, or an asterisk for any element. -/
def elementName? (ts : List Token) : Option (Option String × List Token) :=
  match ts with
  | ⟨.ident name, _⟩ :: rest => some (some name, rest)
  | ⟨.delim c, _⟩ :: rest => if c = '*' then some (none, rest) else none
  | _ => none

def link (combinator : Combinator) (ts : List Token) : Except Failure (Link × List Token) :=
  match elementName? ts with
  | some (name, rest) => do
    let (cs, final) ← conditions rest
    .ok (⟨name, cs, combinator⟩, final)
  | none => do
    let (cs, final) ← conditions ts
    if cs.isEmpty then .error (missing .selector ts)
    else .ok (⟨none, cs, combinator⟩, final)

theorem elementName?_lt {ts rest : List Token} {name : Option String}
    (h : elementName? ts = some (name, rest)) : rest.length < ts.length := by
  unfold elementName? at h
  split at h
  · cases h
    exact Nat.lt_succ_self _
  · split at h
    · cases h
      exact Nat.lt_succ_self _
    · cases h
  · cases h

theorem link_lt {combinator : Combinator} {ts rest : List Token} {l : Link}
    (h : link combinator ts = .ok (l, rest)) : rest.length < ts.length := by
  unfold link at h
  split at h
  · next name us hname =>
    obtain ⟨⟨cs, final⟩, hr, h⟩ := bind_eq_ok h
    cases h
    exact Nat.lt_of_le_of_lt (conditions_le hr) (elementName?_lt hname)
  · obtain ⟨⟨cs, final⟩, hr, h⟩ := bind_eq_ok h
    match cs, hr, h with
    | [], _, h => cases h
    | c :: cs, hr, h =>
      cases h
      exact conditions_lt hr

/-! ### Chains and groups -/

/-- Reads what joins a link to the next one, or nothing if the chain ends. -/
def combinator? (ts : List Token) : Except Failure (Option (Combinator × List Token)) :=
  match skipTrivia ts with
  | [] => .ok none
  | t :: rest =>
    if t.lexeme.isDelim '+' then .ok (some (.adjacent, skipTrivia rest))
    else if t.lexeme.isDelim '>' then .ok (some (.child, skipTrivia rest))
    else if t.lexeme.isMark .comma || t.lexeme.isMark .openBrace then .ok none
    else if spaced ts then .ok (some (.descendant, t :: rest))
    else .error (missing .combinator (t :: rest))

theorem combinator?_le {ts rest : List Token} {c : Combinator}
    (h : combinator? ts = .ok (some (c, rest))) : rest.length ≤ ts.length := by
  have hs := skipTrivia_le ts
  unfold combinator? at h
  split at h
  · cases h
  · next t us heq =>
    rw [heq] at hs
    have := skipTrivia_le us
    simp only [List.length_cons] at hs
    split at h
    · cases h; omega
    · split at h
      · cases h; omega
      · split at h
        · cases h
        · split at h
          · cases h; exact hs
          · cases h

/-- Reads the links behind the first one, with the trivia behind them. -/
def moreLinks (ts : List Token) : Except Failure (List Link × List Token) :=
  match _hc : combinator? ts with
  | .error e => .error e
  | .ok none => .ok ([], skipTrivia ts)
  | .ok (some (c, rest)) =>
    match _hl : link c rest with
    | .error e => .error e
    | .ok (l, rest) => do
      let (ls, final) ← moreLinks rest
      .ok (l :: ls, final)
termination_by ts.length
decreasing_by exact Nat.lt_of_lt_of_le (link_lt _hl) (combinator?_le _hc)

/-- The links behind the first one, as an equation. -/
theorem moreLinks_eq (ts : List Token) :
    moreLinks ts = (match combinator? ts with
      | .error e => .error e
      | .ok none => .ok ([], skipTrivia ts)
      | .ok (some (c, rest)) => do
        let (l, rest) ← link c rest
        let (ls, final) ← moreLinks rest
        .ok (l :: ls, final)) := by
  rw [moreLinks]
  split
  · next h => rw [h]
  · next h => rw [h]
  · next c rest h =>
    rw [h]
    dsimp only
    split <;> (next h' => rw [h']; rfl)

theorem moreLinks_le {ts rest : List Token} {ls : List Link}
    (h : moreLinks ts = .ok (ls, rest)) : rest.length ≤ ts.length := by
  fun_induction moreLinks ts generalizing ls rest with
  | case1 => cases h
  | case2 ts =>
    cases h
    exact skipTrivia_le ts
  | case3 => cases h
  | case4 ts c us hc l vs hl ih =>
    obtain ⟨⟨ks, final⟩, hr, h⟩ := bind_eq_ok h
    cases h
    exact Nat.le_trans (ih hr) (Nat.le_trans (Nat.le_of_lt (link_lt hl)) (combinator?_le hc))

def chain (ts : List Token) : Except Failure (Chain × List Token) := do
  let (l, rest) ← link .first ts
  let (ls, final) ← moreLinks rest
  .ok (⟨l :: ls⟩, final)

theorem chain_lt {ts rest : List Token} {c : Chain}
    (h : chain ts = .ok (c, rest)) : rest.length < ts.length := by
  unfold chain at h
  obtain ⟨⟨l, us⟩, hl, h⟩ := bind_eq_ok h
  obtain ⟨⟨ls, final⟩, hm, h⟩ := bind_eq_ok h
  cases h
  exact Nat.lt_of_le_of_lt (moreLinks_le hm) (link_lt hl)

def chains (ts : List Token) : Except Failure (List Chain × List Token) :=
  match _h : chain ts with
  | .error e => .error e
  | .ok (c, ⟨.mark .comma, _⟩ :: rest) => do
    let (cs, final) ← chains (skipTrivia rest)
    .ok (c :: cs, final)
  | .ok (c, rest) => .ok ([c], rest)
termination_by ts.length
decreasing_by
  have := chain_lt _h
  have := skipTrivia_le rest
  simp only [List.length_cons] at *
  omega

/-- Chains, as an equation. -/
theorem chains_eq (ts : List Token) :
    chains ts = (match chain ts with
      | .error e => .error e
      | .ok (c, ⟨.mark .comma, _⟩ :: rest) => do
        let (cs, final) ← chains (skipTrivia rest)
        .ok (c :: cs, final)
      | .ok (c, rest) => .ok ([c], rest)) := by
  rw [chains]
  split
  · next h => rw [h]
  · next h => rw [h]
  · next c rest hcomma h =>
    rw [h]
    split
    · next heq => cases heq
    · next heq =>
      cases heq
      exact absurd rfl (hcomma _ _)
    · next heq =>
      cases heq
      rfl

def selector (ts : List Token) : Except Failure (Selector × List Token) := do
  let (cs, rest) ← chains ts
  .ok (⟨cs⟩, rest)

theorem chains_lt {ts rest : List Token} {cs : List Chain}
    (h : chains ts = .ok (cs, rest)) : rest.length < ts.length := by
  fun_induction chains ts generalizing cs rest with
  | case1 => cases h
  | case2 ts c loc us hc ih =>
    obtain ⟨⟨ds, final⟩, hr, h⟩ := bind_eq_ok h
    cases h
    have h1 := chain_lt hc
    have h2 := skipTrivia_le us
    have h3 := ih hr
    simp only [List.length_cons] at h1
    omega
  | case3 ts c us _ hc =>
    cases h
    exact chain_lt hc

theorem selector_lt {ts rest : List Token} {s : Selector}
    (h : selector ts = .ok (s, rest)) : rest.length < ts.length := by
  unfold selector at h
  obtain ⟨⟨cs, final⟩, hc, h⟩ := bind_eq_ok h
  cases h
  exact chains_lt hc

end Grammar

end Css2
