import Css2.Grammar.Basic

/-! # The core grammar

CSS 2.1 § 4.1.1, the grammar that every level of CSS keeps to.  It tells where a statement ends
that the grammar proper does not accept, so that the statement can be skipped as a whole:

    statement : ruleset | at-rule
    at-rule   : ATKEYWORD any* [ block | ';' ]
    ruleset   : any* block
    block     : '{' [ any | block | ATKEYWORD | ';' | CDO | CDC ]* '}'
    any       : '(' [ any | ... ]* ')' | '[' [ any | ... ]* ']' | FUNCTION [ any | ... ]* ')'
              | any other token that opens and closes nothing

Blocks and brackets that are open at the end of the text are closed by it.
-/

namespace Css2

namespace Grammar

def closerOf? : Lexeme → Option Mark
  | .function _ => some .closeParen
  | .mark .openParen => some .closeParen
  | .mark .openBracket => some .closeBracket
  | .mark .openBrace => some .closeBrace
  | _ => none

/-- Whether a token may stand anywhere in a statement. -/
def isPlain : Lexeme → Bool
  | .atKeyword _ => false
  | .mark .comma | .mark .colon | .mark .includes | .mark .dashMatch => true
  | .mark _ => false
  | .function _ => false
  | _ => true

/-- Whether a token may stand inside brackets, though not outside of them. -/
def isInner : Lexeme → Bool
  | .atKeyword _ => true
  | .mark .semicolon | .mark .openComment | .mark .closeComment => true
  | _ => false

/-- Skips what is inside a pair of brackets and the mark that closes it.  The rest is not longer,
which is why the recursion ends. -/
def contentsWithin (n : Nesting) (closer : Mark) (ts : List Token) :
    Except Failure { r : List Token // r.length ≤ ts.length } :=
  match ts with
  | [] => .ok ⟨[], Nat.le_refl _⟩
  | t :: rest =>
    if t.lexeme.isMark closer then .ok ⟨rest, Nat.le_succ _⟩
    else match closerOf? t.lexeme with
      | some inner =>
        match n.enter rest with
        | .error e => .error e
        | .ok deeper =>
          match contentsWithin deeper inner rest with
          | .error e => .error e
          | .ok ⟨after, hafter⟩ =>
            match contentsWithin n closer after with
            | .error e => .error e
            | .ok ⟨final, hfinal⟩ =>
              .ok ⟨final, Nat.le_succ_of_le (Nat.le_trans hfinal hafter)⟩
      | none =>
        if isPlain t.lexeme || isInner t.lexeme then
          match contentsWithin n closer rest with
          | .error e => .error e
          | .ok ⟨final, hfinal⟩ => .ok ⟨final, Nat.le_succ_of_le hfinal⟩
        else .error ⟨.stray t.lexeme, some t.loc⟩
termination_by ts.length
decreasing_by
  · exact Nat.lt_succ_self _
  · exact Nat.lt_succ_of_le hafter
  · exact Nat.lt_succ_self _

/-- Skips what is inside a pair of brackets and the mark `closer`. -/
def contents (n : Nesting) (closer : Mark) (ts : List Token) : Except Failure (List Token) :=
  (contentsWithin n closer ts).map Subtype.val

/-- What is inside a pair of brackets, as an equation. -/
theorem contents_eq (n : Nesting) (closer : Mark) (ts : List Token) :
    contents n closer ts = (match ts with
      | [] => .ok []
      | t :: rest =>
        if t.lexeme.isMark closer then .ok rest
        else match closerOf? t.lexeme with
          | some inner => do
            let deeper ← n.enter rest
            let after ← contents deeper inner rest
            contents n closer after
          | none =>
            if isPlain t.lexeme || isInner t.lexeme then contents n closer rest
            else .error ⟨.stray t.lexeme, some t.loc⟩) := by
  unfold contents
  rw [contentsWithin.eq_def]
  split
  · rfl
  · next t rest =>
    split
    · rfl
    · split
      · next inner heq =>
        cases n.enter rest with
        | error e => rfl
        | ok deeper =>
          dsimp only [bind, Except.bind]
          cases contentsWithin deeper inner rest with
          | error e => rfl
          | ok r =>
            obtain ⟨after, hafter⟩ := r
            dsimp only [Except.map]
            cases contentsWithin n closer after with
            | error e => rfl
            | ok r => rfl
      · split
        · cases contentsWithin n closer rest with
          | error e => rfl
          | ok r => rfl
        · rfl

theorem contents_le {n : Nesting} {closer : Mark} {ts rest : List Token}
    (h : contents n closer ts = .ok rest) : rest.length ≤ ts.length := by
  obtain ⟨⟨after, hafter⟩, _, rfl⟩ := map_eq_ok h
  exact hafter

/-- Skips a block or a pair of brackets behind the token that opens it. -/
def brackets (n : Nesting) (closer : Mark) (ts : List Token) : Except Failure (List Token) := do
  let deeper ← n.enter ts
  contents deeper closer ts

theorem brackets_le {n : Nesting} {closer : Mark} {ts rest : List Token}
    (h : brackets n closer ts = .ok rest) : rest.length ≤ ts.length := by
  obtain ⟨deeper, _, h⟩ := bind_eq_ok h
  exact contents_le h

/-- Skips a statement from behind its first token on, if that is an at-keyword, or else from its
first token on: everything up to the end of its block, or of an at-rule up to its semicolon. -/
def skipTail (n : Nesting) (atRule : Bool) (ts : List Token) : Except Failure (List Token) :=
  match ts with
  | [] => .ok []
  | t :: rest =>
    if t.lexeme.isMark .openBrace then brackets n .closeBrace rest
    else if atRule && t.lexeme.isMark .semicolon then .ok rest
    else match closerOf? t.lexeme with
      | some closer =>
        match _h : brackets n closer rest with
        | .error e => .error e
        | .ok after => skipTail n atRule after
      | none =>
        if isPlain t.lexeme then skipTail n atRule rest
        else .error ⟨.stray t.lexeme, some t.loc⟩
termination_by ts.length
decreasing_by
  · exact Nat.lt_succ_of_le (brackets_le _h)
  · exact Nat.lt_succ_self _

/-- The skipping of a statement, as an equation. -/
theorem skipTail_eq (n : Nesting) (atRule : Bool) (ts : List Token) :
    skipTail n atRule ts = (match ts with
      | [] => .ok []
      | t :: rest =>
        if t.lexeme.isMark .openBrace then brackets n .closeBrace rest
        else if atRule && t.lexeme.isMark .semicolon then .ok rest
        else match closerOf? t.lexeme with
          | some closer => do
            let after ← brackets n closer rest
            skipTail n atRule after
          | none =>
            if isPlain t.lexeme then skipTail n atRule rest
            else .error ⟨.stray t.lexeme, some t.loc⟩) := by
  rw [skipTail.eq_def]
  split
  · rfl
  · split
    · rfl
    · split
      · rfl
      · split
        · next h => split <;> (next h' => rw [h']; rfl)
        · rfl

def skipStatement (n : Nesting) (ts : List Token) : Except Failure (List Token) :=
  match ts with
  | [] => .error ⟨.endOfInput, none⟩
  | ⟨.atKeyword _, _⟩ :: rest => skipTail n true rest
  | _ => skipTail n false ts

theorem skipTail_le {n : Nesting} {atRule : Bool} {ts rest : List Token}
    (h : skipTail n atRule ts = .ok rest) : rest.length ≤ ts.length := by
  fun_induction skipTail n atRule ts with
  | case1 => cases h; exact Nat.le_refl _
  | case2 => exact Nat.le_succ_of_le (brackets_le h)
  | case3 => cases h; exact Nat.le_succ _
  | case4 => cases h
  | case5 t tail _ _ closer _ after hb ih =>
    exact Nat.le_succ_of_le (Nat.le_trans (ih h) (brackets_le hb))
  | case6 t tail _ _ _ _ ih => exact Nat.le_succ_of_le (ih h)
  | case7 => cases h

/-- Skipping a statement skips at least one token. -/
theorem skipStatement_lt {n : Nesting} {ts rest : List Token}
    (h : skipStatement n ts = .ok rest) : rest.length < ts.length := by
  unfold skipStatement at h
  split at h
  · cases h
  · exact Nat.lt_succ_of_le (skipTail_le h)
  · next hnil _ =>
    match ts, h with
    | [], _ => exact absurd rfl hnil
    | t :: tail, h =>
      unfold skipTail at h
      split at h
      · exact Nat.lt_succ_of_le (brackets_le h)
      · split at h
        · cases h; exact Nat.lt_succ_self _
        · split at h
          · split at h
            · cases h
            · next heq => exact Nat.lt_succ_of_le (Nat.le_trans (skipTail_le h) (brackets_le heq))
          · split at h
            · exact Nat.lt_succ_of_le (skipTail_le h)
            · cases h

end Grammar

end Css2
