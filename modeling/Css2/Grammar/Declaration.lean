import Css2.Grammar.Core
import Css2.Grammar.Value
import Css2.Sheet.Basic

/-! # The grammar of declarations

    declarations : declaration? [ ';' S* declaration? ]*
    declaration  : IDENT S* ':' S* expr [ IMPORTANT S* ]?

A malformed declaration does not end the list.  It is skipped up to its semicolon, or in a block
up to the brace that closes the block; a semicolon or a brace inside brackets does not count.
-/

namespace Css2

/-- What was read, the failures of the parts that were skipped on the way, and the rest. -/
structure Lenient (α : Type) where
  value : α
  skipped : List Failure
  rest : List Token

namespace Grammar

/-! ### One declaration -/

def declaration (n : Nesting) (ts : List Token) : Except Failure (Declaration × List Token) := do
  let (property, ts) ← ident .propertyName ts
  let ts ← expect .colon (skipTrivia ts)
  let (value, ts) ← terms n (skipTrivia ts)
  match ts with
  | ⟨.important, _⟩ :: rest => .ok (⟨property, value, true⟩, skipTrivia rest)
  | _ => .ok (⟨property, value, false⟩, ts)

/-- Whether a declaration in a list may end before these tokens. -/
def endsDeclaration : List Token → Bool
  | [] => true
  | t :: _ => t.lexeme.isMark .semicolon || t.lexeme.isMark .closeBrace

/-- Reads a declaration and makes sure that it ends there. -/
def listedDeclaration (n : Nesting) (ts : List Token) :
    Except Failure (Declaration × List Token) := do
  let (d, rest) ← declaration n ts
  if endsDeclaration rest then .ok (d, rest) else .error (missing .declarationEnd rest)

theorem declaration_lt {n : Nesting} {ts rest : List Token} {d : Declaration}
    (h : declaration n ts = .ok (d, rest)) : rest.length < ts.length := by
  unfold declaration at h
  obtain ⟨⟨property, us⟩, hi, h⟩ := bind_eq_ok h
  obtain ⟨vs, he, h⟩ := bind_eq_ok h
  obtain ⟨⟨value, ws⟩, ht, h⟩ := bind_eq_ok h
  have h1 := ident_lt hi
  have h2 := skipTrivia_le us
  have h3 := expect_lt he
  have h4 := skipTrivia_le vs
  have h5 := terms_lt ht
  dsimp only at h
  split at h
  · next loc tail =>
    have h6 := skipTrivia_le tail
    simp only [List.length_cons] at h5
    cases h
    omega
  · cases h
    omega

theorem listedDeclaration_lt {n : Nesting} {ts rest : List Token} {d : Declaration}
    (h : listedDeclaration n ts = .ok (d, rest)) : rest.length < ts.length := by
  unfold listedDeclaration at h
  obtain ⟨⟨d', us⟩, hd, h⟩ := bind_eq_ok h
  dsimp only at h
  split at h
  · cases h
    exact declaration_lt hd
  · cases h

/-! ### Skipping a malformed declaration -/

/-- The marks that are still to come, innermost first, once a token is read after which `closers`
were to come.  A mark that closes something else than the innermost bracket is disregarded. -/
def pushCloser (closers : List Mark) (l : Lexeme) : List Mark :=
  match closerOf? l with
  | some closer => closer :: closers
  | none =>
    match closers with
    | closer :: outer => if l.isMark closer then outer else closers
    | [] => []

/-- What follows a malformed declaration of which some tokens are read already. -/
def skipRest (inBlock : Bool) (closers : List Mark) : List Token → List Token
  | [] => []
  | t :: rest =>
    if closers.isEmpty && t.lexeme.isMark .semicolon then rest
    else if closers.isEmpty && inBlock && t.lexeme.isMark .closeBrace then t :: rest
    else skipRest inBlock (pushCloser closers t.lexeme) rest

/-- What follows a malformed declaration that begins with the token `t`. -/
def skipDeclaration (inBlock : Bool) (t : Token) (rest : List Token) : List Token :=
  if t.lexeme.isMark .semicolon then rest
  else skipRest inBlock (pushCloser [] t.lexeme) rest

theorem skipRest_le (inBlock : Bool) (closers : List Mark) (ts : List Token) :
    (skipRest inBlock closers ts).length ≤ ts.length := by
  induction ts generalizing closers with
  | nil => exact Nat.le_refl _
  | cons t rest ih =>
    unfold skipRest
    split
    · exact Nat.le_succ _
    · split
      · exact Nat.le_refl _
      · exact Nat.le_succ_of_le (ih _)

theorem skipDeclaration_le (inBlock : Bool) (t : Token) (rest : List Token) :
    (skipDeclaration inBlock t rest).length ≤ rest.length := by
  unfold skipDeclaration
  split
  · exact Nat.le_refl _
  · exact skipRest_le _ _ _

/-! ### Lists of declarations -/

/-- Reads declarations up to the end of the text or, in a block, of the block. -/
def declarations (n : Nesting) (inBlock : Bool) (ts : List Token) : Lenient (List Declaration) :=
  match _hs : skipTrivia ts with
  | [] => ⟨[], [], []⟩
  | t :: rest =>
    if inBlock && t.lexeme.isMark .closeBrace then ⟨[], [], rest⟩
    else if t.lexeme.isMark .semicolon then declarations n inBlock rest
    else match _hd : listedDeclaration n (t :: rest) with
      | .ok (d, after) =>
        let more := declarations n inBlock after
        ⟨d :: more.value, more.skipped, more.rest⟩
      | .error e =>
        let more := declarations n inBlock (skipDeclaration inBlock t rest)
        ⟨more.value, e :: more.skipped, more.rest⟩
termination_by ts.length
decreasing_by
  all_goals
    have hle := skipTrivia_le ts
    rw [_hs, List.length_cons] at hle
  · omega
  · have := listedDeclaration_lt _hd
    simp only [List.length_cons] at this
    omega
  · have := skipDeclaration_le inBlock t rest
    omega

/-- Declarations, as an equation. -/
theorem declarations_eq (n : Nesting) (inBlock : Bool) (ts : List Token) :
    declarations n inBlock ts = (match skipTrivia ts with
      | [] => ⟨[], [], []⟩
      | t :: rest =>
        if inBlock && t.lexeme.isMark .closeBrace then ⟨[], [], rest⟩
        else if t.lexeme.isMark .semicolon then declarations n inBlock rest
        else match listedDeclaration n (t :: rest) with
          | .ok (d, after) =>
            let more := declarations n inBlock after
            ⟨d :: more.value, more.skipped, more.rest⟩
          | .error e =>
            let more := declarations n inBlock (skipDeclaration inBlock t rest)
            ⟨more.value, e :: more.skipped, more.rest⟩) := by
  rw [declarations]
  split
  · next h => rw [h]
  · next t rest h =>
    rw [h]
    dsimp only
    split
    · rfl
    · split
      · rfl
      · split <;> (next h' => rw [h'])

theorem declarations_le (n : Nesting) (inBlock : Bool) (ts : List Token) :
    (declarations n inBlock ts).rest.length ≤ ts.length := by
  fun_induction declarations n inBlock ts with
  | case1 => exact Nat.zero_le _
  | case2 ts t rest hs =>
    have hle := skipTrivia_le ts
    rw [hs, List.length_cons] at hle
    dsimp only
    omega
  | case3 ts t rest hs _ _ ih =>
    have hle := skipTrivia_le ts
    rw [hs, List.length_cons] at hle
    omega
  | case4 ts t rest hs _ _ d after hd more ih =>
    have hle := skipTrivia_le ts
    have hlt := listedDeclaration_lt hd
    rw [hs] at hle
    exact Nat.le_trans ih (Nat.le_trans (Nat.le_of_lt hlt) hle)
  | case5 ts t rest hs _ _ e hd more ih =>
    have hle := skipTrivia_le ts
    have hskip := skipDeclaration_le inBlock t rest
    rw [hs, List.length_cons] at hle
    exact Nat.le_trans ih (by omega)

/-- Reads a block of declarations.  Once its brace is read it cannot fail. -/
def block (n : Nesting) (ts : List Token) : Except Failure (Lenient (List Declaration)) := do
  let ts ← expect .openBrace ts
  let deeper ← n.enter ts
  .ok (declarations deeper true ts)

theorem block_lt {n : Nesting} {ts : List Token} {r : Lenient (List Declaration)}
    (h : block n ts = .ok r) : r.rest.length < ts.length := by
  unfold block at h
  obtain ⟨us, he, h⟩ := bind_eq_ok h
  obtain ⟨deeper, _, h⟩ := bind_eq_ok h
  cases h
  exact Nat.lt_of_le_of_lt (declarations_le _ _ _) (expect_lt he)

end Grammar

end Css2
