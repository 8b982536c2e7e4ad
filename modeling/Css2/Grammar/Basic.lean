import Css2.Error

/-! # Productions

A production reads tokens from the front of a list.  It gives back what it read together with the
tokens that follow, or the failure that stopped it.  Since nothing is consumed but by a result,
trying another production after a failure means applying it to the same list.
-/

namespace Css2

namespace Grammar

/-! ### Failures -/

/-- Two steps in a row succeed only if both of them do. -/
theorem bind_eq_ok {α β : Type} {r : Except Failure α} {f : α → Except Failure β} {b : β}
    (h : (r >>= f) = .ok b) : ∃ a, r = .ok a ∧ f a = .ok b := by
  cases r with
  | error e => cases h
  | ok a => exact ⟨a, rfl, h⟩

/-- A result that is mapped was there before. -/
theorem map_eq_ok {α β : Type} {r : Except Failure α} {f : α → β} {b : β}
    (h : r.map f = .ok b) : ∃ a, r = .ok a ∧ f a = b := by
  cases r with
  | error e => cases h
  | ok a => cases h; exact ⟨a, rfl, rfl⟩

/-- Where the next token stands; nothing at the end of the text. -/
def place (ts : List Token) : Option Location :=
  ts.head?.map Token.loc

def failHere (cause : Cause) (ts : List Token) : Failure :=
  ⟨cause, place ts⟩

/-- The failure of a production that wanted something else than the next token. -/
def missing (what : Expectation) : List Token → Failure
  | [] => ⟨.endOfInput, none⟩
  | t :: _ => ⟨.expected what t.lexeme, some t.loc⟩

/-! ### Trivia -/

def skipTrivia (ts : List Token) : List Token :=
  ts.dropWhile fun t => t.lexeme.isTrivia

/-- Whether there is white space among the trivia at the front. -/
def spaced (ts : List Token) : Bool :=
  (ts.takeWhile fun t => t.lexeme.isTrivia).any fun t => t.lexeme == .whitespace

theorem skipTrivia_le (ts : List Token) : (skipTrivia ts).length ≤ ts.length :=
  (List.dropWhile_sublist _).length_le

/-! ### Single tokens -/

def expect (m : Mark) (ts : List Token) : Except Failure (List Token) :=
  match ts with
  | ⟨.mark n, loc⟩ :: rest =>
    if n = m then .ok rest else .error (missing (.mark m) (⟨.mark n, loc⟩ :: rest))
  | _ => .error (missing (.mark m) ts)

def ident (what : Expectation) (ts : List Token) : Except Failure (String × List Token) :=
  match ts with
  | ⟨.ident name, _⟩ :: rest => .ok (name, rest)
  | _ => .error (missing what ts)

def string (what : Expectation) (ts : List Token) : Except Failure (String × List Token) :=
  match ts with
  | ⟨.string value, _⟩ :: rest => .ok (value, rest)
  | _ => .error (missing what ts)

theorem expect_eq_ok {m : Mark} {ts rest : List Token} (h : expect m ts = .ok rest) :
    ∃ loc, ts = ⟨.mark m, loc⟩ :: rest := by
  unfold expect at h
  split at h
  · split at h
    · next hm => cases h; subst hm; exact ⟨_, rfl⟩
    · cases h
  · cases h

theorem ident_eq_ok {what : Expectation} {ts rest : List Token} {name : String}
    (h : ident what ts = .ok (name, rest)) : ∃ loc, ts = ⟨.ident name, loc⟩ :: rest := by
  unfold ident at h
  split at h
  · cases h; exact ⟨_, rfl⟩
  · cases h

theorem string_eq_ok {what : Expectation} {ts rest : List Token} {value : String}
    (h : string what ts = .ok (value, rest)) : ∃ loc, ts = ⟨.string value, loc⟩ :: rest := by
  unfold string at h
  split at h
  · cases h; exact ⟨_, rfl⟩
  · cases h

theorem expect_lt {m : Mark} {ts rest : List Token} (h : expect m ts = .ok rest) :
    rest.length < ts.length := by
  obtain ⟨_, rfl⟩ := expect_eq_ok h
  exact Nat.lt_succ_self _

theorem ident_lt {what : Expectation} {ts rest : List Token} {name : String}
    (h : ident what ts = .ok (name, rest)) : rest.length < ts.length := by
  obtain ⟨_, rfl⟩ := ident_eq_ok h
  exact Nat.lt_succ_self _

theorem string_lt {what : Expectation} {ts rest : List Token} {value : String}
    (h : string what ts = .ok (value, rest)) : rest.length < ts.length := by
  obtain ⟨_, rfl⟩ := string_eq_ok h
  exact Nat.lt_succ_self _

end Grammar

/-! ### Nesting -/

/-- How many blocks and brackets are open, and how many may be. -/
structure Nesting where
  limit : Nat
  depth : Nat := 0
  deriving DecidableEq, Repr

/-- One level deeper, if the limit allows; `ts` are the tokens behind the opening one. -/
def Nesting.enter (n : Nesting) (ts : List Token) : Except Failure Nesting :=
  if n.limit ≤ n.depth then .error (Grammar.failHere (.tooDeep n.limit) ts)
  else .ok { n with depth := n.depth + 1 }

end Css2
