import Css2.Proofs.Reader.Core
import Css2.Reader.Call

/-!
# One stack of brackets

Where a statement ends that is skipped with the core grammar, a scan finds out that has no grammar
but only a stack of the marks that are still to come (`Grammar.StatementScan`).  The reader that
skips the statement stops where the scan does, and fails where the scan fails
(`Reader.coreStatement_stops`).

The core grammar has its stack in the productions that it is inside of, and `skipOpen` is what those
do that are not through yet: the insides of the open brackets one after another, and then the rest
of the statement.  Each token moves it on as it moves the stack (`skipOpen_move`).
-/

namespace Css2

namespace Grammar

namespace StatementScan

/-! ### The scan -/

inductive Move where
  /-- It goes on, and these marks are to come, the innermost first. -/
  | goOn (expected : List Mark)
  /-- The statement ends. -/
  | stop
  | fail

/-- The scan is inside of one more pair of brackets, if no more than `limit` are open then. -/
def push (limit : Nat) (expected : List Mark) (closer : Mark) : Move :=
  if expected.length < limit then .goOn (closer :: expected) else .fail

def closes : Lexeme → Bool
  | .mark m => isCloser m
  | _ => false

/-- Outside of brackets a semicolon ends an at-rule, and some tokens may not stand. -/
def outside (limit : Nat) (atRule : Bool) (l : Lexeme) : Move :=
  match closerOf? l with
  | some closer => push limit [] closer
  | none =>
    match l with
    | .mark .semicolon => if atRule then .stop else .fail
    | .mark .openComment | .mark .closeComment | .atKeyword _ => .fail
    | _ => if closes l then .fail else .goOn []

/-- Inside of brackets only those marks may not stand that close another pair than the innermost.
The block of the statement is the pair of braces that is inside of no other pair. -/
def inside (limit : Nat) (closer : Mark) (outer : List Mark) (l : Lexeme) : Move :=
  if l.isMark closer then
    if outer = [] ∧ closer = .closeBrace then .stop else .goOn outer
  else
    match closerOf? l with
    | some inner => push limit (closer :: outer) inner
    | none => if closes l then .fail else .goOn (closer :: outer)

/-- What a token means if the marks `expected` are still to come. -/
def move (limit : Nat) (atRule : Bool) (expected : List Mark) (l : Lexeme) : Move :=
  match expected with
  | [] => outside limit atRule l
  | closer :: outer => inside limit closer outer l

/-- How many tokens belong to the statement that the scan is inside of.  The end of the text closes
everything. -/
def run (limit : Nat) (atRule : Bool) (expected : List Mark) : List Token → Option Nat
  | [] => some 0
  | t :: rest =>
    match move limit atRule expected t.lexeme with
    | .goOn expected => (run limit atRule expected rest).map (· + 1)
    | .stop => some 1
    | .fail => none

/-- How many tokens belong to the statement at the front. -/
def statement (limit : Nat) : List Token → Option Nat
  | [] => none
  | ⟨.atKeyword _, _⟩ :: rest => (run limit true [] rest).map (· + 1)
  | ts => run limit false [] ts

example : statement 2 [⟨.atKeyword "a", .start⟩, ⟨.mark .openBracket, .start⟩,
    ⟨.mark .semicolon, .start⟩, ⟨.mark .closeBracket, .start⟩, ⟨.mark .semicolon, .start⟩,
    ⟨.ident "b", .start⟩] = some 5 := by
  decide

/-! ### The core grammar with some brackets open -/

/-- Skips the insides of the brackets that `expected` closes, and then the rest of the statement. -/
def skipOpen (limit : Nat) (atRule : Bool) : List Mark → List Token → Except Failure (List Token)
  | [], ts => skipTail ⟨limit, 0⟩ atRule ts
  | closer :: outer, ts => do
    let rest ← contents ⟨limit, outer.length + 1⟩ closer ts
    if outer = [] ∧ closer = .closeBrace then .ok rest else skipOpen limit atRule outer rest

variable {limit : Nat} {atRule : Bool}

/-- What a move leaves to the core grammar in front of the tokens `rest`. -/
def Move.leaves (limit : Nat) (atRule : Bool) (rest : List Token) : Move → Option (List Token)
  | .goOn expected => (skipOpen limit atRule expected rest).toOption
  | .stop => some rest
  | .fail => none

theorem skipOpen_nil (expected : List Mark) : skipOpen limit atRule expected [] = .ok [] := by
  induction expected with
  | nil => exact skipTail_eq _ _ _
  | cons closer outer ih =>
    rw [skipOpen, contents_nil]
    show (if _ then _ else _) = _
    rw [ih, ite_self]

theorem brackets_leaves (expected : List Mark) (closer : Mark) (rest : List Token) :
    (do
      let after ← brackets ⟨limit, expected.length⟩ closer rest
      if expected = [] ∧ closer = Mark.closeBrace then Except.ok after
        else skipOpen limit atRule expected after).toOption
      = (push limit expected closer).leaves limit atRule rest := by
  rw [push, brackets, Nesting.enter]
  by_cases h : expected.length < limit
  · rw [if_pos h, if_neg (Nat.not_le.2 h)]
    rfl
  · rw [if_neg h, if_pos (Nat.not_lt.1 h)]
    rfl

theorem skipOpen_outside (t : Token) (rest : List Token) :
    (skipOpen limit atRule [] (t :: rest)).toOption
      = (outside limit atRule t.lexeme).leaves limit atRule rest := by
  have hopen (closer : Mark) := @brackets_leaves limit atRule [] closer rest
  obtain ⟨l, loc⟩ := t
  rw [skipOpen, skipTail_eq]
  cases l with
  | function name => cases atRule <;> exact hopen .closeParen
  | mark m =>
    cases m with
    | openParen => cases atRule <;> exact hopen .closeParen
    | openBracket => cases atRule <;> exact hopen .closeBracket
    | openBrace =>
      -- nothing of the statement is left behind its block
      refine Eq.trans ?_ (hopen .closeBrace)
      dsimp only
      cases brackets ⟨limit, 0⟩ .closeBrace rest <;> rfl
    | _ => cases atRule <;> rfl
  | _ => cases atRule <;> rfl

/-- A token that opens no pair may stand inside of brackets if it closes none. -/
theorem isPlain_or_isInner {l : Lexeme} (h : closerOf? l = none) :
    (isPlain l || isInner l) = !closes l := by
  cases l with
  | function name => cases h
  | mark m => cases m <;> first | rfl | cases h
  | _ => rfl

theorem skipOpen_inside (closer : Mark) (outer : List Mark) (t : Token) (rest : List Token) :
    (skipOpen limit atRule (closer :: outer) (t :: rest)).toOption
      = (inside limit closer outer t.lexeme).leaves limit atRule rest := by
  rw [skipOpen, contents_eq, inside]
  dsimp only
  by_cases hcloser : t.lexeme.isMark closer = true
  · rw [if_pos hcloser, if_pos hcloser]
    show (if _ then _ else _ : Except Failure (List Token)).toOption = _
    split <;> rfl
  · rw [if_neg hcloser, if_neg hcloser]
    cases hopens : closerOf? t.lexeme with
    | some inner =>
      -- the pair that was the innermost one is gone on with once the new one is closed
      refine Eq.trans (congrArg Except.toOption ?_) (brackets_leaves (closer :: outer) inner rest)
      simp only [brackets, bind_assoc, reduceCtorEq, false_and, if_false, skipOpen,
        List.length_cons]
    | none =>
      dsimp only
      rw [isPlain_or_isInner hopens]
      cases closes t.lexeme <;> rfl

/-- **A token moves the open productions of the core grammar on as it moves the stack.** -/
theorem skipOpen_move (expected : List Mark) (t : Token) (rest : List Token) :
    (skipOpen limit atRule expected (t :: rest)).toOption
      = (move limit atRule expected t.lexeme).leaves limit atRule rest := by
  cases expected with
  | nil => exact skipOpen_outside t rest
  | cons closer outer => exact skipOpen_inside closer outer t rest

/-- **The scan takes as many tokens as the core grammar skips.** -/
theorem skipOpen_run (expected : List Mark) (ts : List Token) :
    (skipOpen limit atRule expected ts).toOption
      = (run limit atRule expected ts).map ts.drop := by
  induction ts generalizing expected with
  | nil => rw [skipOpen_nil]; rfl
  | cons t rest ih =>
    rw [skipOpen_move, run]
    cases move limit atRule expected t.lexeme with
    | goOn expected =>
      rw [Option.map_map]
      exact ih expected
    | stop => rfl
    | fail => rfl

theorem run_le {expected : List Mark} {ts : List Token} {k : Nat}
    (h : run limit atRule expected ts = some k) : k ≤ ts.length := by
  induction ts generalizing expected k with
  | nil => cases h; exact Nat.le_refl _
  | cons t rest ih =>
    rw [run] at h
    cases hmove : move limit atRule expected t.lexeme with
    | goOn expected =>
      rw [hmove] at h
      obtain ⟨j, hj, rfl⟩ := Option.map_eq_some_iff.1 h
      exact Nat.succ_le_succ (ih hj)
    | stop =>
      rw [hmove] at h
      cases h
      exact Nat.succ_le_succ (Nat.zero_le _)
    | fail =>
      rw [hmove] at h
      cases h

theorem skipStatement_statement (limit : Nat) (ts : List Token) :
    (skipStatement ⟨limit, 0⟩ ts).toOption = (statement limit ts).map ts.drop := by
  cases ts with
  | nil => rfl
  | cons t rest =>
    have hrun := @skipOpen_run limit false [] (t :: rest)
    obtain ⟨l, loc⟩ := t
    cases l with
    | atKeyword name =>
      rw [statement, Option.map_map]
      exact skipOpen_run [] rest
    | _ => exact hrun

theorem statement_le {ts : List Token} {k : Nat} (h : statement limit ts = some k) :
    k ≤ ts.length := by
  unfold statement at h
  split at h
  · cases h
  · obtain ⟨j, hj, rfl⟩ := Option.map_eq_some_iff.1 h
    exact Nat.succ_le_succ (run_le hj)
  · exact run_le h

end StatementScan

end Grammar

namespace TokenStream

theorem Bounded.cursor_eq {s : TokenStream} (h : s.Bounded) :
    s.cursor = s.tokens.length - s.unread.length := by
  rw [unread, List.length_drop]
  exact (Nat.sub_sub_self h).symm

end TokenStream

namespace Reader

open Grammar

variable {r r' : Reader}

/-- Where a reader has come to that has moved over `k` tokens. -/
theorem Moved.cursor_eq (h : Moved r r') (hr : r.source.Bounded) {k : Nat}
    (hk : k ≤ r.unread.length) (hu : r'.unread = r.unread.drop k) :
    r'.source.cursor = r.source.cursor + k := by
  have hlength : r'.source.unread.length = r.unread.length - k :=
    (congrArg List.length hu).trans List.length_drop
  have hle : r.unread.length ≤ r.source.tokens.length := (List.drop_sublist ..).length_le
  have hcursor : r.source.cursor = r.source.tokens.length - r.unread.length := hr.cursor_eq
  rw [(h.bounded hr).cursor_eq, hcursor, h.tokens_eq, hlength]
  omega

/-- **A reader outside of brackets skips the tokens that the scan counts**, or fails with it. -/
theorem coreStatement_scan (hdepth : r.depth = 0) (hr : r.source.Bounded) :
    (∀ k, StatementScan.statement r.options.maxNesting r.unread = some k →
      ∃ r', coreStatement r = some (.ok (), r') ∧ r'.source.cursor = r.source.cursor + k) ∧
    (StatementScan.statement r.options.maxNesting r.unread = none →
      ∃ e r', coreStatement r = some (.error e, r')) := by
  obtain ⟨r', hm, h⟩ := passes_coreStatement r
  have hscan := StatementScan.skipStatement_statement r.options.maxNesting r.unread
  rw [show r.nesting = ⟨r.options.maxNesting, 0⟩ from congrArg _ hdepth] at h
  cases hskip : skipStatement ⟨r.options.maxNesting, 0⟩ r.unread with
  | ok rest =>
    rw [hskip] at h hscan
    obtain ⟨k, hk, rfl⟩ := Option.map_eq_some_iff.1 hscan.symm
    refine ⟨fun j hj => ?_, fun hnone => ?_⟩
    · obtain rfl : k = j := Option.some.inj (hk.symm.trans hj)
      exact ⟨r', h.1, hm.cursor_eq hr (StatementScan.statement_le hk) h.2⟩
    · cases hk.symm.trans hnone
  | error e =>
    rw [hskip] at h hscan
    have hnone := Option.map_eq_none_iff.1 hscan.symm
    refine ⟨fun k hk => ?_, fun _ => ⟨_, r', h⟩⟩
    cases hnone.symm.trans hk

/-- **The core grammar skips exactly one balanced statement**: whatever the tokens are, a reader
stops where the scan with one stack stops, and fails where it fails. -/
theorem coreStatement_stops (options : ParseOptions) (ts : List Token) (stop : Location) :
    (∀ k, (∃ r, coreStatement (ofStream (.ofTokens ts stop) options) = some (.ok (), r) ∧
        r.source.cursor = k) ↔ StatementScan.statement options.maxNesting ts = some k) ∧
      ((∃ e r, coreStatement (ofStream (.ofTokens ts stop) options) = some (.error e, r)) ↔
        StatementScan.statement options.maxNesting ts = none) := by
  obtain ⟨hstops, hfails⟩ := coreStatement_scan (r := ofStream (.ofTokens ts stop) options) rfl
    (Nat.zero_le _)
  cases hscan : StatementScan.statement options.maxNesting ts with
  | some k =>
    obtain ⟨r, h, hplace⟩ := hstops k hscan
    have hcursor : r.source.cursor = k := hplace.trans (Nat.zero_add k)
    simp [h, hcursor]
  | none =>
    obtain ⟨e, r, h⟩ := hfails hscan
    simp [h]

end Reader

end Css2
