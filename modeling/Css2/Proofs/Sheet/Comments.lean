import Css2.Proofs.Sheet.Trivia

/-!
# Comments

A comment may stand anywhere between two tokens and should have no influence.  Nearly everywhere it
has none, because the productions skip it together with white space.  But the parts of a compound
selector, the name of a page and its pseudo-class, and a sign and its term must follow one upon the
other as tokens, so a comment between them parts them, and `Sheet.not_parseTokens_dropComments`
shows what becomes of the sheet.

That is the only way in which a comment matters.  If no token is parted by comments from tokens that
go on with it (`unparted`), the sheet is the same without the comments
(`Sheet.parseTokens_dropComments`).
-/

namespace Css2

def Lexeme.isComment : Lexeme → Bool
  | comment _ => true
  | _ => false

namespace Grammar

def dropComments (ts : List Token) : List Token :=
  ts.filter fun t => !t.lexeme.isComment

/-- No token is parted by comments alone from tokens that go on with it. -/
def unparted : List Token → Bool
  | t :: ts =>
    !(startsWith Lexeme.isTrivia ts && !spaced ts && joins t.lexeme (skipTrivia ts)) && unparted ts
  | [] => true

/-! ### Runs of trivia without their comments -/

theorem dropComments_comment (text : String) (loc : Location) (ts : List Token) :
    dropComments (⟨.comment text, loc⟩ :: ts) = dropComments ts :=
  rfl

theorem dropComments_cons {t : Token} (ht : t.lexeme.isComment = false) (ts : List Token) :
    dropComments (t :: ts) = t :: dropComments ts := by
  rw [dropComments, List.filter_cons_of_pos (by simp [ht])]
  rfl

theorem isComment_of_not_isTrivia {l : Lexeme} (h : l.isTrivia = false) : l.isComment = false := by
  cases l <;> first | rfl | cases h

theorem spaced_comment (text : String) (loc : Location) (ts : List Token) :
    spaced (⟨.comment text, loc⟩ :: ts) = spaced ts :=
  rfl

/-- Behind the trivia there is the same, with and without comments. -/
theorem skipTrivia_dropComments (ts : List Token) :
    skipTrivia (dropComments ts) = dropComments (skipTrivia ts) := by
  induction ts with
  | nil => rfl
  | cons t ts ih =>
    obtain ⟨l, loc⟩ := t
    cases hl : l.isTrivia with
    | false =>
      rw [skipTrivia_cons_self ts hl, dropComments_cons (isComment_of_not_isTrivia hl),
        skipTrivia_cons_self _ hl]
    | true =>
      rw [skipTrivia_cons ts hl, ← ih]
      cases l with
      | whitespace => exact skipTrivia_cons _ rfl
      | comment text => rfl
      | _ => cases hl

theorem startsWith_dropComments (ts : List Token) :
    startsWith Lexeme.isTrivia (dropComments ts) = spaced ts := by
  induction ts with
  | nil => rfl
  | cons t ts ih =>
    obtain ⟨l, loc⟩ := t
    cases l with
    | comment text => rwa [dropComments_comment, spaced_comment]
    | whitespace => rfl
    | _ => exact (spaced_eq_false rfl).symm

/-- Where there is no white space in front, the comments there go with all the others. -/
theorem dropComments_skipTrivia {ts : List Token} (h : spaced ts = false) :
    dropComments (skipTrivia ts) = dropComments ts := by
  rw [← skipTrivia_dropComments]
  exact skipTrivia_eq_self (startsWith_dropComments ts ▸ h)

theorem spaced_dropComments (ts : List Token) : spaced (dropComments ts) = spaced ts := by
  induction ts with
  | nil => rfl
  | cons t ts ih =>
    obtain ⟨l, loc⟩ := t
    cases l with
    | comment text => rwa [dropComments_comment, spaced_comment]
    | whitespace => rfl
    | _ => rw [dropComments_cons rfl, spaced_eq_false rfl, spaced_eq_false rfl]

/-! ### The two texts are alike -/

variable {ts us : List Token}

theorem unparted_skipTrivia (h : unparted ts = true) : unparted (skipTrivia ts) = true := by
  induction ts with
  | nil => rfl
  | cons t ts ih =>
    cases ht : t.lexeme.isTrivia with
    | false => rwa [skipTrivia_cons_self ts ht]
    | true =>
      rw [unparted, Bool.and_eq_true] at h
      rw [skipTrivia_cons ts ht]
      exact ih h.2

/-- What goes on with a lexeme does so in both texts. -/
theorem Front.joins (h : Front ts us) (l : Lexeme) : joins l ts = joins l us := by
  have hstarts (p : Lexeme → Bool) : startsWith p ts = startsWith p us :=
    h.byHead rfl fun _ _ _ _ _ _ _ => rfl
  rw [Grammar.joins, Grammar.joins, h.alike.headsBlock, hstarts, hstarts]

/-- **Tokens without their comments are alike**, if nothing is parted by comments. -/
theorem alike_dropComments (h : unparted ts = true) : Alike ts (dropComments ts) := by
  induction hlen : ts.length using Nat.strongRecOn generalizing ts with
  | ind len ih =>
    cases ts with
    | nil => exact .nil
    | cons t ts =>
      have hrest : unparted ts = true := by
        rw [unparted, Bool.and_eq_true] at h
        exact h.2
      have hskipped : Alike (skipTrivia ts) (dropComments (skipTrivia ts)) :=
        ih _ (hlen ▸ Nat.lt_succ_of_le (skipTrivia_le ts)) (unparted_skipTrivia hrest) rfl
      obtain ⟨l, loc⟩ := t
      cases hl : l.isTrivia with
      | false =>
        rw [dropComments_cons (isComment_of_not_isTrivia hl)]
        refine .token hl (fun hts => ?_) (ih _ (hlen ▸ Nat.lt_succ_self _) hrest rfl)
        cases hs : spaced ts with
        | true => exact joins_trivia l (startsWith_dropComments ts ▸ hs)
        | false =>
          -- nothing but comments is in front of what is behind the trivia
          rw [← dropComments_skipTrivia hs, ← Front.joins ⟨hskipped, startsWith_skipTrivia ts⟩ l]
          simpa [unparted, hts, hs, hrest] using h
      | true =>
        cases hs : spaced (⟨l, loc⟩ :: ts) with
        | false =>
          rw [← dropComments_skipTrivia hs, skipTrivia_cons ts hl]
          exact .comments hl hs hskipped
        | true =>
          have hstarts := (startsWith_dropComments (⟨l, loc⟩ :: ts)).trans hs
          have hspaced := spaced_dropComments (⟨l, loc⟩ :: ts)
          have hskip := skipTrivia_dropComments (⟨l, loc⟩ :: ts)
          rw [skipTrivia_cons ts hl] at hskip
          generalize dropComments (⟨l, loc⟩ :: ts) = us at hstarts hspaced hskip
          cases us with
          | nil => cases hstarts
          | cons u us =>
            rw [skipTrivia_cons us hstarts] at hskip
            exact .trivia hl hstarts hspaced.symm (hskip ▸ hskipped)

end Grammar

/-! ### Sheets -/

/-- **Comments that part nothing are insignificant.**  Without them the same sheet is read, or the
same part of a sheet up to a statement that can be neither read nor skipped. -/
theorem Sheet.parseTokens_dropComments {ts : List Token} (h : Grammar.unparted ts = true)
    (options : ParseOptions) (stop stop' : Location) :
    (∃ s, Sheet.parseTokens options ts stop = .ok s ∧
        Sheet.parseTokens options (Grammar.dropComments ts) stop' = .ok s) ∨
      ∃ built cause loc cause' loc',
        Sheet.parseTokens options ts stop = .error ⟨.unrecoverable cause loc, built⟩ ∧
        Sheet.parseTokens options (Grammar.dropComments ts) stop' =
          .error ⟨.unrecoverable cause' loc', built⟩ :=
  Sheet.parseTokens_alike (Grammar.alike_dropComments h) options stop stop'

/-- Comments around a combinator, a comma, a property, a value and its parts, all without white
space. -/
theorem Sheet.parseTokens_dropComments_ruleset :
    let ts := scan "p/**/>/**/.a/**/,/**/b/**/\x7b/**/c/**/:/**/-1px/**/#fff/**/;/**/\x7d"
    Grammar.unparted ts = true ∧
      ((∃ s, Sheet.parseTokens {} ts .start = .ok s ∧
          Sheet.parseTokens {} (Grammar.dropComments ts) .start = .ok s) ∨
        ∃ built cause loc cause' loc',
          Sheet.parseTokens {} ts .start = .error ⟨.unrecoverable cause loc, built⟩ ∧
          Sheet.parseTokens {} (Grammar.dropComments ts) .start =
            .error ⟨.unrecoverable cause' loc', built⟩) := by
  intro ts
  have h : Grammar.unparted ts = true := by
    with_unfolding_all rfl
  exact ⟨h, Sheet.parseTokens_dropComments h {} .start .start⟩

/-- **A comment may be significant**: `p.a` is a selector, and with a comment in front of the point
it is none, so that the ruleset is skipped. -/
theorem Sheet.not_parseTokens_dropComments :
    ¬ ∀ (ts : List Token) (options : ParseOptions) (stop : Location),
      (∃ s, Sheet.parseTokens options ts stop = .ok s ∧
          Sheet.parseTokens options (Grammar.dropComments ts) stop = .ok s) ∨
        ∃ built cause loc cause' loc',
          Sheet.parseTokens options ts stop = .error ⟨.unrecoverable cause loc, built⟩ ∧
          Sheet.parseTokens options (Grammar.dropComments ts) stop =
            .error ⟨.unrecoverable cause' loc', built⟩ := by
  intro h
  have hskipped : (Sheet.parseTokens {} (scan "p/**/.a\x7b\x7d") .start).map Sheet.length =
      .ok 0 := by
    with_unfolding_all rfl
  have hread : (Sheet.parseTokens {} (Grammar.dropComments (scan "p/**/.a\x7b\x7d")) .start).map
      Sheet.length = .ok 1 := by
    with_unfolding_all rfl
  obtain ⟨s, hs, hs'⟩ | ⟨_, _, _, _, _, hs, -⟩ := h (scan "p/**/.a\x7b\x7d") {} .start
  · rw [hs] at hskipped
    rw [hs'] at hread
    cases hskipped.symm.trans hread
  · rw [hs] at hskipped
    cases hskipped

end Css2
