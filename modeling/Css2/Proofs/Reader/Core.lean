import Css2.Proofs.Reader.Trace
import Css2.Proofs.Sheet.Trivia
import Css2.Reader.Core

/-!
# Readers that skip with the core grammar

A reader that cannot read a statement skips it as the grammar does (`Reader.passes_coreStatement`).
The reader takes brackets, and the trivia behind them, in one step of their own.  `Grammar.any` is
that step on lists, and the equations of the core grammar are first written with it.
-/

namespace Css2

namespace Grammar

/-! ### One step of the core grammar -/

theorem expect_of_isMark {m : Mark} {t : Token} {rest : List Token} (h : t.lexeme.isMark m = true) :
    expect m (t :: rest) = .ok rest := by
  obtain ⟨l, loc⟩ := t
  cases l with
  | mark n => exact if_pos (eq_of_beq h)
  | _ => cases h

/-- Skips a token that may stand anywhere, or a pair of brackets, and the trivia behind it. -/
def any (n : Nesting) (t : Token) (rest : List Token) : Except Failure (List Token) :=
  match closerOf? t.lexeme with
  | some closer => (brackets n closer rest).map skipTrivia
  | none =>
    if isPlain t.lexeme then .ok (skipTrivia rest)
    else .error ⟨.stray t.lexeme, some t.loc⟩

theorem any_le {n : Nesting} {t : Token} {rest after : List Token}
    (h : any n t rest = .ok after) : after.length ≤ rest.length := by
  unfold any at h
  split at h
  · obtain ⟨us, hb, rfl⟩ := map_eq_ok h
    exact Nat.le_trans (skipTrivia_le us) (brackets_le hb)
  · split at h
    · cases h
      exact skipTrivia_le rest
    · cases h

theorem any_bind {α : Type} {f : List Token → Except Failure α}
    (hf : ∀ t ts, t.lexeme.isTrivia = true → f (t :: ts) = f ts) (n : Nesting) (t : Token)
    (rest : List Token) :
    any n t rest >>= f = (match closerOf? t.lexeme with
      | some closer => brackets n closer rest >>= f
      | none => if isPlain t.lexeme then f rest else .error ⟨.stray t.lexeme, some t.loc⟩) := by
  unfold any
  cases closerOf? t.lexeme with
  | some closer =>
    dsimp only
    cases brackets n closer rest with
    | error e => rfl
    | ok after => exact (eq_skipTrivia hf after).symm
  | none =>
    dsimp only
    split
    · exact (eq_skipTrivia hf rest).symm
    · rfl

theorem contents_eq_any (n : Nesting) (closer : Mark) (t : Token) (rest : List Token) :
    contents n closer (t :: rest) =
      if t.lexeme.isMark closer then .ok rest
      else if t.lexeme.isMark .openBrace then brackets n .closeBrace rest >>= contents n closer
      else if isInner t.lexeme then contents n closer rest
      else any n t rest >>= contents n closer := by
  obtain ⟨l, loc⟩ := t
  rw [any_bind (contents_trivia n closer), contents_eq]
  simp only [brackets, bind_assoc]
  split
  · rfl
  · cases l with
    | mark m => cases m <;> rfl
    | _ => rfl

theorem skipTail_eq_any (n : Nesting) (atRule : Bool) (t : Token) (rest : List Token) :
    skipTail n atRule (t :: rest) =
      if t.lexeme.isMark .openBrace then brackets n .closeBrace rest
      else if atRule && t.lexeme.isMark .semicolon then .ok rest
      else any n t rest >>= skipTail n atRule := by
  rw [any_bind (skipTail_trivia n atRule)]
  exact skipTail_eq n atRule (t :: rest)

end Grammar

namespace Reader

variable {r : Reader}

/-! ### Brackets -/

theorem passes_nested_of {closer : Mark} (ih : ∀ r' : Reader, r'.unread = r.unread →
      Passes (contents closer) r' (Grammar.contents r'.nesting closer r'.unread)) :
    Passes (nested (contents closer)) r (Grammar.brackets r.nesting closer r.unread) := by
  rw [Passes, Grammar.brackets, map_bind]
  exact .nested (g := fun n => (Grammar.contents n closer r.unread).map fun rest => ((), rest))
    (ih r.deeper rfl)

/-- Where the insides of brackets are skipped as the grammar skips them, so are blocks. -/
theorem passes_coreBlock_of {t : Token} {rest : List Token} (hu : r.unread = t :: rest)
    (ht : t.lexeme.isMark .openBrace = true)
    (ih : ∀ (closer : Mark) (r' : Reader), r'.unread = rest →
      Passes (contents closer) r' (Grammar.contents r'.nesting closer r'.unread)) :
    Passes coreBlock r (Grammar.brackets r.nesting .closeBrace rest) := by
  have hexpect := reads_expect .openBrace r
  rw [hu, Grammar.expect_of_isMark ht] at hexpect
  rw [coreBlock.eq_1]
  refine Reads.step hexpect fun r₁ hm₁ hu₁ => ?_
  rw [← hm₁.nesting_eq, ← hu₁]
  exact passes_nested_of fun r' hu' => ih _ r' (hu'.trans hu₁)

/-- Where the insides of brackets are skipped as the grammar skips them, so are whole brackets. -/
theorem passes_coreAny_of {t : Token} {rest : List Token} (hu : r.unread = t :: rest)
    (ht : t.lexeme.isMark .openBrace = false)
    (ih : ∀ (closer : Mark) (r' : Reader), r'.unread = rest →
      Passes (contents closer) r' (Grammar.contents r'.nesting closer r'.unread)) :
    Passes coreAny r (Grammar.any r.nesting t rest) := by
  have hnested (closer : Mark) (r₁ : Reader) (hm : Moved r r₁) (hu₁ : r₁.unread = rest) :
      Passes (do
        nested (contents closer)
        let _ ← skipTrivia) r₁
        ((Grammar.brackets r.nesting closer rest).map Grammar.skipTrivia) := by
    rw [← hm.nesting_eq, ← hu₁]
    have hread := @passes_nested_of r₁ closer fun r' hu' => ih _ r' (hu'.trans hu₁)
    exact hread.bind fun r₂ _ _ => .skipTrivia fun r₃ _ hu₃ => .pure _ hu₃
  have hplain (l : Lexeme) (loc : Location) (r₁ : Reader) (hu₁ : r₁.unread = rest) :
      Passes (do
        if !Grammar.isPlain l then throw (.failed (.stray l) loc)
        let _ ← skipTrivia) r₁
        (if Grammar.isPlain l then .ok (Grammar.skipTrivia rest)
          else .error ⟨.stray l, some loc⟩) := by
    cases Grammar.isPlain l with
    | true =>
      rw [← hu₁]
      exact .skipTrivia fun r₂ _ hu₂ => .pure _ hu₂
    | false => exact ⟨r₁, .refl r₁, rfl⟩
  rw [coreAny.eq_1]
  refine .bump hu fun r₁ hm hu₁ => ?_
  obtain ⟨l, loc⟩ := t
  cases l with
  | function name => exact hnested _ r₁ hm hu₁
  | mark m =>
    cases m with
    | openParen => exact hnested _ r₁ hm hu₁
    | openBracket => exact hnested _ r₁ hm hu₁
    | openBrace => cases ht
    | _ => exact hplain _ loc r₁ hu₁
  | _ => exact hplain _ loc r₁ hu₁

/-! ### Statements -/

/-- **A reader skips the inside of brackets as the grammar does.** -/
theorem passes_contents (closer : Mark) (r : Reader) :
    Passes (contents closer) r (Grammar.contents r.nesting closer r.unread) := by
  -- brackets inside of brackets lead back here, with another closer and fewer tokens left
  induction hn : r.unread.length using Nat.strongRecOn generalizing r closer with
  | ind n ih =>
    subst hn
    rw [contents.eq_1]
    refine .peek ?_
    cases hu : r.unread with
    | nil =>
      rw [Grammar.contents_nil]
      exact .pure _ hu
    | cons t rest =>
      have hle (r' : Reader) (h : r'.unread.length ≤ rest.length) (closer : Mark) :
          Passes (contents closer) r' (Grammar.contents r'.nesting closer r'.unread) :=
        ih _ (by rw [hu]; exact Nat.lt_succ_of_le h) closer r' rfl
      rw [Grammar.contents_eq_any]
      dsimp only [List.head?_cons]
      split
      · exact .bump hu fun r₁ _ hu₁ => .pure _ hu₁
      · split
        · next ht =>
          have hread := passes_coreBlock_of hu ht fun closer r' hu' =>
            hle r' (Nat.le_of_eq (congrArg List.length hu')) closer
          refine hread.bind fun r₁ hm₁ hb => ?_
          rw [← hm₁.nesting_eq]
          exact hle r₁ (Grammar.brackets_le hb) closer
        · next ht =>
          split
          · refine .bump hu fun r₁ hm₁ hu₁ => ?_
            rw [← hm₁.nesting_eq, ← hu₁]
            exact hle r₁ (Nat.le_of_eq (congrArg List.length hu₁)) closer
          · have hread := passes_coreAny_of hu (Bool.not_eq_true _ ▸ ht) fun closer r' hu' =>
              hle r' (Nat.le_of_eq (congrArg List.length hu')) closer
            refine hread.bind fun r₁ hm₁ ha => ?_
            rw [← hm₁.nesting_eq]
            exact hle r₁ (Grammar.any_le ha) closer

theorem passes_coreTail (atRule : Bool) (r : Reader) :
    Passes (coreTail atRule) r (Grammar.skipTail r.nesting atRule r.unread) := by
  induction hn : r.unread.length using Nat.strongRecOn generalizing r with
  | ind n ih =>
    subst hn
    rw [coreTail.eq_1]
    refine .peek ?_
    cases hu : r.unread with
    | nil =>
      rw [Grammar.skipTail_eq]
      exact .pure _ hu
    | cons t rest =>
      rw [Grammar.skipTail_eq_any]
      dsimp only [List.head?_cons]
      split
      · next ht => exact passes_coreBlock_of hu ht fun closer r' _ => passes_contents closer r'
      · next ht =>
        split
        · exact .bump hu fun r₁ _ hu₁ => .pure _ hu₁
        · have hread := passes_coreAny_of hu (Bool.not_eq_true _ ▸ ht) fun closer r' _ =>
            passes_contents closer r'
          refine hread.bind fun r₁ hm₁ ha => ?_
          rw [← hm₁.nesting_eq]
          have hle := Grammar.any_le ha
          exact ih _ (by rw [hu]; exact Nat.lt_succ_of_le hle) r₁ rfl

/-- **A reader skips statements as the grammar does.** -/
theorem passes_coreStatement (r : Reader) :
    Passes coreStatement r (Grammar.skipStatement r.nesting r.unread) := by
  refine .peek ?_
  cases hu : r.unread with
  | nil =>
    have h := reads_failHere (α := Unit) (r := r) .endOfInput
    rw [hu] at h
    exact h
  | cons t rest =>
    have htail := passes_coreTail false r
    rw [hu] at htail
    obtain ⟨l, loc⟩ := t
    cases l with
    | atKeyword name =>
      refine .bump hu fun r₁ hm₁ hu₁ => .skipTrivia fun r₂ hm₂ hu₂ => ?_
      rw [← hm₁.nesting_eq, ← hm₂.nesting_eq, Grammar.skipStatement, ← hu₁,
        Grammar.eq_skipTrivia (Grammar.skipTail_trivia _ true) r₁.unread, ← hu₂]
      exact passes_coreTail true r₂
    | _ => exact htail

end Reader

end Css2
