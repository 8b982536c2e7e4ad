import Css2.Proofs.Reader.Trace
import Css2.Reader.Value

/-!
# Readers of values

A reader reads the values of the grammar (`Reader.reads_terms`).  A function brings the reader one
level deeper and back, so the induction is on the number of tokens that are left, and covers readers
of any depth.
-/

namespace Css2

namespace Grammar

/-! ### One term -/

def term (n : Nesting) (ts : List Token) : Except Failure (Term × List Token) :=
  match sign ts with
  | (_, []) => .error ⟨.endOfInput, none⟩
  | (s, t :: rest) => do
    let (v, after) ← value n t rest
    if s.isSome && !v.takesSign then .error ⟨.misplacedSign, some t.loc⟩
    else .ok (⟨v, s, none⟩, after)

theorem terms_eq_term (n : Nesting) (ts : List Token) :
    terms n ts = (do
      let (t, after) ← term n ts
      match next? after with
      | none => .ok ([t], skipTrivia after)
      | some (separator, following) => do
        let (more, final) ← terms n following
        .ok ({ t with separator } :: more, final)) := by
  rw [terms_eq, term]
  generalize sign ts = x
  obtain ⟨s, us⟩ := x
  cases us with
  | nil => rfl
  | cons t rest =>
    dsimp only
    cases value n t rest with
    | error e => rfl
    | ok x =>
      obtain ⟨v, after⟩ := x
      show (if _ then _ else _) = Except.bind (if _ then _ else _) _
      split <;> rfl

theorem term_le {n : Nesting} {ts rest : List Token} {t : Term} (h : term n ts = .ok (t, rest)) :
    rest.length < ts.length := by
  unfold term at h
  split at h
  · cases h
  · next s u tail hs =>
    obtain ⟨⟨v, after⟩, hv, h⟩ := bind_eq_ok h
    have hsign := sign_le ts
    have hvalue := value_le hv
    rw [hs, List.length_cons] at hsign
    dsimp only at h
    split at h
    · cases h
    · cases h
      omega

end Grammar

namespace Reader

variable {r : Reader}

theorem reads_sign (r : Reader) :
    Reads sign r (.ok ((Grammar.sign r.unread).1, (Grammar.sign r.unread).2)) := by
  refine Reads.peek ?_
  cases hu : r.unread with
  | nil => exact .pure _ hu
  | cons t rest =>
    obtain ⟨l, loc⟩ := t
    cases l with
    | delim c =>
      rw [Grammar.sign]
      show Reads (if c = '+' then _ else if c = '-' then _ else _) _ _
      by_cases hplus : c = '+'
      · rw [if_pos hplus, if_pos hplus]
        exact .bump hu fun r' _ hu' => .pure _ hu'
      · rw [if_neg hplus, if_neg hplus]
        by_cases hminus : c = '-'
        · rw [if_pos hminus, if_pos hminus]
          exact .bump hu fun r' _ hu' => .pure _ hu'
        · rw [if_neg hminus, if_neg hminus]
          exact .pure _ hu
    | _ => exact .pure _ hu

theorem reads_separator? (r : Reader) :
    Reads separator? r (match Grammar.next? r.unread with
      | none => .ok (none, Grammar.skipTrivia r.unread)
      | some (separator, following) => .ok (some separator, following)) := by
  unfold Grammar.next?
  refine .skipTrivia fun r₁ _ hu₁ => .peek ?_
  rw [← hu₁]
  cases hu : r₁.unread with
  | nil => exact .pure _ hu
  | cons t rest =>
    dsimp only [List.head?_cons]
    split
    · exact .bump hu fun r₂ _ hu₂ => .skipTrivia fun r₃ _ hu₃ => .pure _ (by rw [hu₃, hu₂])
    · split
      · exact .bump hu fun r₂ _ hu₂ => .skipTrivia fun r₃ _ hu₃ => .pure _ (by rw [hu₃, hu₂])
      · split
        · exact .pure _ hu
        · exact .pure _ hu

/-- Where the arguments are read as the grammar reads them, so is the value of a term. -/
theorem reads_value_of (t : Token)
    (ih : ∀ r' : Reader, r'.unread.length ≤ r.unread.length →
      Reads terms r' (Grammar.terms r'.nesting r'.unread)) :
    Reads (value t) r (Grammar.value r.nesting t r.unread) := by
  have hsimple : ∀ l,
      Reads ((Grammar.simpleValue? l).elim (throw (.failed (.notATerm l) t.loc)) pure) r
        ((Grammar.simpleValue? l).elim (.error ⟨.notATerm l, some t.loc⟩)
          fun v => .ok (v, r.unread)) := by
    intro l
    cases Grammar.simpleValue? l with
    | none => exact Reads.throw ⟨.notATerm l, some t.loc⟩
    | some v => exact .pure _ rfl
  obtain ⟨l, loc⟩ := t
  have hl := hsimple l
  rw [value.eq_1]
  cases l with
  | function name =>
    have hargs : Reads (do
          let _ ← skipTrivia
          let args ← terms
          let _ ← skipTrivia
          expect .closeParen
          return args) r.deeper (do
        let (args, after) ← Grammar.terms r.deeper.nesting (Grammar.skipTrivia r.unread)
        let close ← Grammar.expect .closeParen (Grammar.skipTrivia after)
        .ok (args, close)) := by
      refine .skipTrivia fun r₁ hm₁ hu₁ => ?_
      rw [← hm₁.nesting_eq, show Grammar.skipTrivia r.unread = r₁.unread from hu₁.symm]
      have hle : r₁.unread.length ≤ r.unread.length := by
        rw [hu₁]
        exact Grammar.skipTrivia_le _
      refine .bind (ih r₁ hle) fun args r₂ _ _ => .skipTrivia fun r₃ _ hu₃ => ?_
      dsimp only
      rw [← hu₃]
      exact .bind_rest (reads_expect _ r₃) fun r₄ _ _ => .pure _ rfl
    have heq : Grammar.value r.nesting ⟨.function name, loc⟩ r.unread
        = (r.nesting.enter r.unread >>= fun deeper => do
            let (args, after) ← Grammar.terms deeper (Grammar.skipTrivia r.unread)
            let close ← Grammar.expect .closeParen (Grammar.skipTrivia after)
            .ok (args, close)) >>= fun x => .ok (Value.ofFunction name x.1, x.2) := by
      rw [Grammar.value]
      simp only [bind_assoc]
      rfl
    rw [heq]
    exact .bind (.nested (g := fun deeper => _) hargs) fun args r₁ _ _ => .pure _ rfl
  | _ => exact hl

theorem reads_term_of
    (ih : ∀ r' : Reader, r'.unread.length < r.unread.length →
      Reads terms r' (Grammar.terms r'.nesting r'.unread)) :
    Reads term r (Grammar.term r.nesting r.unread) := by
  have hread := reads_sign r
  have hsign := Grammar.sign_le r.unread
  rw [term.eq_1, Grammar.term]
  generalize Grammar.sign r.unread = x at hread hsign ⊢
  obtain ⟨s, ts⟩ := x
  refine hread.step fun r₁ hm₁ hu₁ => ?_
  rw [← hm₁.nesting_eq]
  dsimp only at hu₁ hsign
  cases ts with
  | nil =>
    refine (reads_bump r₁).step fun r₂ hm₂ hu₂ => ?_
    rw [hu₁]
    have h := reads_failHere (α := Term) (r := r₂) .endOfInput
    rw [hu₂, hu₁] at h
    exact h
  | cons t rest =>
    refine .bump hu₁ fun r₂ hm₂ hu₂ => ?_
    rw [← hm₂.nesting_eq, ← hu₂]
    have hlt : r₂.unread.length < r.unread.length := by
      rw [hu₂]
      exact hsign
    refine .bind (reads_value_of t fun r' h => ih r' (Nat.lt_of_le_of_lt h hlt))
      fun v r₃ _ _ => ?_
    dsimp only
    split
    · exact Reads.throw ⟨.misplacedSign, some t.loc⟩
    · exact .pure _ rfl

/-- **A reader reads the values of the grammar.** -/
theorem reads_terms (r : Reader) : Reads terms r (Grammar.terms r.nesting r.unread) := by
  induction hn : r.unread.length using Nat.strongRecOn generalizing r with
  | ind n ih =>
    subst hn
    rw [terms.eq_1, Grammar.terms_eq_term]
    refine .bind (reads_term_of fun r' h => ih _ h r' rfl) fun t r₁ hm₁ ht => ?_
    have hlt := Grammar.term_le ht
    have hsep := reads_separator? r₁
    dsimp only
    split
    · next hnext =>
      rw [hnext] at hsep
      exact hsep.step fun r₂ _ hu₂ => .pure _ hu₂
    · next separator following hnext =>
      rw [hnext] at hsep
      refine hsep.step fun r₂ hm₂ hu₂ => ?_
      have hle := Grammar.next?_le hnext
      rw [← hm₁.nesting_eq, ← hm₂.nesting_eq, ← hu₂]
      exact .bind (ih _ (by rw [hu₂]; omega) r₂ rfl) fun more r₃ _ _ => .pure _ rfl

end Reader

end Css2
