import Css2.Cascade.Resolve
import Mathlib.Data.Prod.Lex

/-!
# The order of declarations

Specificities compare by their counts from left to right, and keys by precedence, specificity and
position.  Both are lexicographic orders, so they are linear, and so is the order in which winners
are applied: `Candidate.turn` is the size of the font before everything else and then the key.
-/

namespace Css2

/-! ### Specificities -/

namespace Specificity

def counts (s : Specificity) : ℕ ×ₗ ℕ ×ₗ ℕ :=
  toLex (s.ids, toLex (s.classes, s.types))

theorem counts_injective : Function.Injective counts := by
  intro a b h
  have hids : a.ids = b.ids := congrArg (fun c => (ofLex c).1) h
  have hclasses : a.classes = b.classes := congrArg (fun c => (ofLex (ofLex c).2).1) h
  have htypes : a.types = b.types := congrArg (fun c => (ofLex (ofLex c).2).2) h
  obtain ⟨_, _, _⟩ := a
  obtain ⟨_, _, _⟩ := b
  cases hids
  cases hclasses
  cases htypes
  rfl

instance : LinearOrder Specificity :=
  LinearOrder.lift' counts counts_injective

theorem lt_iff (a b : Specificity) : a.lt b = true ↔ a < b := by
  have hlt : a < b ↔ counts a < counts b := Iff.rfl
  rw [hlt]
  simp [lt, counts, Prod.Lex.toLex_lt_toLex]

end Specificity

/-! ### Keys -/

namespace SortKey

def parts (k : SortKey) : ℕ ×ₗ Specificity ×ₗ ℕ :=
  toLex (k.precedence, toLex (k.specificity, k.order))

theorem parts_injective : Function.Injective parts := by
  intro a b h
  have hprecedence : a.precedence = b.precedence := congrArg (fun c => (ofLex c).1) h
  have hspecificity : a.specificity = b.specificity := congrArg (fun c => (ofLex (ofLex c).2).1) h
  have horder : a.order = b.order := congrArg (fun c => (ofLex (ofLex c).2).2) h
  obtain ⟨_, _, _⟩ := a
  obtain ⟨_, _, _⟩ := b
  cases hprecedence
  cases hspecificity
  cases horder
  rfl

instance : LinearOrder SortKey :=
  LinearOrder.lift' parts parts_injective

theorem lt_iff_parts (a b : SortKey) :
    a < b ↔ a.precedence < b.precedence ∨ a.precedence = b.precedence ∧
      (a.specificity < b.specificity ∨ a.specificity = b.specificity ∧ a.order < b.order) := by
  have hlt : a < b ↔ parts a < parts b := Iff.rfl
  rw [hlt]
  simp [parts, Prod.Lex.toLex_lt_toLex]

theorem lt_iff (a b : SortKey) : a.lt b = true ↔ a < b := by
  rw [lt_iff_parts]
  simp [lt, Specificity.lt_iff]

end SortKey

/-! ### Turns -/

namespace Candidate

/-- When a winner is applied: the size of the font first, and then by key. -/
def turn (c : Candidate) : Bool ×ₗ SortKey :=
  toLex (!c.setsFontSize, c.key)

theorem before_iff (a b : Candidate) : a.before b = true ↔ a.turn ≤ b.turn := by
  have hkey : (!b.key.lt a.key) = true ↔ a.key ≤ b.key := by
    rw [← not_lt, ← SortKey.lt_iff]
    simp
  simp only [before, turn, Prod.Lex.toLex_le_toLex]
  cases a.setsFontSize <;> cases b.setsFontSize <;> simp [hkey]

theorem before_trans (a b c : Candidate) (hab : a.before b = true) (hbc : b.before c = true) :
    a.before c = true := by
  rw [before_iff] at *
  exact hab.trans hbc

theorem before_total (a b : Candidate) : (a.before b || b.before a) = true := by
  rw [Bool.or_eq_true, before_iff, before_iff]
  exact le_total _ _

end Candidate

end Css2
