import Css2.Proofs.Decimal.Bits
import Mathlib.Algebra.Field.Rat
import Mathlib.Algebra.Order.Field.Power
import Mathlib.Algebra.Order.Ring.Rat
import Mathlib.Tactic.Linarith
import Mathlib.Tactic.Ring

/-!
# The nearest double

The rounding of a quotient depends on the quotient alone and not on how it is written
(`nearestBits_mul`), and a quotient that is a double is not rounded at all
(`nearestBits_ratio`).
-/

namespace Css2

/-! ### The binary scale -/

/-- The test that `binaryScale` makes, as an inequality. -/
theorem reached_iff {num den : Nat} (e : Int) :
    (if 0 ≤ e then den * 2 ^ e.toNat ≤ num else den ≤ num * 2 ^ (-e).toNat)
      ↔ (2 : ℚ) ^ e * den ≤ num := by
  split
  · next he =>
    obtain ⟨k, rfl⟩ := Int.eq_ofNat_of_zero_le he
    rw [Int.toNat_natCast, zpow_natCast, mul_comm]
    exact_mod_cast Iff.rfl
  · next he =>
    obtain ⟨k, hk⟩ := Int.eq_ofNat_of_zero_le (show 0 ≤ -e by omega)
    obtain rfl : e = -(k : Int) := by omega
    rw [neg_neg, Int.toNat_natCast, zpow_neg, zpow_natCast, inv_mul_le_iff₀ (by positivity),
      mul_comm]
    exact_mod_cast Iff.rfl

/-- **The binary scale of a quotient** is the power of two at or below it. -/
theorem binaryScale_spec {num den : Nat} (hn : 0 < num) (hd : 0 < den) :
    (2 : ℚ) ^ binaryScale num den * den ≤ num ∧
      (num : ℚ) < 2 ^ (binaryScale num den + 1) * den := by
  have hn1 : (2 : ℚ) ^ (num.log2 : Int) ≤ num := by
    rw [zpow_natCast]
    exact_mod_cast Nat.log2_self_le hn.ne'
  have hn2 : (num : ℚ) < 2 ^ ((num.log2 : Int) + 1) := by
    rw [← Int.natCast_succ, zpow_natCast]
    exact_mod_cast Nat.lt_log2_self
  have hd1 : (2 : ℚ) ^ (den.log2 : Int) ≤ den := by
    rw [zpow_natCast]
    exact_mod_cast Nat.log2_self_le hd.ne'
  have hd2 : (den : ℚ) < 2 ^ ((den.log2 : Int) + 1) := by
    rw [← Int.natCast_succ, zpow_natCast]
    exact_mod_cast Nat.lt_log2_self
  unfold binaryScale
  dsimp only
  generalize he : (num.log2 : Int) - den.log2 = e
  by_cases hreached : (2 : ℚ) ^ e * den ≤ num
  · rw [if_pos ((reached_iff e).2 hreached)]
    refine ⟨hreached, ?_⟩
    calc (num : ℚ) < 2 ^ ((num.log2 : Int) + 1) := hn2
      _ = 2 ^ (e + 1) * 2 ^ (den.log2 : Int) := by
        rw [← zpow_add₀ two_ne_zero, ← he]
        congr 1
        ring
      _ ≤ 2 ^ (e + 1) * den := mul_le_mul_of_nonneg_left hd1 (by positivity)
  · rw [if_neg (mt (reached_iff e).1 hreached), sub_add_cancel]
    refine ⟨?_, not_le.1 hreached⟩
    calc (2 : ℚ) ^ (e - 1) * den ≤ 2 ^ (e - 1) * 2 ^ ((den.log2 : Int) + 1) :=
        mul_le_mul_of_nonneg_left hd2.le (by positivity)
      _ = 2 ^ (num.log2 : Int) := by
        rw [← zpow_add₀ two_ne_zero, ← he]
        congr 1
        ring
      _ ≤ num := hn1

theorem binaryScale_eq {num den : Nat} (hn : 0 < num) (hd : 0 < den) {e : Int}
    (h1 : (2 : ℚ) ^ e * den ≤ num) (h2 : (num : ℚ) < 2 ^ (e + 1) * den) :
    binaryScale num den = e := by
  obtain ⟨h3, h4⟩ := binaryScale_spec hn hd
  have hpos : (0 : ℚ) < den := by exact_mod_cast hd
  have hle : ∀ a b : Int, (2 : ℚ) ^ a * den < 2 ^ (b + 1) * den → a ≤ b := by
    intro a b h
    have hlt := (zpow_lt_zpow_iff_right₀ one_lt_two).1 (lt_of_mul_lt_mul_right h hpos.le)
    omega
  exact le_antisymm (hle _ _ (h3.trans_lt h2)) (hle _ _ (h1.trans_lt h4))

/-! ### Rounding -/

theorem roundToEven_mul (num den : Nat) {k : Nat} (hk : 0 < k) :
    roundToEven (num * k) (den * k) = roundToEven num den := by
  have hlt : ∀ a b : Nat, 2 * (a * k) < b * k ↔ 2 * a < b := fun a b => by
    rw [← Nat.mul_assoc]
    exact Nat.mul_lt_mul_right hk
  have hgt : ∀ a b : Nat, b * k < 2 * (a * k) ↔ b < 2 * a := fun a b => by
    rw [← Nat.mul_assoc]
    exact Nat.mul_lt_mul_right hk
  unfold roundToEven
  dsimp only
  rw [Nat.mul_div_mul_right _ _ hk, Nat.mul_mod_mul_right]
  simp only [hlt, hgt]

theorem roundToEven_self (n : Nat) {k : Nat} (hk : 0 < k) : roundToEven (n * k) k = n := by
  unfold roundToEven
  dsimp only
  rw [Nat.mul_mod_left, if_pos (by omega), Nat.mul_div_cancel _ hk]

theorem binaryScale_mul {num den k : Nat} (hn : 0 < num) (hd : 0 < den) (hk : 0 < k) :
    binaryScale (num * k) (den * k) = binaryScale num den := by
  obtain ⟨h1, h2⟩ := binaryScale_spec hn hd
  have hpos : (0 : ℚ) < k := by exact_mod_cast hk
  refine binaryScale_eq (Nat.mul_pos hn hk) (Nat.mul_pos hd hk) ?_ ?_
  · rw [Nat.cast_mul, Nat.cast_mul, ← mul_assoc]
    exact mul_le_mul_of_nonneg_right h1 hpos.le
  · rw [Nat.cast_mul, Nat.cast_mul, ← mul_assoc]
    exact mul_lt_mul_of_pos_right h2 hpos

theorem nearestBits_zero (den : Nat) : nearestBits 0 den = 0 :=
  if_pos rfl

/-- **The nearest double does not depend on how a quotient is written.** -/
theorem nearestBits_mul (num : Nat) {den k : Nat} (hd : 0 < den) (hk : 0 < k) :
    nearestBits (num * k) (den * k) = nearestBits num den := by
  by_cases hn : num = 0
  · rw [hn, Nat.zero_mul, nearestBits_zero, nearestBits_zero]
  · have hround : ∀ a b : Nat, roundToEven (num * k * a) (den * k * b)
        = roundToEven (num * a) (den * b) := fun a b => by
      rw [Nat.mul_right_comm, Nat.mul_right_comm den, roundToEven_mul _ _ hk]
    have hleft := hround 1
    have hright := fun a => hround a 1
    simp only [Nat.mul_one] at hleft hright
    unfold nearestBits
    rw [if_neg hn, if_neg (Nat.mul_ne_zero hn hk.ne'),
      binaryScale_mul (Nat.pos_of_ne_zero hn) hd hk]
    dsimp only
    rw [hleft, hright]

/-! ### Doubles -/

namespace Dyadic

variable {d : Dyadic}

theorem ratio_spec (hm : 0 < d.mantissa) : 0 < d.ratio.1 ∧ 0 < d.ratio.2 ∧
    (d.ratio.1 : ℚ) = d.mantissa * 2 ^ d.exponent * d.ratio.2 := by
  rw [ratio]
  split
  · next he =>
    obtain ⟨k, hk⟩ := Int.eq_ofNat_of_zero_le he
    refine ⟨by positivity, Nat.one_pos, ?_⟩
    simp [hk]
  · next he =>
    obtain ⟨k, hk⟩ := Int.eq_ofNat_of_zero_le (show 0 ≤ -d.exponent by omega)
    obtain hneg : d.exponent = -(k : Int) := by omega
    refine ⟨hm, by positivity, ?_⟩
    simp [hneg]

theorem binaryScale_ratio (hm : 0 < d.mantissa) :
    binaryScale d.ratio.1 d.ratio.2 = d.mantissa.log2 + d.exponent := by
  obtain ⟨hn, hd, heq⟩ := ratio_spec hm
  have h1 : (2 : ℚ) ^ (d.mantissa.log2 : Int) ≤ d.mantissa := by
    rw [zpow_natCast]
    exact_mod_cast Nat.log2_self_le hm.ne'
  have h2 : (d.mantissa : ℚ) < 2 ^ ((d.mantissa.log2 : Int) + 1) := by
    rw [← Int.natCast_succ, zpow_natCast]
    exact_mod_cast Nat.lt_log2_self
  have hpos : (0 : ℚ) < d.ratio.2 := by exact_mod_cast hd
  have hpow : (0 : ℚ) < 2 ^ d.exponent := by positivity
  refine binaryScale_eq hn hd ?_ ?_
  · rw [heq, zpow_add₀ two_ne_zero]
    exact mul_le_mul_of_nonneg_right (mul_le_mul_of_nonneg_right h1 hpow.le) hpos.le
  · rw [heq, add_right_comm, zpow_add₀ two_ne_zero]
    exact mul_lt_mul_of_pos_right (mul_lt_mul_of_pos_right h2 hpow) hpos

/-- **A quotient that is a double is not rounded.** -/
theorem nearestBits_ratio (h : d.Canonical) (hm : 0 < d.mantissa) :
    nearestBits d.ratio.1 d.ratio.2 = d.bits := by
  obtain ⟨hn, -, -⟩ := ratio_spec hm
  have hlog : d.mantissa.log2 ≤ 52 := by
    have := (Nat.log2_lt hm.ne').2 h.mantissa_lt
    omega
  have hlast : max (binaryScale d.ratio.1 d.ratio.2 - 52) leastExponent = d.exponent := by
    rw [binaryScale_ratio hm]
    have hleast := h.least_le
    rcases h.normal with heq | hnormal
    · omega
    · have := (Nat.le_log2 hm.ne').2 hnormal
      omega
  have hround : (if 0 ≤ d.exponent then roundToEven d.ratio.1 (d.ratio.2 * 2 ^ d.exponent.toNat)
      else roundToEven (d.ratio.1 * 2 ^ (-d.exponent).toNat) d.ratio.2) = d.mantissa := by
    rw [ratio]
    split
    · rw [Nat.one_mul]
      exact roundToEven_self _ (by positivity)
    · exact roundToEven_self _ (by positivity)
  rw [nearestBits]
  rw [if_neg hn.ne']
  dsimp only
  rw [hlast, hround]
  exact Nat.min_eq_left h.bits_lt.le

end Dyadic

end Css2
