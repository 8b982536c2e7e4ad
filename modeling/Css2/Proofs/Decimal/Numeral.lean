import Css2.Proofs.Decimal.Nearest

/-!
# Numerals of doubles

The digits that are chosen for a double stand for that double (`Decimal.shortest_spec`), also
once the zeros at their end are left out (`Decimal.toBits_trim`).  Candidates are tested before
they are chosen, so what is left to argue is that all the digits together are exact.
-/

namespace Css2

/-! ### Counting digits -/

/-- A natural number has so many digits at most if it is less than that power of ten. -/
theorem digitCount_le_iff {n k : Nat} : digitCount n ≤ k ↔ n < 10 ^ k := by
  rw [digitCount]
  split
  · next hn =>
    subst hn
    exact iff_of_true (Nat.zero_le _) (by positivity)
  · next hn =>
    cases k with
    | zero =>
      have hpos : 0 < (Nat.toDigits 10 n).length := Nat.length_toDigits_pos
      simp only [pow_zero]
      omega
    | succ k => exact Nat.length_toDigits_le_iff (by decide) (Nat.succ_pos k)

theorem digitCount_mul_pow {n : Nat} (hn : 0 < n) (k : Nat) :
    digitCount (n * 10 ^ k) = digitCount n + k := by
  have hle : ∀ j, digitCount (n * 10 ^ k) ≤ j + k ↔ digitCount n ≤ j := fun j => by
    rw [digitCount_le_iff, digitCount_le_iff, pow_add]
    exact Nat.mul_lt_mul_right (by positivity)
  have hge : k < digitCount (n * 10 ^ k) := by
    refine (Nat.pow_lt_pow_iff_right (by decide : 1 < 10)).1 ?_
    calc 10 ^ k ≤ n * 10 ^ k := Nat.le_mul_of_pos_left _ hn
      _ < 10 ^ digitCount (n * 10 ^ k) := digitCount_le_iff.1 (Nat.le_refl _)
  have h1 := (hle (digitCount n)).2 (Nat.le_refl _)
  have h2 := (hle (digitCount (n * 10 ^ k) - k)).1 (by omega)
  omega

namespace Decimal

/-! ### The double of a numeral -/

/-- **Zeros at the end of the digits can be put into the exponent.** -/
theorem toBits_mul_pow (negative negative' : Bool) {digits : Nat} (hd : 0 < digits) (k : Nat)
    (e : Int) : toBits ⟨negative, digits * 10 ^ k, e⟩ = toBits ⟨negative', digits, e + k⟩ := by
  have hsize : ((digitCount (digits * 10 ^ k) : Nat) : Int) + e
      = (digitCount digits : Nat) + (e + k) := by
    rw [digitCount_mul_pow hd]
    omega
  have hne : digits * 10 ^ k ≠ 0 := by positivity
  have hquotient : (if 0 ≤ e then nearestBits (digits * 10 ^ k * 10 ^ e.toNat) 1
        else nearestBits (digits * 10 ^ k) (10 ^ (-e).toNat))
      = (if 0 ≤ e + k then nearestBits (digits * 10 ^ (e + k).toNat) 1
        else nearestBits digits (10 ^ (-(e + k)).toNat)) := by
    by_cases he : 0 ≤ e
    · rw [if_pos he, if_pos (by omega), mul_assoc, ← pow_add]
      congr 3
      omega
    · rw [if_neg he]
      by_cases hek : 0 ≤ e + k
      · have hk : k = (e + k).toNat + (-e).toNat := by omega
        rw [if_pos hek, ← nearestBits_mul _ Nat.one_pos (k := 10 ^ (-e).toNat) (by positivity),
          one_mul, mul_assoc, ← pow_add, ← hk]
      · have hk : (-e).toNat = (-(e + k)).toNat + k := by omega
        rw [if_neg hek, hk, pow_add, nearestBits_mul _ (by positivity) (by positivity)]
  unfold toBits
  dsimp only
  rw [hsize, hquotient]
  simp only [hne, hd.ne', false_or]

theorem digits_pos {d : Decimal} (h : d.toBits ≠ 0) : 0 < d.digits := by
  refine Nat.pos_of_ne_zero fun hd => h ?_
  rw [toBits]
  exact if_pos (.inl hd)

/-- **Leaving out zeros does not change the number.** -/
theorem toBits_trim (n : Nat) {d : Decimal} (hd : 0 < d.digits) :
    (trim n d).toBits = d.toBits := by
  induction n generalizing d with
  | zero => rfl
  | succ n ih =>
    rw [trim]
    split
    · next h =>
      obtain ⟨negative, digits, exponent⟩ := d
      dsimp only at h hd ⊢
      have hmul : digits / 10 * 10 ^ 1 = digits := by omega
      have hpos : 0 < digits / 10 := by omega
      rw [ih hpos]
      have hshift := toBits_mul_pow negative negative hpos 1 exponent
      rw [hmul] at hshift
      exact hshift.symm
    · rfl

theorem negative_trim (n : Nat) (d : Decimal) : (trim n d).negative = d.negative := by
  induction n generalizing d with
  | zero => rfl
  | succ n ih =>
    rw [trim]
    split
    · exact ih _
    · rfl

/-! ### The digits of a double -/

theorem neighbour?_spec {bits num den : Nat} {e : Int} {d : Decimal}
    (h : neighbour? bits num den e = some d) : d.negative = false ∧ d.toBits = bits := by
  have hread : ∀ a b : Nat, (if readsBack bits a e = true then some (Decimal.mk false a e)
      else if readsBack bits b e = true then some ⟨false, b, e⟩ else none) = some d →
      d.negative = false ∧ d.toBits = bits := by
    intro a b h
    split at h
    · next ha =>
      cases h
      exact ⟨rfl, eq_of_beq ha⟩
    · split at h
      · next hb =>
        cases h
        exact ⟨rfl, eq_of_beq hb⟩
      · cases h
  rw [neighbour?] at h
  generalize (if 0 ≤ e then (num, den * 10 ^ e.toNat) else (num * 10 ^ (-e).toNat, den)) = q at h
  obtain ⟨n, m⟩ := q
  exact hread _ _ h

theorem toBits_of_reach {d : Decimal} (h1 : -reach ≤ digitCount d.digits + d.exponent)
    (h2 : digitCount d.digits + d.exponent ≤ reach) (hd : 0 < d.digits) :
    d.toBits = if 0 ≤ d.exponent then nearestBits (d.digits * 10 ^ d.exponent.toNat) 1
      else nearestBits d.digits (10 ^ (-d.exponent).toNat) := by
  unfold toBits
  dsimp only
  rw [if_neg (by omega), if_neg (by omega)]

theorem two_pow_le {k n : Nat} (h : k ≤ 3 * n) : 2 ^ k ≤ 10 ^ n := by
  calc 2 ^ k ≤ 2 ^ (3 * n) := Nat.pow_le_pow_right (by decide) h
    _ = (2 ^ 3) ^ n := pow_mul 2 3 n
    _ ≤ 10 ^ n := Nat.pow_le_pow_left (by decide) n

theorem digitCount_mul_two_pow {m k : Nat} (hm : m < 2 ^ 53) (hk : k ≤ 972) :
    digitCount (m * 2 ^ k) ≤ 400 := by
  rw [digitCount_le_iff]
  calc m * 2 ^ k < 2 ^ 53 * 2 ^ k := Nat.mul_lt_mul_of_pos_right hm (by positivity)
    _ = 2 ^ (53 + k) := (pow_add _ _ _).symm
    _ ≤ 10 ^ 400 := two_pow_le (by omega)

/-- The digits of the doubles that are not whole numbers, with `k` of them behind the point. -/
theorem digitCount_mul_five_pow {m k : Nat} (hm : m < 2 ^ 53) (hpos : 0 < m) (hk : k ≤ 1074) :
    digitCount (m * 5 ^ k) ≤ k + 400 ∧ k < digitCount (m * 5 ^ k) + 400 := by
  constructor
  · rw [digitCount_le_iff]
    calc m * 5 ^ k < 2 ^ 53 * 5 ^ k := Nat.mul_lt_mul_of_pos_right hm (by positivity)
      _ ≤ 10 ^ 400 * 10 ^ k :=
        Nat.mul_le_mul (two_pow_le (by decide)) (Nat.pow_le_pow_left (by decide) k)
      _ = 10 ^ (k + 400) := by rw [pow_add, mul_comm]
  · refine (Nat.pow_lt_pow_iff_right (by decide : 1 < 10)).1 ?_
    calc 10 ^ k = 2 ^ k * 5 ^ k := Nat.mul_pow 2 5 k
      _ ≤ 10 ^ 400 * (m * 5 ^ k) :=
        Nat.mul_le_mul (two_pow_le (by omega)) (Nat.le_mul_of_pos_left _ hpos)
      _ < 10 ^ 400 * 10 ^ digitCount (m * 5 ^ k) :=
        Nat.mul_lt_mul_of_pos_left (digitCount_le_iff.1 (Nat.le_refl _)) (by positivity)
      _ = 10 ^ (digitCount (m * 5 ^ k) + 400) := by rw [pow_add, mul_comm]

/-- **All the digits of a double are exact.** -/
theorem toBits_ofDyadic {d : Dyadic} (h : d.Canonical) (hm : 0 < d.mantissa) :
    (ofDyadic d).toBits = d.bits := by
  have hnearest := Dyadic.nearestBits_ratio h hm
  have hreach : reach = 400 := rfl
  have hl : Dyadic.leastExponent = -1074 := rfl
  have hleast := h.least_le
  rw [Dyadic.ratio] at hnearest
  rw [ofDyadic]
  split at hnearest
  · next he =>
    have hexponent : d.exponent.toNat ≤ 972 := by
      have hbits : (d.exponent - Dyadic.leastExponent).toNat * 2 ^ 52 + d.mantissa
          < 0x7ff * 2 ^ 52 := h.bits_lt
      omega
    have hcount := digitCount_mul_two_pow h.mantissa_lt hexponent
    rw [if_pos he, toBits_of_reach (by dsimp only; omega) (by dsimp only; omega) (by positivity)]
    dsimp only
    rw [if_pos (le_refl 0), Int.toNat_zero, pow_zero, mul_one]
    exact hnearest
  · next he =>
    generalize hk : (-d.exponent).toNat = k at hnearest ⊢
    obtain ⟨h1, h2⟩ := digitCount_mul_five_pow (k := k) h.mantissa_lt hm (by omega)
    have hpow : 10 ^ k = 2 ^ k * 5 ^ k := Nat.mul_pow 2 5 k
    rw [if_neg he, toBits_of_reach (by dsimp only; omega) (by dsimp only; omega) (by positivity)]
    dsimp only
    rw [if_neg he, hk, ← hnearest, hpow, nearestBits_mul _ (by positivity) (by positivity)]

theorem negative_ofDyadic (d : Dyadic) : (ofDyadic d).negative = false := by
  rw [ofDyadic]
  split <;> rfl

/-- **The digits that are chosen for a double stand for it.** -/
theorem shortest_spec {d : Dyadic} (h : d.Canonical) (hm : 0 < d.mantissa) :
    (shortest d.bits d).negative = false ∧ (shortest d.bits d).toBits = d.bits := by
  rw [shortest]
  dsimp only
  generalize hf : (List.range' 1 17).findSome? _ = found
  cases found with
  | none => exact ⟨negative_ofDyadic d, toBits_ofDyadic h hm⟩
  | some c =>
    obtain ⟨n, -, hn⟩ := List.exists_of_findSome?_eq_some hf
    exact neighbour?_spec hn

end Decimal

end Css2
