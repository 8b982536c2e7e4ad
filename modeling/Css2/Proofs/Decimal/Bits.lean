import Css2.Decimal.Shortest
import Mathlib

/-!
# Doubles and their bits

A finite double is put together again from its bits (`ofSignBits_toBits`): from the sign bit and
from the bits of its magnitude, which `Dyadic.ofFloat?` takes apart.
-/

namespace Css2

open Float.Model Float.Model.UnpackedFloat

/-! ### The fields of a double -/

theorem toBitVec_ofBitVec (v : BitVec 1) :
    (Float.Model.UnpackedFloat.Sign.ofBitVec v).toBitVec = v := by
  revert v
  decide

theorem toNat_unpackExponent (b : BitVec 64) :
    (@unpackExponent Format.binary64 b).toNat = b.toNat / 2 ^ 52 % 2 ^ 11 := by
  rw [unpackExponent]
  simp
  omega

theorem toNat_unpackMantissa (b : BitVec 64) :
    (@unpackMantissa Format.binary64 b).toNat = b.toNat % 2 ^ 52 := by
  rw [unpackMantissa]
  simp

theorem toNat_unpackSign (b : BitVec 64) :
    (@unpackSign Format.binary64 b).toNat = b.toNat / 2 ^ 63 := by
  rw [unpackSign]
  simp
  omega

theorem toNat_packComponents (s : Float.Model.UnpackedFloat.Sign) (e : BitVec 11)
    (m : BitVec 52) : (packComponents Format.binary64 s e m).toNat
      = (s.toBitVec.toNat * 2 ^ 11 + e.toNat) * 2 ^ 52 + m.toNat := by
  rw [packComponents]
  rw [BitVec.toNat_append, BitVec.toNat_append, ← Nat.shiftLeft_add_eq_or_of_lt e.isLt,
    ← Nat.shiftLeft_add_eq_or_of_lt m.isLt, Nat.shiftLeft_eq, Nat.shiftLeft_eq]

theorem packComponents_unpack (b : BitVec 64) :
    packComponents Format.binary64
      (Float.Model.UnpackedFloat.Sign.ofBitVec (@unpackSign Format.binary64 b))
      (@unpackExponent Format.binary64 b) (@unpackMantissa Format.binary64 b) = b := by
  apply BitVec.eq_of_toNat_eq
  rw [toNat_packComponents, toBitVec_ofBitVec, toNat_unpackSign, toNat_unpackExponent,
    toNat_unpackMantissa]
  omega

theorem pack_subnormal (s : Float.Model.UnpackedFloat.Sign) {m : BitVec 52} (h : 0 < m.toNat) :
    UnpackedFloat.pack Format.binary64 (.finite s m.toNat (-1074) h)
      = packComponents Format.binary64 s 0#11 m := by
  have hlog : m.toNat.log2 < 52 := (Nat.log2_lt (by omega)).2 m.isLt
  rw [UnpackedFloat.pack]
  dsimp only
  rw [if_neg (by decide), if_neg, BitVec.ofNat_toNat, BitVec.setWidth_eq]
  show ¬m.toNat.log2 + 1 = 53
  omega

/-- A normal number is packed without the bit that its mantissa begins with. -/
theorem pack_normal (s : Float.Model.UnpackedFloat.Sign) {e : BitVec 11} {m : BitVec 52}
    (h : 0 < (1#1 ++ m).toNat) (he : e.toNat ≠ 2047) :
    UnpackedFloat.pack Format.binary64 (.finite s (1#1 ++ m).toNat (e.toNat - 1075) h)
      = packComponents Format.binary64 s e m := by
  have hm : (1#1 ++ m).toNat = 2 ^ 52 + m.toNat := by
    rw [BitVec.toNat_append, ← Nat.shiftLeft_add_eq_or_of_lt m.isLt]
    rfl
  have hlog : (1#1 ++ m).toNat.log2 = 52 := by
    rw [hm, Nat.log2_eq_iff (by omega)]
    have := m.isLt
    omega
  have hexp : ((e.toNat : Int) - 1075 + (Format.binary64.exponentBias : Nat)
      + (Format.binary64.mantissaBitsWithoutImplicit : Nat)).toNat = e.toNat := by
    have h1 : ((Format.binary64.exponentBias : Nat) : Int) = 1023 := rfl
    have h2 : ((Format.binary64.mantissaBitsWithoutImplicit : Nat) : Int) = 52 := rfl
    omega
  have hlt := e.isLt
  rw [UnpackedFloat.pack]
  dsimp only
  rw [hexp, hlog, if_neg, if_pos (show 52 + 1 = Format.binary64.mantissaBits from rfl),
    BitVec.ofNat_toNat, BitVec.setWidth_eq, hm]
  · congr 1
    apply BitVec.eq_of_toNat_eq
    rw [BitVec.toNat_ofNat]
    have := m.isLt
    show (2 ^ 52 + m.toNat) % 2 ^ 52 = m.toNat
    omega
  · show ¬2 ^ 11 ≤ e.toNat + 1
    omega

/-- **A double that is neither infinite nor NaN is what its unpacked form is packed to.** -/
theorem pack_unpack {b : BitVec 64} (h : b.toNat / 2 ^ 52 % 2 ^ 11 ≠ 2047) :
    UnpackedFloat.pack Format.binary64 (UnpackedFloat.unpack Format.binary64 b) = b := by
  have hcomponents := packComponents_unpack b
  have hexp := toNat_unpackExponent b
  rw [← hexp] at h
  have hne : @unpackExponent Format.binary64 b ≠ -1#11 := by
    intro he
    rw [he] at h
    exact h rfl
  rw [UnpackedFloat.unpack]
  dsimp only
  rw [if_neg hne]
  split
  · next he =>
    rw [he] at hcomponents
    split
    · next hm =>
      rw [hm] at hcomponents
      exact hcomponents
    · simp only [he]
      exact (pack_subnormal _ _).trans hcomponents
  · exact (pack_normal _ _ h).trans hcomponents

/-! ### The magnitude of a double -/

def magnitudeBits (x : Float) : Nat :=
  x.toBits.toNat % 2 ^ 63

/-- A double is finite if the bits of its magnitude are below those of an infinite one. -/
theorem isFinite_iff (x : Float) : x.isFinite = true ↔ magnitudeBits x < Dyadic.infiniteBits := by
  have hexp := toNat_unpackExponent x.toBits.toBitVec
  have hlt := x.toBits.toBitVec.isLt
  have hmodel : x.isFinite
      = (UnpackedFloat.unpack Format.binary64 x.toBits.toBitVec).isFinite := rfl
  have hbits : magnitudeBits x = x.toBits.toBitVec.toNat % 2 ^ 63 := rfl
  rw [hmodel, hbits]
  rw [Dyadic.infiniteBits]
  rw [UnpackedFloat.unpack]
  dsimp only
  split
  · next he =>
    have h2047 : (@unpackExponent Format.binary64 x.toBits.toBitVec).toNat = 2047 := by
      rw [he]
      rfl
    have hfalse : ¬x.toBits.toBitVec.toNat % 2 ^ 63 < 0x7ff * 2 ^ 52 := by omega
    split <;> exact iff_of_false Bool.false_ne_true hfalse
  · next he =>
    have h2047 : (@unpackExponent Format.binary64 x.toBits.toBitVec).toNat ≠ 2047 :=
      fun h => he (BitVec.eq_of_toNat_eq h)
    have htrue : x.toBits.toBitVec.toNat % 2 ^ 63 < 0x7ff * 2 ^ 52 := by omega
    split
    · split <;> exact iff_of_true rfl htrue
    · exact iff_of_true rfl htrue

/-- **A finite double is what its bits say.** -/
theorem ofBits_toBits {x : Float} (h : x.isFinite = true) : Float.ofBits x.toBits = x := by
  rw [isFinite_iff] at h
  obtain ⟨⟨bits, hvalid⟩⟩ := x
  have hne : bits.toBitVec.toNat / 2 ^ 52 % 2 ^ 11 ≠ 2047 := by
    have hlt : bits.toBitVec.toNat % 2 ^ 63 < 0x7ff * 2 ^ 52 := h
    omega
  have hpack := pack_unpack hne
  show Float.ofModel (Float.Model.ofBits bits) = _
  congr 1
  rw [Float.Model.ofBits, Float.Model.pack]
  congr 1
  rw [hpack]

/-- **A finite double is put together from its sign and the bits of its magnitude.** -/
theorem ofSignBits_toBits {x : Float} (h : x.isFinite = true) :
    ofSignBits (isNegative x) (magnitudeBits x) = x := by
  have hlt := x.toBits.toBitVec.isLt
  have hbits : (if isNegative x = true then 2 ^ 63 + magnitudeBits x else magnitudeBits x)
      = x.toBits.toNat := by
    rw [isNegative, magnitudeBits]
    have hnat : x.toBits.toNat = x.toBits.toBitVec.toNat := rfl
    rw [hnat]
    by_cases hneg : 2 ^ 63 ≤ x.toBits.toBitVec.toNat
    · rw [if_pos (by simpa using hneg)]
      omega
    · rw [if_neg (by simpa using hneg)]
      omega
  rw [ofSignBits]
  rw [hbits, UInt64.ofNat_toNat, ofBits_toBits h]

/-! ### The magnitude as a dyadic number -/

namespace Dyadic

/-- The bits of the magnitude of a double that is a dyadic number. -/
def bits (d : Dyadic) : Nat :=
  (d.exponent - leastExponent).toNat * 2 ^ 52 + d.mantissa

/-- The dyadic numbers that the magnitudes of doubles are: only the smallest have a mantissa of
less than 53 bits. -/
structure Canonical (d : Dyadic) : Prop where
  mantissa_lt : d.mantissa < 2 ^ 53
  least_le : leastExponent ≤ d.exponent
  normal : d.exponent = leastExponent ∨ 2 ^ 52 ≤ d.mantissa
  bits_lt : d.bits < infiniteBits

/-- **A magnitude is a canonical dyadic number with the same bits.** -/
theorem ofFloat?_eq_some {x : Float} {d : Dyadic} (h : ofFloat? x = some d) :
    d.Canonical ∧ d.bits = magnitudeBits x := by
  have hbits : x.toBits.toNat % 2 ^ 63 = magnitudeBits x := rfl
  have hleast : leastExponent = -1074 := rfl
  unfold ofFloat? at h
  dsimp only at h
  rw [hbits] at h
  generalize magnitudeBits x = b at h
  split at h
  · cases h
  · next hlt =>
    split at h
    · next hfield =>
      cases h
      have heq : bits ⟨b % 2 ^ 52, leastExponent⟩ = b := by
        show (leastExponent - leastExponent).toNat * 2 ^ 52 + b % 2 ^ 52 = b
        omega
      refine ⟨⟨?_, Int.le_refl _, .inl rfl, ?_⟩, heq⟩
      · show b % 2 ^ 52 < 2 ^ 53
        omega
      · rw [heq]
        omega
    · next hfield =>
      cases h
      have heq : bits ⟨2 ^ 52 + b % 2 ^ 52, Int.ofNat (b / 2 ^ 52) + (leastExponent - 1)⟩ = b := by
        show (((b / 2 ^ 52 : Nat) : Int) + (leastExponent - 1) - leastExponent).toNat * 2 ^ 52
          + (2 ^ 52 + b % 2 ^ 52) = b
        omega
      refine ⟨⟨?_, ?_, .inr (Nat.le_add_right _ _), ?_⟩, heq⟩
      · show 2 ^ 52 + b % 2 ^ 52 < 2 ^ 53
        omega
      · show leastExponent ≤ ((b / 2 ^ 52 : Nat) : Int) + (leastExponent - 1)
        omega
      · rw [heq]
        omega

theorem exists_ofFloat? {x : Float} (h : x.isFinite = true) : ∃ d, ofFloat? x = some d := by
  have hbits : x.toBits.toNat % 2 ^ 63 = magnitudeBits x := rfl
  rw [isFinite_iff] at h
  unfold ofFloat?
  dsimp only
  rw [hbits, if_neg (Nat.not_le.2 h)]
  split <;> exact ⟨_, rfl⟩

end Dyadic

end Css2
