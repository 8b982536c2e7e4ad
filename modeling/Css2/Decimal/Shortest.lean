import Css2.Decimal.Basic

/-! # The shortest text of a number

A double is written with the fewest digits that read back as the same double, and among these with
the digits nearest to it; of two equally near ones the larger.  The digits are written without an
exponent, a whole number without a point.  That a text reads back is not argued here but tested:
a candidate counts only when `Decimal.toBits` gives the bits it came from.
-/

namespace Css2

-- Powers are those of core, whatever else a file imports.
attribute [local instance (2000)] instPowNat

namespace Decimal

/-! ### Writing a numeral -/

/-- The digits of a numeral with a point in its place. -/
def magnitudeText (d : Decimal) : String :=
  let digits := Nat.toDigits 10 d.digits
  if 0 ≤ d.exponent then String.ofList (digits ++ List.replicate d.exponent.toNat '0')
  else
    let places := (-d.exponent).toNat
    let padded := List.replicate (places + 1 - digits.length) '0' ++ digits
    let whole := padded.take (padded.length - places)
    let fraction := padded.drop (padded.length - places)
    String.ofList (whole ++ '.' :: fraction)

def text (d : Decimal) : String :=
  if d.negative then "-" ++ d.magnitudeText else d.magnitudeText

/-- The same number without zeros at the end of its digits after the point. -/
def trim : Nat → Decimal → Decimal
  | 0, d => d
  | n + 1, d =>
    if d.exponent < 0 ∧ d.digits % 10 = 0 then
      trim n ⟨d.negative, d.digits / 10, d.exponent + 1⟩
    else d

/-! ### Choosing the digits -/

/-- The number `k` with `10 ^ (k - 1) ≤ num / den < 10 ^ k`, for positive numbers. -/
def scale (num den : Nat) : Int :=
  if den ≤ num then digitCount (num / den)
  else 1 - digitCount ((den + num - 1) / num - 1)

/-- Whether the digits read back as the double with the bits `bits`. -/
def readsBack (bits digits : Nat) (exponent : Int) : Bool :=
  (Decimal.mk false digits exponent).toBits == bits

/-- Of the two numerals next to `num / den` whose last digit counts `10 ^ exponent`, the one that
reads back; the nearer one if both do. -/
def neighbour? (bits num den : Nat) (exponent : Int) : Option Decimal :=
  let (n, d) := if 0 ≤ exponent then (num, den * 10 ^ exponent.toNat)
    else (num * 10 ^ (-exponent).toNat, den)
  let below := n / d
  let above := below + 1
  let nearest := if 2 * (n % d) < d then below else above
  let other := if nearest = below then above else below
  if readsBack bits nearest exponent then some ⟨false, nearest, exponent⟩
  else if readsBack bits other exponent then some ⟨false, other, exponent⟩
  else none

def ofDyadic (d : Dyadic) : Decimal :=
  if 0 ≤ d.exponent then ⟨false, d.mantissa * 2 ^ d.exponent.toNat, 0⟩
  else ⟨false, d.mantissa * 5 ^ (-d.exponent).toNat, d.exponent⟩

/-- The shortest digits that read back as the double with the bits `bits`, whose value is `d`.
Seventeen digits are enough for every double. -/
def shortest (bits : Nat) (d : Dyadic) : Decimal :=
  let (num, den) := d.ratio
  let k := scale num den
  ((List.range' 1 17).findSome? fun (n : Nat) => neighbour? bits num den (k - n)).getD (ofDyadic d)

end Decimal

/-! ### Numbers -/

def numberText (x : Float) : String :=
  let negative := isNegative x
  let sign := if negative then "-" else ""
  match Dyadic.ofFloat? x with
  | none => if x.isNaN then "NaN" else sign ++ "inf"
  | some d =>
    if d.mantissa = 0 then sign ++ "0"
    else
      let digits := Decimal.shortest (x.toBits.toNat % 2 ^ (63 : Nat)) d
      sign ++ (Decimal.trim (digitCount digits.digits) digits).text

end Css2
