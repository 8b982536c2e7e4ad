import Css2.Text

/-! # Decimal numerals

A numeral is a sign, a string of digits read as one natural number, and a power of ten.  Its value
as a double is the nearest one, and of two equally near ones the one whose last bit is zero;
beyond the largest double it is infinite.  All of it is exact arithmetic on natural numbers, and
the double is put together from its bits at the very end.
-/

namespace Css2

-- Powers are those of core, whatever else a file imports.
attribute [local instance (2000)] instPowNat

/-! ### Doubles as dyadic numbers -/

/-- The number `mantissa * 2 ^ exponent`. -/
structure Dyadic where
  mantissa : Nat
  exponent : Int
  deriving DecidableEq, Repr

namespace Dyadic

/-- The exponent of the last bit of the smallest doubles. -/
def leastExponent : Int := -1074

def infiniteBits : Nat := 0x7ff * 2 ^ (52 : Nat)

/-- The magnitude of a double, unless it is infinite or not a number. -/
def ofFloat? (x : Float) : Option Dyadic :=
  let bits := x.toBits.toNat % 2 ^ (63 : Nat)
  let field := bits / 2 ^ (52 : Nat)
  let fraction := bits % 2 ^ (52 : Nat)
  if infiniteBits ≤ bits then none
  else if field = 0 then some ⟨fraction, leastExponent⟩
  else some ⟨2 ^ (52 : Nat) + fraction, Int.ofNat field + (leastExponent - 1)⟩

/-- The magnitude as a quotient of natural numbers. -/
def ratio (d : Dyadic) : Nat × Nat :=
  if 0 ≤ d.exponent then (d.mantissa * 2 ^ d.exponent.toNat, 1)
  else (d.mantissa, 2 ^ (-d.exponent).toNat)

end Dyadic

def isNegative (x : Float) : Bool :=
  2 ^ (63 : Nat) ≤ x.toBits.toNat

/-! ### Rounding a quotient -/

/-- The natural number nearest to `num / den`; a half goes to the even neighbour. -/
def roundToEven (num den : Nat) : Nat :=
  let q := num / den
  let r := num % den
  if 2 * r < den then q
  else if den < 2 * r then q + 1
  else if q % 2 = 0 then q else q + 1

/-- The natural number nearest to `num / den`; a half goes up. -/
def roundHalfUp (num den : Nat) : Nat :=
  (2 * num + den) / (2 * den)

/-- The largest `e` with `2 ^ e ≤ num / den`, for positive numbers. -/
def binaryScale (num den : Nat) : Int :=
  let e : Int := (num.log2 : Int) - den.log2
  let reached := if 0 ≤ e then den * 2 ^ e.toNat ≤ num else den ≤ num * 2 ^ (-e).toNat
  if reached then e else e - 1

/-- The bits of the double nearest to `num / den`, without a sign. -/
def nearestBits (num den : Nat) : Nat :=
  if num = 0 then 0
  else
    let q := max (binaryScale num den - 52) Dyadic.leastExponent
    let m := if 0 ≤ q then roundToEven num (den * 2 ^ q.toNat)
      else roundToEven (num * 2 ^ (-q).toNat) den
    min ((q - Dyadic.leastExponent).toNat * 2 ^ (52 : Nat) + m) Dyadic.infiniteBits

/-- The double with the given sign and magnitude bits. -/
def ofSignBits (negative : Bool) (bits : Nat) : Float :=
  Float.ofBits (UInt64.ofNat (if negative then 2 ^ (63 : Nat) + bits else bits))

/-! ### Numerals -/

/-- The number of decimal digits of a natural number; zero has none. -/
def digitCount (n : Nat) : Nat :=
  if n = 0 then 0 else (Nat.toDigits 10 n).length

/-- The numeral `digits * 10 ^ exponent` with a sign. -/
structure Decimal where
  negative : Bool
  digits : Nat
  exponent : Int
  deriving DecidableEq, Repr

namespace Decimal

/-- Powers of ten past which every numeral is infinite, or zero. -/
def reach : Int := 400

/-- The bits of the double nearest to the numeral's magnitude.  A numeral far outside the range
of doubles is not worked out. -/
def toBits (d : Decimal) : Nat :=
  let size : Int := digitCount d.digits + d.exponent
  if d.digits = 0 ∨ size < -reach then 0
  else if reach < size then Dyadic.infiniteBits
  else if 0 ≤ d.exponent then nearestBits (d.digits * 10 ^ d.exponent.toNat) 1
  else nearestBits d.digits (10 ^ (-d.exponent).toNat)

def toFloat (d : Decimal) : Float :=
  ofSignBits d.negative d.toBits

/-! ### Reading numerals -/

/-- The natural number that a string of digits writes. -/
def natOfDigits (digits : List Char) : Nat :=
  digits.foldl (fun n c => 10 * n + (c.toNat - '0'.toNat)) 0

/-- The numeral with the given parts: whole digits, digits after the point, and exponent. -/
def ofParts (negative : Bool) (whole fraction : List Char) (exponent : Int) : Decimal :=
  ⟨negative, natOfDigits (whole ++ fraction), exponent - fraction.length⟩

end Decimal

def takeSign : List Char → Bool × List Char
  | '+' :: cs => (false, cs)
  | '-' :: cs => (true, cs)
  | cs => (false, cs)

/-- Reads the exponent that ends a numeral: nothing, or `e` with an optional sign and digits. -/
def exponentOfText? : List Char → Option Int
  | [] => some 0
  | c :: cs =>
    if c = 'e' ∨ c = 'E' then
      let (negative, digits) := takeSign cs
      if digits.isEmpty || !digits.all Char.isDigit then none
      else
        let n : Int := Decimal.natOfDigits digits
        some (if negative then -n else n)
    else none

/-- Reads a number as people type it: an optional sign, then `inf`, `infinity` or `nan` in any
case, or digits with an optional point and exponent, at least one digit before the exponent. -/
def floatOfText? (text : String) : Option Float :=
  let (negative, cs) := takeSign text.toList
  let word := (String.ofList cs).toLower
  if word = "inf" ∨ word = "infinity" then some (ofSignBits negative Dyadic.infiniteBits)
  else if word = "nan" then some (ofSignBits negative (Dyadic.infiniteBits + 2 ^ (51 : Nat)))
  else
    let whole := cs.takeWhile Char.isDigit
    let rest := cs.dropWhile Char.isDigit
    let (fraction, rest) := match rest with
      | '.' :: after => (after.takeWhile Char.isDigit, after.dropWhile Char.isDigit)
      | _ => ([], rest)
    if whole.isEmpty && fraction.isEmpty then none
    else (exponentOfText? rest).map fun e => (Decimal.ofParts negative whole fraction e).toFloat

end Css2
