import Css2.Decimal.Shortest

/-! # Numbers with a fixed number of places

The text of a number rounded to so many digits after the point.  The exact value is rounded, and a
half goes to the even neighbour.
-/

namespace Css2

-- Powers are those of core, whatever else a file imports.
attribute [local instance (2000)] instPowNat

/-- A number with exactly `places` digits after the point. -/
def fixedText (places : Nat) (x : Float) : String :=
  match Dyadic.ofFloat? x with
  | none => numberText x
  | some d =>
    let (num, den) := d.ratio
    (Decimal.mk (isNegative x) (roundToEven (num * 10 ^ places) den) (-places)).text

end Css2
