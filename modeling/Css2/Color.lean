import Css2.Decimal.Basic

/-! # Colors

Opaque colors of three channels, as CSS 2.1 § 4.3.6 writes them: seventeen names, three or six
hexadecimal digits, and channels given as numbers or percentages.
-/

namespace Css2

structure Rgb where
  red : UInt8
  green : UInt8
  blue : UInt8
  deriving DecidableEq, Repr, Inhabited

namespace Rgb

def black : Rgb := ⟨0, 0, 0⟩

def white : Rgb := ⟨255, 255, 255⟩

def text (c : Rgb) : String :=
  "rgb(" ++ toString c.red.toNat ++ ", " ++ toString c.green.toNat ++ ", "
    ++ toString c.blue.toNat ++ ")"

/-! ### Names -/

def named : List (String × Rgb) :=
  [("aqua", ⟨0, 255, 255⟩), ("black", black), ("blue", ⟨0, 0, 255⟩), ("fuchsia", ⟨255, 0, 255⟩),
    ("gray", ⟨128, 128, 128⟩), ("green", ⟨0, 128, 0⟩), ("lime", ⟨0, 255, 0⟩),
    ("maroon", ⟨128, 0, 0⟩), ("navy", ⟨0, 0, 128⟩), ("olive", ⟨128, 128, 0⟩),
    ("orange", ⟨255, 165, 0⟩), ("purple", ⟨128, 0, 128⟩), ("red", ⟨255, 0, 0⟩),
    ("silver", ⟨192, 192, 192⟩), ("teal", ⟨0, 128, 128⟩), ("white", white),
    ("yellow", ⟨255, 255, 0⟩)]

def ofName? (name : String) : Option Rgb :=
  (named.find? fun entry => sameName entry.1 name).map Prod.snd

/-! ### Hexadecimal digits -/

def channelOfHex (high low : Nat) : UInt8 :=
  UInt8.ofNat (16 * high + low)

/-- A color from three or six hexadecimal digits, a number sign before them being allowed.  Three
digits stand for six, each digit being written twice. -/
def ofHex? (text : String) : Option Rgb :=
  let digits := match text.toList with
    | '#' :: cs => cs
    | cs => cs
  match digits.mapM hexValue? with
  | some [r, g, b] => some ⟨channelOfHex r r, channelOfHex g g, channelOfHex b b⟩
  | some [r, r', g, g', b, b'] => some ⟨channelOfHex r r', channelOfHex g g', channelOfHex b b'⟩
  | _ => none

/-! ### Numbers -/

/-- The whole number nearest to `x`, at most 255 and at least zero; a half goes up. -/
def clampToByte (x : Float) : UInt8 :=
  if x ≥ 255 then 255
  else if x > 0 then
    match Dyadic.ofFloat? x with
    | some d => UInt8.ofNat (roundHalfUp d.ratio.1 d.ratio.2)
    | none => 0
  else 0

/-- The channel that a number or a percentage gives. -/
def channelOfFloat (x : Float) (isPercentage : Bool) : UInt8 :=
  clampToByte (if isPercentage then x * 255 / 100 else x)

end Rgb

end Css2
