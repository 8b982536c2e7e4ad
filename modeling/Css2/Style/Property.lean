import Css2.Style.Basic

/-! # Properties

The properties that declarations may name: the longhands, and the shorthands that set several of
them at once.
-/

namespace Css2

inductive Property where
  | longhand (l : Longhand)
  | margin
  | padding
  | borderWidth
  | borderStyle
  | borderColor
  | border
  | borderSide (side : Side)
  | background
  deriving DecidableEq, Repr, Inhabited

namespace Property

def name : Property → String
  | longhand l => l.name
  | margin => "margin"
  | padding => "padding"
  | borderWidth => "border-width"
  | borderStyle => "border-style"
  | borderColor => "border-color"
  | border => "border"
  | borderSide side => "border-" ++ side.text
  | background => "background"

def all : List Property :=
  Longhand.all.map longhand
    ++ [margin, padding, borderWidth, borderStyle, borderColor, border, background]
    ++ Side.all.map borderSide

def ofName? (text : String) : Option Property :=
  all.find? fun p => sameName p.name text

def isShorthand : Property → Bool
  | longhand _ => false
  | _ => true

/-- Whether elements take the value of their parent. -/
def isInherited : Property → Bool
  | longhand l => l.isInherited
  | _ => false

def borderParts (side : Side) : List Longhand :=
  [.borderWidth side, .borderStyle side, .borderColor side]

/-- The longhands that a property sets.  Of a background only the color is kept. -/
def longhands : Property → List Longhand
  | longhand l => [l]
  | margin => Side.all.map .margin
  | padding => Side.all.map .padding
  | borderWidth => Side.all.map .borderWidth
  | borderStyle => Side.all.map .borderStyle
  | borderColor => Side.all.map .borderColor
  | border => Side.all.flatMap borderParts
  | borderSide side => borderParts side
  | background => [.backgroundColor]

end Property

end Css2
