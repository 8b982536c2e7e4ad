import Css2.Color
import Css2.Style.Edges
import Css2.Style.Keyword

/-! # Computed styles

A style holds a value for every property.  `Style.get` and `Style.set` name the values by
longhands, so that a property is a list of longhands (`Property`) and an effect on a style is a
list of settings.
-/

namespace Css2

/-! ### Values -/

/-- A length in pixels, or a percentage of something that is not known yet. -/
inductive Length where
  | px (value : Float)
  | percent (value : Float)
  deriving BEq, Repr, Inhabited

namespace Length

def zero : Length := .px 0

/-- The length in pixels, where percentages are taken of `reference`. -/
def toPx (reference : Float) : Length → Float
  | px v => v
  | percent v => v * reference / 100

def isNegative : Length → Bool
  | px v => v < 0
  | percent v => v < 0

end Length

inductive Extent where
  | auto
  | length (l : Length)
  deriving BEq, Repr, Inhabited

inductive Limit where
  | none
  | length (l : Length)
  deriving BEq, Repr, Inhabited

inductive LineHeight where
  | normal
  /-- A multiple of the size of the font. -/
  | factor (value : Float)
  | px (value : Float)
  deriving BEq, Repr, Inhabited

inductive Paint where
  | rgb (color : Rgb)
  | transparent
  | current
  deriving DecidableEq, Repr, Inhabited

/-- The color itself, where the text has the color `current`. -/
def Paint.resolve (current : Rgb) : Paint → Option Rgb
  | rgb color => some color
  | transparent => none
  | .current => some current

/-! ### Styles -/

def mediumBorder : Float := 3

def mediumFont : Float := 16

/-- A value for every property, by default its initial value. -/
structure Style where
  display : Display := .inline
  position : Position := .static
  floating : Floating := .none
  clear : Clear := .none
  offsets : Edges Extent := .same .auto
  /-- Nothing means `auto`. -/
  zIndex : Option Int := none
  width : Extent := .auto
  height : Extent := .auto
  minWidth : Length := .zero
  maxWidth : Limit := .none
  minHeight : Length := .zero
  maxHeight : Limit := .none
  lineHeight : LineHeight := .normal
  visibility : Visibility := .visible
  margin : Edges Extent := .same (.length .zero)
  padding : Edges Length := .same .zero
  /-- In pixels. -/
  borderWidth : Edges Float := .same mediumBorder
  borderStyle : Edges BorderStyle := .same .none
  borderColor : Edges Paint := .same .current
  color : Rgb := .black
  backgroundColor : Paint := .transparent
  fontFamily : List String := ["serif"]
  /-- In pixels. -/
  fontSize : Float := mediumFont
  fontStyle : FontStyle := .normal
  fontVariant : FontVariant := .normal
  fontWeight : Nat := 400
  textAlign : TextAlign := .left
  textIndent : Length := .zero
  whiteSpace : WhiteSpace := .normal
  listStyle : ListStyle := .disc
  deriving BEq, Repr, Inhabited

namespace Style

def initial : Style := {}

/-- What an element begins with: the values of its parent for the properties that are inherited,
and initial values for the others. -/
def inheritFrom (parent : Style) : Style :=
  { initial with
    lineHeight := parent.lineHeight
    visibility := parent.visibility
    color := parent.color
    fontFamily := parent.fontFamily
    fontSize := parent.fontSize
    fontStyle := parent.fontStyle
    fontVariant := parent.fontVariant
    fontWeight := parent.fontWeight
    textAlign := parent.textAlign
    textIndent := parent.textIndent
    whiteSpace := parent.whiteSpace
    listStyle := parent.listStyle }

end Style

/-! ### Longhands -/

inductive Longhand where
  | display
  | position
  | floating
  | clear
  | offset (side : Side)
  | zIndex
  | width
  | height
  | minWidth
  | maxWidth
  | minHeight
  | maxHeight
  | lineHeight
  | visibility
  | margin (side : Side)
  | padding (side : Side)
  | borderWidth (side : Side)
  | borderStyle (side : Side)
  | borderColor (side : Side)
  | color
  | backgroundColor
  | fontFamily
  | fontSize
  | fontStyle
  | fontVariant
  | fontWeight
  | textAlign
  | textIndent
  | whiteSpace
  | listStyle
  deriving DecidableEq, Repr, Inhabited

namespace Longhand

abbrev Computed : Longhand → Type
  | display => Display
  | position => Position
  | floating => Floating
  | clear => Clear
  | offset _ => Extent
  | zIndex => Option Int
  | width => Extent
  | height => Extent
  | minWidth => Length
  | maxWidth => Limit
  | minHeight => Length
  | maxHeight => Limit
  | lineHeight => LineHeight
  | visibility => Visibility
  | margin _ => Extent
  | padding _ => Length
  | borderWidth _ => Float
  | borderStyle _ => BorderStyle
  | borderColor _ => Paint
  | color => Rgb
  | backgroundColor => Paint
  | fontFamily => List String
  | fontSize => Float
  | fontStyle => FontStyle
  | fontVariant => FontVariant
  | fontWeight => Nat
  | textAlign => TextAlign
  | textIndent => Length
  | whiteSpace => WhiteSpace
  | listStyle => ListStyle

/-- Whether elements take the value of their parent. -/
def isInherited : Longhand → Bool
  | color | fontFamily | fontSize | fontStyle | fontVariant | fontWeight | lineHeight | textAlign
  | textIndent | whiteSpace | listStyle | visibility => true
  | _ => false

def name : Longhand → String
  | display => "display"
  | position => "position"
  | floating => "float"
  | clear => "clear"
  | offset side => side.text
  | zIndex => "z-index"
  | width => "width"
  | height => "height"
  | minWidth => "min-width"
  | maxWidth => "max-width"
  | minHeight => "min-height"
  | maxHeight => "max-height"
  | lineHeight => "line-height"
  | visibility => "visibility"
  | margin side => "margin-" ++ side.text
  | padding side => "padding-" ++ side.text
  | borderWidth side => "border-" ++ side.text ++ "-width"
  | borderStyle side => "border-" ++ side.text ++ "-style"
  | borderColor side => "border-" ++ side.text ++ "-color"
  | color => "color"
  | backgroundColor => "background-color"
  | fontFamily => "font-family"
  | fontSize => "font-size"
  | fontStyle => "font-style"
  | fontVariant => "font-variant"
  | fontWeight => "font-weight"
  | textAlign => "text-align"
  | textIndent => "text-indent"
  | whiteSpace => "white-space"
  | listStyle => "list-style-type"

def all : List Longhand :=
  [display, position, floating, clear, zIndex, width, height, minWidth, maxWidth, minHeight,
    maxHeight, lineHeight, visibility, color, backgroundColor, fontFamily, fontSize, fontStyle,
    fontVariant, fontWeight, textAlign, textIndent, whiteSpace, listStyle]
    ++ Side.all.flatMap fun side => [offset side, margin side, padding side, borderWidth side,
      borderStyle side, borderColor side]

end Longhand

/-! ### Getting and setting -/

namespace Style

def get (s : Style) : (l : Longhand) → l.Computed
  | .display => s.display
  | .position => s.position
  | .floating => s.floating
  | .clear => s.clear
  | .offset side => s.offsets.get side
  | .zIndex => s.zIndex
  | .width => s.width
  | .height => s.height
  | .minWidth => s.minWidth
  | .maxWidth => s.maxWidth
  | .minHeight => s.minHeight
  | .maxHeight => s.maxHeight
  | .lineHeight => s.lineHeight
  | .visibility => s.visibility
  | .margin side => s.margin.get side
  | .padding side => s.padding.get side
  | .borderWidth side => s.borderWidth.get side
  | .borderStyle side => s.borderStyle.get side
  | .borderColor side => s.borderColor.get side
  | .color => s.color
  | .backgroundColor => s.backgroundColor
  | .fontFamily => s.fontFamily
  | .fontSize => s.fontSize
  | .fontStyle => s.fontStyle
  | .fontVariant => s.fontVariant
  | .fontWeight => s.fontWeight
  | .textAlign => s.textAlign
  | .textIndent => s.textIndent
  | .whiteSpace => s.whiteSpace
  | .listStyle => s.listStyle

def set (s : Style) : (l : Longhand) → l.Computed → Style
  | .display, v => { s with display := v }
  | .position, v => { s with position := v }
  | .floating, v => { s with floating := v }
  | .clear, v => { s with clear := v }
  | .offset side, v => { s with offsets := s.offsets.set side v }
  | .zIndex, v => { s with zIndex := v }
  | .width, v => { s with width := v }
  | .height, v => { s with height := v }
  | .minWidth, v => { s with minWidth := v }
  | .maxWidth, v => { s with maxWidth := v }
  | .minHeight, v => { s with minHeight := v }
  | .maxHeight, v => { s with maxHeight := v }
  | .lineHeight, v => { s with lineHeight := v }
  | .visibility, v => { s with visibility := v }
  | .margin side, v => { s with margin := s.margin.set side v }
  | .padding side, v => { s with padding := s.padding.set side v }
  | .borderWidth side, v => { s with borderWidth := s.borderWidth.set side v }
  | .borderStyle side, v => { s with borderStyle := s.borderStyle.set side v }
  | .borderColor side, v => { s with borderColor := s.borderColor.set side v }
  | .color, v => { s with color := v }
  | .backgroundColor, v => { s with backgroundColor := v }
  | .fontFamily, v => { s with fontFamily := v }
  | .fontSize, v => { s with fontSize := v }
  | .fontStyle, v => { s with fontStyle := v }
  | .fontVariant, v => { s with fontVariant := v }
  | .fontWeight, v => { s with fontWeight := v }
  | .textAlign, v => { s with textAlign := v }
  | .textIndent, v => { s with textIndent := v }
  | .whiteSpace, v => { s with whiteSpace := v }
  | .listStyle, v => { s with listStyle := v }

end Style

structure Setting where
  longhand : Longhand
  value : longhand.Computed

/-- The style with the values of the settings, one after the other. -/
def Style.assign (s : Style) (settings : List Setting) : Style :=
  settings.foldl (fun s x => s.set x.longhand x.value) s

end Css2
