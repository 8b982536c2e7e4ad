import Css2.Text

/-! # Keywords

The properties whose values are keywords, each as a type of its own.  A keyword is found by its
name without regard to the case of ASCII letters.
-/

namespace Css2

class Keyword (α : Type) where
  /-- The keywords in the order of the specification. -/
  all : List α
  /-- How a keyword is written. -/
  text : α → String

def Keyword.ofName? {α : Type} [Keyword α] (name : String) : Option α :=
  (Keyword.all (α := α)).find? fun k => sameName (Keyword.text k) name

/-! ### Boxes -/

/-- Values of `display`. -/
inductive Display where
  | inline
  | block
  | listItem
  | runIn
  | inlineBlock
  | table
  | inlineTable
  | tableRowGroup
  | tableHeaderGroup
  | tableFooterGroup
  | tableRow
  | tableColumnGroup
  | tableColumn
  | tableCell
  | tableCaption
  | none
  deriving DecidableEq, Repr, Inhabited

instance : Keyword Display where
  all := [.inline, .block, .listItem, .runIn, .inlineBlock, .table, .inlineTable, .tableRowGroup,
    .tableHeaderGroup, .tableFooterGroup, .tableRow, .tableColumnGroup, .tableColumn, .tableCell,
    .tableCaption, .none]
  text
    | .inline => "inline"
    | .block => "block"
    | .listItem => "list-item"
    | .runIn => "run-in"
    | .inlineBlock => "inline-block"
    | .table => "table"
    | .inlineTable => "inline-table"
    | .tableRowGroup => "table-row-group"
    | .tableHeaderGroup => "table-header-group"
    | .tableFooterGroup => "table-footer-group"
    | .tableRow => "table-row"
    | .tableColumnGroup => "table-column-group"
    | .tableColumn => "table-column"
    | .tableCell => "table-cell"
    | .tableCaption => "table-caption"
    | .none => "none"

/-- The value that `display` takes on a box that floats or is positioned: what is inline or inside
of a table becomes a block. -/
def Display.blockified : Display → Display
  | inlineTable => table
  | block => block
  | listItem => listItem
  | table => table
  | none => none
  | _ => block

/-- Values of `position`. -/
inductive Position where
  | static
  | relative
  | absolute
  | fixed
  deriving DecidableEq, Repr, Inhabited

instance : Keyword Position where
  all := [.static, .relative, .absolute, .fixed]
  text
    | .static => "static"
    | .relative => "relative"
    | .absolute => "absolute"
    | .fixed => "fixed"

/-- Values of `float`. -/
inductive Floating where
  | left
  | right
  | none
  deriving DecidableEq, Repr, Inhabited

instance : Keyword Floating where
  all := [.left, .right, .none]
  text
    | .left => "left"
    | .right => "right"
    | .none => "none"

/-- Values of `clear`. -/
inductive Clear where
  | none
  | left
  | right
  | both
  deriving DecidableEq, Repr, Inhabited

instance : Keyword Clear where
  all := [.none, .left, .right, .both]
  text
    | .none => "none"
    | .left => "left"
    | .right => "right"
    | .both => "both"

/-- Values of `visibility`. -/
inductive Visibility where
  | visible
  | hidden
  | collapse
  deriving DecidableEq, Repr, Inhabited

instance : Keyword Visibility where
  all := [.visible, .hidden, .collapse]
  text
    | .visible => "visible"
    | .hidden => "hidden"
    | .collapse => "collapse"

/-- Values of `border-style`. -/
inductive BorderStyle where
  | none
  | hidden
  | dotted
  | dashed
  | solid
  | double
  | groove
  | ridge
  | inset
  | outset
  deriving DecidableEq, Repr, Inhabited

instance : Keyword BorderStyle where
  all := [.none, .hidden, .dotted, .dashed, .solid, .double, .groove, .ridge, .inset, .outset]
  text
    | .none => "none"
    | .hidden => "hidden"
    | .dotted => "dotted"
    | .dashed => "dashed"
    | .solid => "solid"
    | .double => "double"
    | .groove => "groove"
    | .ridge => "ridge"
    | .inset => "inset"
    | .outset => "outset"

def BorderStyle.hasNoWidth : BorderStyle → Bool
  | none => true
  | hidden => true
  | _ => false

/-! ### Text -/

/-- Values of `font-style`. -/
inductive FontStyle where
  | normal
  | italic
  | oblique
  deriving DecidableEq, Repr, Inhabited

instance : Keyword FontStyle where
  all := [.normal, .italic, .oblique]
  text
    | .normal => "normal"
    | .italic => "italic"
    | .oblique => "oblique"

/-- Values of `font-variant`. -/
inductive FontVariant where
  | normal
  | smallCaps
  deriving DecidableEq, Repr, Inhabited

instance : Keyword FontVariant where
  all := [.normal, .smallCaps]
  text
    | .normal => "normal"
    | .smallCaps => "small-caps"

/-- Values of `text-align`. -/
inductive TextAlign where
  | left
  | right
  | center
  | justify
  deriving DecidableEq, Repr, Inhabited

instance : Keyword TextAlign where
  all := [.left, .right, .center, .justify]
  text
    | .left => "left"
    | .right => "right"
    | .center => "center"
    | .justify => "justify"

/-- Values of `white-space`. -/
inductive WhiteSpace where
  | normal
  | pre
  | nowrap
  | preWrap
  | preLine
  deriving DecidableEq, Repr, Inhabited

instance : Keyword WhiteSpace where
  all := [.normal, .pre, .nowrap, .preWrap, .preLine]
  text
    | .normal => "normal"
    | .pre => "pre"
    | .nowrap => "nowrap"
    | .preWrap => "pre-wrap"
    | .preLine => "pre-line"

/-- Values of `list-style-type`. -/
inductive ListStyle where
  | disc
  | circle
  | square
  | decimal
  | decimalLeadingZero
  | lowerRoman
  | upperRoman
  | lowerGreek
  | lowerLatin
  | upperLatin
  | armenian
  | georgian
  | lowerAlpha
  | upperAlpha
  | none
  deriving DecidableEq, Repr, Inhabited

instance : Keyword ListStyle where
  all := [.disc, .circle, .square, .decimal, .decimalLeadingZero, .lowerRoman, .upperRoman,
    .lowerGreek, .lowerLatin, .upperLatin, .armenian, .georgian, .lowerAlpha, .upperAlpha, .none]
  text
    | .disc => "disc"
    | .circle => "circle"
    | .square => "square"
    | .decimal => "decimal"
    | .decimalLeadingZero => "decimal-leading-zero"
    | .lowerRoman => "lower-roman"
    | .upperRoman => "upper-roman"
    | .lowerGreek => "lower-greek"
    | .lowerLatin => "lower-latin"
    | .upperLatin => "upper-latin"
    | .armenian => "armenian"
    | .georgian => "georgian"
    | .lowerAlpha => "lower-alpha"
    | .upperAlpha => "upper-alpha"
    | .none => "none"

end Css2
