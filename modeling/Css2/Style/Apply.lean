import Css2.Sheet.Basic
import Css2.Style.Read

/-! # Applying declarations

A declaration changes the style of an element, given the style of its parent, unless its property
is not known or its value has no meaning.  `Style.finalize` settles the values that depend on
others once all declarations are applied.
-/

namespace Css2

/-- The settings that take the values of the parent. -/
def Property.inherit (parent : Style) (p : Property) : List Setting :=
  p.longhands.map fun l => ⟨l, parent.get l⟩

/-- The settings of a declaration, where `em` is the size of the font of the element. -/
def Declaration.settings? (em : Float) (parent : Style) (d : Declaration) :
    Option (List Setting) :=
  (Property.ofName? d.property).bind fun p =>
    if d.isInherit then some (p.inherit parent) else p.read em parent d.value

namespace Style

/-- The style with a declaration applied, if that can be done. -/
def applied? (s parent : Style) (d : Declaration) : Option Style :=
  (d.settings? s.fontSize parent).map s.assign

/-- The style with a declaration applied, or unchanged. -/
def apply (s parent : Style) (d : Declaration) : Style :=
  (s.applied? parent d).getD s

def applyAll (s parent : Style) (ds : List Declaration) : Style :=
  ds.foldl (fun s d => s.apply parent d) s

/-! ### Values that depend on others -/

/-- A border without a style has no width, and one without a color has that of the text. -/
def settleBorder (s : Style) (side : Side) : Style :=
  let s := if (s.borderStyle.get side).hasNoWidth then s.set (.borderWidth side) 0 else s
  if s.borderColor.get side = .current then s.set (.borderColor side) (.rgb s.color) else s

/-- Whether a position takes a box out of the flow. -/
def isAbsolute (s : Style) : Bool :=
  s.position = .absolute || s.position = .fixed

/-- A box out of the flow does not float, and such a box or one that floats is a block. -/
def settleDisplay (s : Style) : Style :=
  if s.display = .none then s
  else if s.isAbsolute then { s with floating := .none, display := s.display.blockified }
  else if s.floating = .none then s
  else { s with display := s.display.blockified }

def finalize (s : Style) : Style :=
  (Side.all.foldl settleBorder s).settleDisplay

/-! ### Used values -/

/-- What `normal` stands for as a height of lines. -/
def normalLineFactor : Float := 1.2

def lineHeightPx (s : Style) : Float :=
  match s.lineHeight with
  | .normal => s.fontSize * normalLineFactor
  | .factor v => s.fontSize * v
  | .px v => v

end Style

/-- The properties of declarations that are not known, which is worth a notice. -/
def unknownProperties (ds : List Declaration) : List String :=
  (ds.filter fun d => (Property.ofName? d.property).isNone).map Declaration.property

end Css2
