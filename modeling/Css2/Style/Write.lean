import Css2.Style.Apply

/-! # Writing to a style

`Style.apply` gives the style that a declaration makes of another one.  Here a declaration is
carried out on one style that is written to.  What its value means is read first, for a shorthand in
several steps, and then each field is written that the property sets.  Where a step fails the work
ends, and what was written before stays written: nothing but the order of the steps keeps a
declaration from being rejected when half of it is done.
-/

namespace Css2

/-- Work on a style, which ends where it fails.  What was written before that stays written. -/
abbrev Writing (α : Type) := OptionT (StateM Style) α

namespace Writing

def given {α : Type} (value : Option α) : Writing α :=
  OptionT.mk (pure value)

/-- Reads one to four terms as a value for each side. -/
def edges {α : Type} (read : Term → Option α) (value : List Term) : Writing (Edges α) := do
  let values ← given (value.mapM read)
  given (Edges.ofList? values)

def value (parent : Style) (p : Property) (value : List Term) : Writing Unit := do
  let em := (← get).fontSize
  match p with
  | .longhand l =>
    let v ← given (l.read em parent value)
    modify fun s => s.set l v
  | .margin =>
    let margin ← edges (readExtent em) value
    modify fun s => { s with margin }
  | .padding =>
    let padding ← edges (readNonNegative em) value
    modify fun s => { s with padding }
  | .borderWidth =>
    let borderWidth ← edges (readBorderWidth em) value
    modify fun s => { s with borderWidth }
  | .borderStyle =>
    let borderStyle ← edges readKeyword value
    modify fun s => { s with borderStyle }
  | .borderColor =>
    let borderColor ← edges readPaint value
    modify fun s => { s with borderColor }
  | .border =>
    let b ← given (readBorder em value)
    modify fun s => { s with borderWidth := .same (b.width.getD mediumBorder) }
    modify fun s => { s with borderStyle := .same (b.style.getD .none) }
    modify fun s => { s with borderColor := .same (b.color.getD .current) }
  | .borderSide side =>
    let b ← given (readBorder em value)
    modify fun s => s.set (.borderWidth side) (b.width.getD mediumBorder)
    modify fun s => s.set (.borderStyle side) (b.style.getD .none)
    modify fun s => s.set (.borderColor side) (b.color.getD .current)
  | .background =>
    modify fun s => { s with backgroundColor := (value.findSome? readPaint).getD .transparent }

/-- Writes the values that the parent has for a property. -/
def inherited (parent : Style) : Property → Writing Unit
  | .longhand l => modify fun s => s.set l (parent.get l)
  | .margin => modify fun s => { s with margin := parent.margin }
  | .padding => modify fun s => { s with padding := parent.padding }
  | .borderWidth => modify fun s => { s with borderWidth := parent.borderWidth }
  | .borderStyle => modify fun s => { s with borderStyle := parent.borderStyle }
  | .borderColor => modify fun s => { s with borderColor := parent.borderColor }
  | .border => do
    modify fun s => { s with borderWidth := parent.borderWidth }
    modify fun s => { s with borderStyle := parent.borderStyle }
    modify fun s => { s with borderColor := parent.borderColor }
  | .borderSide side => do
    modify fun s => s.set (.borderWidth side) (parent.borderWidth.get side)
    modify fun s => s.set (.borderStyle side) (parent.borderStyle.get side)
    modify fun s => s.set (.borderColor side) (parent.borderColor.get side)
  | .background => modify fun s => { s with backgroundColor := parent.backgroundColor }

def declaration (parent : Style) (d : Declaration) : Writing Unit := do
  let p ← given (Property.ofName? d.property)
  if d.isInherit then inherited parent p else value parent p d.value

end Writing

namespace Style

/-- Carries out a declaration: whether that could be done, and the style that is left. -/
def carryOut (s parent : Style) (d : Declaration) : Bool × Style :=
  let (done, left) := (Writing.declaration parent d).run.run s
  (done.isSome, left)

/-- Carries out declarations one after the other: whether each of them could be, and the style that
is left. -/
def carryOutEach (s parent : Style) : List Declaration → List Bool × Style
  | [] => ([], s)
  | d :: ds =>
    let (done, left) := s.carryOut parent d
    let (more, last) := left.carryOutEach parent ds
    (done :: more, last)

end Style

end Css2
