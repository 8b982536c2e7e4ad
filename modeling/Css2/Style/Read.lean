import Css2.Style.Property
import Css2.Term.Basic

/-! # Reading values

What the terms of a declaration mean for the property they are given to.  Lengths are made
absolute: `em` is the size of the font of the element, or of its parent for the size of the font
itself.  A value that a property does not allow has no meaning.
-/

namespace Css2

-- Powers are those of core, whatever else a file imports.
attribute [local instance (2000)] instPowNat

/-! ### Lengths -/

def pxPerInch : Float := 96

/-- A length or a percentage.  Of plain numbers only zero is a length. -/
def readLength (em : Float) (t : Term) : Option Length :=
  match t.number? with
  | none => none
  | some n =>
    let v := n.value
    match n.unit with
    | .percent => some (.percent v)
    | .none => if v == 0 then some .zero else none
    | .px => some (.px v)
    | .inch => some (.px (v * pxPerInch))
    | .cm => some (.px (v * pxPerInch / 2.54))
    | .mm => some (.px (v * pxPerInch / 25.4))
    | .pt => some (.px (v * pxPerInch / 72))
    | .pc => some (.px (v * pxPerInch / 6))
    | .em => some (.px (v * em))
    | .ex => some (.px (v * em * 0.5))
    | _ => none

/-- A length or a percentage that is not below zero. -/
def readNonNegative (em : Float) (t : Term) : Option Length :=
  (readLength em t).filter fun l => !l.isNegative

/-- A length, a percentage or `auto`. -/
def readExtent (em : Float) (t : Term) : Option Extent :=
  if t.isIdent "auto" then some .auto else (readLength em t).map .length

/-- A length or a percentage not below zero, or `auto`. -/
def readSize (em : Float) (t : Term) : Option Extent :=
  if t.isIdent "auto" then some .auto else (readNonNegative em t).map .length

/-- A length or a percentage not below zero, or `none`. -/
def readLimit (em : Float) (t : Term) : Option Limit :=
  if t.isIdent "none" then some .none else (readNonNegative em t).map .length

/-- The width of a border: a length not below zero, or one of three keywords. -/
def readBorderWidth (em : Float) (t : Term) : Option Float :=
  match t.ident? with
  | some name =>
    if sameName name "thin" then some 1
    else if sameName name "medium" then some mediumBorder
    else if sameName name "thick" then some 5
    else none
  | none =>
    match readNonNegative em t with
    | some (.px v) => some v
    | _ => none

/-- A height of lines.  A percentage is taken of the size of the font at once. -/
def readLineHeight (em : Float) (t : Term) : Option LineHeight :=
  if t.isIdent "normal" then some .normal
  else match t.number? with
    | none => none
    | some n =>
      if n.unit = .none then (if n.value ≥ 0 then some (.factor n.value) else none)
      else match readNonNegative em t with
        | some (.px v) => some (.px v)
        | some (.percent v) => some (.px (em * v / 100))
        | none => none

/-! ### Keywords, colors and numbers -/

def readKeyword {α : Type} [Keyword α] (t : Term) : Option α :=
  t.ident?.bind Keyword.ofName?

def readPaint (t : Term) : Option Paint :=
  match t.value with
  | .rgb color => some (.rgb color)
  | .hash digits => (Rgb.ofHex? digits).map .rgb
  | .ident name =>
    if sameName name "transparent" then some .transparent else (Rgb.ofName? name).map .rgb
  | _ => none

def readColor (t : Term) : Option Rgb :=
  match readPaint t with
  | some (.rgb color) => some color
  | _ => none

def wholeNumber? (x : Float) : Option Int :=
  match Dyadic.ofFloat? x with
  | none => none
  | some d =>
    let (num, den) := d.ratio
    if num % den = 0 then
      let n : Int := num / den
      some (if isNegative x then -n else n)
    else none

def levelRange : Int × Int := (-2 ^ (31 : Nat), 2 ^ (31 : Nat) - 1)

/-- A level of a stack, cut off to `levelRange`, or `auto`, which is none. -/
def readLevel (t : Term) : Option (Option Int) :=
  if t.isIdent "auto" then some none
  else match t.number? with
    | none => none
    | some n =>
      if n.unit = .none then
        (wholeNumber? n.value).map fun i => some (max levelRange.1 (min levelRange.2 i))
      else none

/-! ### Fonts -/

/-- The factor between two neighbouring sizes of fonts. -/
def fontScale : Float := 1.2

/-- The sizes of fonts that have a name, in pixels. -/
def namedFontSizes : List (String × Float) :=
  [("xx-small", mediumFont * (1 / (fontScale * fontScale * fontScale))),
    ("x-small", mediumFont * (1 / (fontScale * fontScale))),
    ("small", mediumFont * (1 / fontScale)),
    ("medium", mediumFont),
    ("large", mediumFont * fontScale),
    ("x-large", mediumFont * (fontScale * fontScale)),
    ("xx-large", mediumFont * (fontScale * fontScale * fontScale))]

/-- The size of a font, for an element whose parent has the size `parent`. -/
def readFontSize (parent : Float) (t : Term) : Option Float :=
  match t.ident? with
  | some name =>
    if sameName name "larger" then some (parent * fontScale)
    else if sameName name "smaller" then some (parent / fontScale)
    else namedFontSizes.findSome? fun e => if sameName e.1 name then some e.2 else none
  | none =>
    match readNonNegative parent t with
    | some (.px v) => some v
    | some (.percent v) => some (parent * v / 100)
    | none => none

def bolder (weight : Nat) : Nat :=
  if weight < 400 then 400 else if weight < 600 then 700 else 900

def lighter (weight : Nat) : Nat :=
  if weight ≤ 500 then 100 else if weight ≤ 700 then 400 else 700

def fontWeights : List Nat :=
  [100, 200, 300, 400, 500, 600, 700, 800, 900]

/-- The weight of a font, for an element whose parent has the weight `parent`. -/
def readFontWeight (parent : Nat) (t : Term) : Option Nat :=
  match t.ident? with
  | some name =>
    if sameName name "normal" then some 400
    else if sameName name "bold" then some 700
    else if sameName name "bolder" then some (bolder parent)
    else if sameName name "lighter" then some (lighter parent)
    else none
  | none =>
    match t.number? with
    | none => none
    | some n =>
      if n.unit = .none then fontWeights.find? fun w => Float.ofNat w == n.value else none

/-- Names of fonts with commas between them, `name` being what was read of the first of them.  A
name is a string, or identifiers that are joined by blanks; the last name is not empty. -/
def fontNames (name : String) : List Term → Option (List String)
  | [] => if name.isEmpty then none else some [name]
  | t :: ts =>
    let read := match t.value with
      | .string s => if name.isEmpty then some s else none
      | .ident s => some (if name.isEmpty then s else name ++ " " ++ s)
      | _ => none
    match read, t.separator with
    | none, _ => none
    | some _, some .slash => none
    | some name, some .comma => (fontNames "" ts).map (name :: ·)
    | some name, none => fontNames name ts

/-! ### Longhands -/

/-- The computed value that one term gives a longhand. -/
def Longhand.readTerm (em : Float) (parent : Style) (t : Term) :
    (l : Longhand) → Option l.Computed
  | .display => readKeyword t
  | .position => readKeyword t
  | .floating => readKeyword t
  | .clear => readKeyword t
  | .offset _ => readExtent em t
  | .zIndex => readLevel t
  | .width => readSize em t
  | .height => readSize em t
  | .minWidth => readNonNegative em t
  | .maxWidth => readLimit em t
  | .minHeight => readNonNegative em t
  | .maxHeight => readLimit em t
  | .lineHeight => readLineHeight em t
  | .visibility => readKeyword t
  | .margin _ => readExtent em t
  | .padding _ => readNonNegative em t
  | .borderWidth _ => readBorderWidth em t
  | .borderStyle _ => readKeyword t
  | .borderColor _ => readPaint t
  | .color => readColor t
  | .backgroundColor => readPaint t
  | .fontFamily => fontNames "" [t]
  | .fontSize => readFontSize parent.fontSize t
  | .fontStyle => readKeyword t
  | .fontVariant => readKeyword t
  | .fontWeight => readFontWeight parent.fontWeight t
  | .textAlign => readKeyword t
  | .textIndent => readLength em t
  | .whiteSpace => readKeyword t
  | .listStyle => readKeyword t

/-- The computed value that terms give a longhand: one term, or names of fonts. -/
def Longhand.read (em : Float) (parent : Style) (l : Longhand) (value : List Term) :
    Option l.Computed :=
  match l with
  | .fontFamily => fontNames "" value
  | l =>
    match value with
    | [t] => l.readTerm em parent t
    | _ => none

/-! ### Shorthands -/

/-- The settings for four sides from one to four terms. -/
def readEdges {α : Type} (read : Term → Option α) (setting : Side → α → Setting)
    (value : List Term) : Option (List Setting) := do
  let values ← value.mapM read
  let edges ← Edges.ofList? values
  pure (Side.all.map fun side => setting side (edges.get side))

/-- The parts of a border, as far as they are given. -/
structure BorderValue where
  width : Option Float := none
  style : Option BorderStyle := none
  color : Option Paint := none

/-- Takes one term as a part of a border that is not given yet. -/
def BorderValue.add (em : Float) (b : BorderValue) (t : Term) : Option BorderValue :=
  if t.separator.isSome then none
  else match b.width, readBorderWidth em t with
    | none, some w => some { b with width := some w }
    | _, _ =>
      match b.style, readKeyword t with
      | none, some s => some { b with style := some s }
      | _, _ =>
        match b.color, readPaint t with
        | none, some c => some { b with color := some c }
        | _, _ => none

def readBorder (em : Float) (value : List Term) : Option BorderValue :=
  value.foldlM (BorderValue.add em) {}

/-- The settings for the border on one side.  A part that is not given has its initial value. -/
def BorderValue.settings (b : BorderValue) (side : Side) : List Setting :=
  [⟨.borderWidth side, b.width.getD mediumBorder⟩, ⟨.borderStyle side, b.style.getD .none⟩,
    ⟨.borderColor side, b.color.getD .current⟩]

/-- The settings that a value gives a property, where `em` is the size of the font of the
element. -/
def Property.read (em : Float) (parent : Style) (p : Property) (value : List Term) :
    Option (List Setting) :=
  match p with
  | longhand l => (l.read em parent value).map fun v => [⟨l, v⟩]
  | margin => readEdges (readExtent em) (fun side v => ⟨.margin side, v⟩) value
  | padding => readEdges (readNonNegative em) (fun side v => ⟨.padding side, v⟩) value
  | borderWidth => readEdges (readBorderWidth em) (fun side v => ⟨.borderWidth side, v⟩) value
  | borderStyle => readEdges readKeyword (fun side v => ⟨.borderStyle side, v⟩) value
  | borderColor => readEdges readPaint (fun side v => ⟨.borderColor side, v⟩) value
  | border => (readBorder em value).map fun b => Side.all.flatMap b.settings
  | borderSide side => (readBorder em value).map fun b => b.settings side
  | background => some [⟨.backgroundColor, (value.findSome? readPaint).getD .transparent⟩]

end Css2
