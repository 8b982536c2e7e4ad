import Css2.Color

/-! # Terms

The values of declarations, `expr` in the grammar of CSS 2.1.  A value is a list of terms, and each
term records what separates it from the next one, so that `1px/2px, 3px` is three terms whose
separators are a slash, a comma and none.
-/

namespace Css2

/-! ### Numbers with units -/

/-- The units of numbers.  A plain number and a percentage count as units of their own. -/
inductive Measure where
  | none
  | percent
  | em
  | ex
  | px
  | cm
  | mm
  | inch
  | pt
  | pc
  | deg
  | rad
  | grad
  | ms
  | s
  | hz
  | khz
  /-- A unit that CSS 2.1 does not define. -/
  | other (name : String)
  deriving DecidableEq, Repr, Inhabited

namespace Measure

def known : List Measure :=
  [none, percent, em, ex, px, cm, mm, inch, pt, pc, deg, rad, grad, ms, s, hz, khz]

def text : Measure → String
  | none => ""
  | percent => "%"
  | em => "em"
  | ex => "ex"
  | px => "px"
  | cm => "cm"
  | mm => "mm"
  | inch => "in"
  | pt => "pt"
  | pc => "pc"
  | deg => "deg"
  | rad => "rad"
  | grad => "grad"
  | ms => "ms"
  | s => "s"
  | hz => "Hz"
  | khz => "kHz"
  | other name => name

def ofName (name : String) : Measure :=
  (known.find? fun unit => sameName unit.text name).getD (other name)

def isKnown : Measure → Bool
  | other _ => false
  | _ => true

def isLength : Measure → Bool
  | em | ex | px | cm | mm | inch | pt | pc => true
  | _ => false

end Measure

/-- A number with its unit.  The sign is part of the number. -/
structure Quantity where
  value : Float
  unit : Measure
  deriving BEq, Repr, Inhabited

/-! ### Terms -/

inductive Sign where
  | plus
  | minus
  deriving DecidableEq, Repr

/-- What may separate two terms, besides white space. -/
inductive Separator where
  | comma
  | slash
  deriving DecidableEq, Repr

mutual

inductive Value where
  | number (n : Quantity)
  | function (name : String) (args : List Term)
  | string (value : String)
  | ident (name : String)
  | uri (address : String)
  | rgb (color : Rgb)
  /-- The part of a Unicode range behind `U+`. -/
  | unicodeRange (range : String)
  /-- The name behind a number sign, as in a color. -/
  | hash (name : String)

/-- A value with the sign in front of it and the separator behind it. -/
structure Term where
  value : Value
  sign : Option Sign := none
  separator : Option Separator := none

end

mutual

/-- Whether two values are the same; numbers compare as numbers. -/
def Value.same : Value → Value → Bool
  | .number m, .number n => m == n
  | .function f as, .function g bs => f == g && Term.sameAll as bs
  | .string a, .string b => a == b
  | .ident a, .ident b => a == b
  | .uri a, .uri b => a == b
  | .rgb a, .rgb b => a == b
  | .unicodeRange a, .unicodeRange b => a == b
  | .hash a, .hash b => a == b
  | _, _ => false

def Term.same : Term → Term → Bool
  | ⟨v, s, p⟩, ⟨w, t, q⟩ => v.same w && s == t && p == q

/-- Whether two lists hold the same terms in the same order. -/
def Term.sameAll : List Term → List Term → Bool
  | [], [] => true
  | a :: as, b :: bs => a.same b && Term.sameAll as bs
  | _, _ => false

end

instance : BEq Value := ⟨Value.same⟩

instance : BEq Term := ⟨Term.same⟩

instance : Inhabited Value := ⟨.ident ""⟩

instance : Inhabited Term := ⟨⟨default, none, none⟩⟩

namespace Term

def ident? (t : Term) : Option String :=
  match t.value with
  | .ident name => some name
  | _ => none

def number? (t : Term) : Option Quantity :=
  match t.value with
  | .number n => some n
  | _ => none

def isIdent (keyword : String) (t : Term) : Bool :=
  t.ident?.any (sameName keyword)

end Term

end Css2
