import Css2.Decimal.Shortest
import Css2.Term.Basic
import Css2.Written

/-! # Written terms

The text of values.  An unquoted address is written as a quoted one, a color in functional
notation, and each term is followed by what separates it from the next.
-/

namespace Css2

def Quantity.text (n : Quantity) : String :=
  numberText n.value ++ match n.unit with
    | .other name => unitText name
    | unit => unit.text

def Sign.text : Sign → String
  | plus => "+"
  | minus => "-"

/-- What is written between a term and the next one. -/
def separatorText : Option Separator → String
  | some .comma => ", "
  | some .slash => "/"
  | none => " "

def uriText (address : String) : String :=
  "url(" ++ stringText address ++ ")"

mutual

def Value.text : Value → String
  | .number n => n.text
  | .function name args => identText name ++ "(" ++ valueText args ++ ")"
  | .string value => stringText value
  | .ident name => identText name
  | .uri address => uriText address
  | .rgb color => color.text
  | .unicodeRange range => "U+" ++ range
  | .hash name => "#" ++ hashText name

def Term.text : Term → String
  | ⟨value, sign, _⟩ => (sign.map Sign.text).getD "" ++ value.text

/-- The text of a list of terms.  The separator behind the last one is not written. -/
def valueText : List Term → String
  | [] => ""
  | [t] => t.text
  | t :: u :: ts => t.text ++ separatorText t.separator ++ valueText (u :: ts)

end

end Css2
