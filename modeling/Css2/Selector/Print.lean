import Css2.Selector.Basic
import Css2.Written

/-! # Written selectors

The text of selectors.  A link without a name is written with an asterisk only if it has no other
conditions.
-/

namespace Css2

def AttributeSel.text (a : AttributeSel) : String :=
  let value := stringText (a.value.getD "")
  "[" ++ identText a.name ++ (match a.test with
    | .present => ""
    | .equals => "=" ++ value
    | .includes => "~=" ++ value
    | .dashMatch => "|=" ++ value) ++ "]"

def Pseudo.text (p : Pseudo) : String :=
  ":" ++ identText p.name ++ match p.argument with
    | some argument => "(" ++ identText argument ++ ")"
    | none => ""

def Condition.text : Condition → String
  | className name => "." ++ identText name
  | id name => "#" ++ identText name
  | pseudo p => p.text
  | attributes tests => String.join (tests.map AttributeSel.text)

def Link.text (l : Link) : String :=
  (match l.name with
    | some name => identText name
    | none => if l.conditions.isEmpty then "*" else "")
    ++ String.join (l.conditions.map Condition.text)

def Combinator.text : Combinator → String
  | first => " "
  | descendant => " "
  | child => " > "
  | adjacent => " + "

def Chain.text (c : Chain) : String :=
  match c.links with
  | [] => ""
  | l :: ls => l.text ++ String.join (ls.map fun k => k.combinator.text ++ k.text)

def Selector.text (s : Selector) : String :=
  String.intercalate ", " (s.chains.map Chain.text)

end Css2
