import Css2.Selector.Print
import Css2.Sheet.Basic
import Css2.Term.Print

/-! # Written sheets

The text of sheets, one statement after the other, each with a line break behind it.
-/

namespace Css2

def Declaration.text (d : Declaration) : String :=
  identText d.property ++ ": " ++ valueText d.value ++ if d.important then " !important" else ""

def blockText (declarations : List Declaration) : String :=
  "\x7b" ++ String.join (declarations.map fun d => " " ++ d.text ++ ";") ++ " \x7d"

def mediaText (media : List String) : String :=
  String.intercalate ", " (media.map identText)

def Ruleset.text (r : Ruleset) : String :=
  r.selector.text ++ " " ++ blockText r.declarations

/-- The text between `@page` and its block. -/
def pageText (name pseudo : Option String) : String :=
  let start := (name.map identText).getD ""
  let rest := (pseudo.map fun p => ":" ++ identText p).getD ""
  start ++ rest ++ if name.isSome || pseudo.isSome then " " else ""

def Statement.text : Statement → String
  | ruleset rule => rule.text
  | importSheet url names =>
    "@import " ++ uriText url ++ (if names.isEmpty then "" else " " ++ mediaText names) ++ ";"
  | media names rules =>
    "@media " ++ mediaText names ++ " \x7b\n"
      ++ String.join (rules.map fun r => "  " ++ r.text ++ "\n") ++ "\x7d"
  | page name pseudo declarations => "@page " ++ pageText name pseudo ++ blockText declarations
  | charset name => "@charset " ++ stringText name ++ ";"
  | fontFace declarations => "@font-face " ++ blockText declarations

def Sheet.text (s : Sheet) : String :=
  String.join (s.statements.map fun statement => statement.text ++ "\n")

end Css2
