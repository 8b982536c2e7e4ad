import Css2.Cascade.Basic
import Css2.Parser

/-! # The default sheet

How elements of HTML look that no other sheet speaks of, after CSS 2.1 Appendix D: as much of it as
`Style` has properties for.
-/

namespace Css2

namespace UserAgent

/-- The selectors of the default sheet and the declarations for each of them. -/
def rules : List (String × String) :=
  [("html, address, blockquote, body, dd, div, dl, dt, fieldset, form, frame, frameset, "
      ++ "h1, h2, h3, h4, h5, h6, noframes, ol, p, ul, center, dir, hr, menu, pre",
      "display: block"),
    ("li", "display: list-item"),
    ("head", "display: none"),
    ("table", "display: table"),
    ("tr", "display: table-row"),
    ("thead", "display: table-header-group"),
    ("tbody", "display: table-row-group"),
    ("tfoot", "display: table-footer-group"),
    ("col", "display: table-column"),
    ("colgroup", "display: table-column-group"),
    ("td, th", "display: table-cell"),
    ("caption", "display: table-caption"),
    ("th", "font-weight: bolder; text-align: center"),
    ("caption", "text-align: center"),
    ("body", "margin: 8px"),
    ("h1", "font-size: 2em; margin: .67em 0"),
    ("h2", "font-size: 1.5em; margin: .75em 0"),
    ("h3", "font-size: 1.17em; margin: .83em 0"),
    ("h4, p, blockquote, ul, fieldset, form, ol, dl, dir, menu", "margin: 1.12em 0"),
    ("h5", "font-size: .83em; margin: 1.5em 0"),
    ("h6", "font-size: .75em; margin: 1.67em 0"),
    ("h1, h2, h3, h4, h5, h6, b, strong", "font-weight: bolder"),
    ("blockquote", "margin-left: 40px; margin-right: 40px"),
    ("i, cite, em, var, address", "font-style: italic"),
    ("pre, tt, code, kbd, samp", "font-family: monospace"),
    ("pre", "white-space: pre"),
    ("big", "font-size: 1.17em"),
    ("small, sub, sup", "font-size: .83em"),
    ("ol, ul, dir, menu, dd", "margin-left: 40px"),
    ("ol", "list-style-type: decimal"),
    ("ol ul, ul ol, ul ul, ol ol", "margin-top: 0; margin-bottom: 0"),
    ("hr", "border: 1px inset"),
    ("center", "text-align: center")]

def text : String :=
  String.join (rules.map fun r => r.1 ++ " \x7b " ++ r.2 ++ " \x7d\n")

def sheet : Sheet :=
  match Sheet.parse text with
  | .ok s => s
  | .error e => e.built

end UserAgent

/-- The cascade with the default sheet of the user agent. -/
def Cascade.withDefaults (c : Cascade) : Cascade :=
  c.put .userAgent (some UserAgent.sheet)

end Css2
