/-! # Options

What a caller may choose for parsing and for matching.  The options for resolving styles are the
medium and those for matching.
-/

namespace Css2

structure ParseOptions where
  /-- How many blocks and brackets may be open at once. -/
  maxNesting : Nat := 64
  /-- Whether a malformed statement is skipped.  Otherwise it ends the parse. -/
  forwardCompatible : Bool := true
  deriving DecidableEq, Repr, Inhabited

/-- How a class or an identifier in a selector compares with the attribute. -/
inductive NameMatch where
  /-- The attribute begins with it. -/
  | leading
  /-- It is one of the words of the attribute `class`, or the whole attribute `id`. -/
  | exact
  deriving DecidableEq, Repr, Inhabited

structure MatchOptions where
  names : NameMatch := .leading
  deriving DecidableEq, Repr, Inhabited

structure ResolveOptions where
  /-- The medium.  Without one, every `@media` block applies. -/
  medium : Option String := none
  matching : MatchOptions := {}
  deriving DecidableEq, Repr, Inhabited

end Css2
