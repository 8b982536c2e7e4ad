import Css2.Selector.Basic

/-! # Specificity

CSS 2.1 § 6.4.3.  A chain counts its identifiers, then its classes, attributes and pseudo-classes,
then its element names and pseudo-elements.  Specificities compare in that order.
-/

namespace Css2

/-- Three counts, which have no bound here.  Counts of 32 bits are the same for every chain of fewer
than `2 ^ 32` tests. -/
structure Specificity where
  ids : Nat
  classes : Nat
  types : Nat
  deriving DecidableEq, Repr, Inhabited

namespace Specificity

def zero : Specificity := ⟨0, 0, 0⟩

def add (a b : Specificity) : Specificity :=
  ⟨a.ids + b.ids, a.classes + b.classes, a.types + b.types⟩

instance : Add Specificity := ⟨add⟩

def toList (s : Specificity) : List Nat :=
  [s.ids, s.classes, s.types]

/-- Whether `a` is less specific than `b`. -/
def lt (a b : Specificity) : Bool :=
  a.ids < b.ids || (a.ids = b.ids
    && (a.classes < b.classes || (a.classes = b.classes && a.types < b.types)))

def max (a b : Specificity) : Specificity :=
  if a.lt b then b else a

/-- The greatest count that keeps its meaning in a single number. -/
def digitLimit : Nat := 999

/-- The three counts as one number, each of them cut off at `digitLimit`. -/
def packed (s : Specificity) : Nat :=
  let base := digitLimit + 1
  (min s.ids digitLimit * base + min s.classes digitLimit) * base + min s.types digitLimit

def text (s : Specificity) : String :=
  "(" ++ toString s.ids ++ ", " ++ toString s.classes ++ ", " ++ toString s.types ++ ")"

end Specificity

def Condition.specificity : Condition → Specificity
  | id _ => ⟨1, 0, 0⟩
  | className _ => ⟨0, 1, 0⟩
  | pseudo p => if p.isElement then ⟨0, 0, 1⟩ else ⟨0, 1, 0⟩
  | attributes tests => ⟨0, tests.length, 0⟩

def Link.specificity (l : Link) : Specificity :=
  l.conditions.foldl (fun s c => s + c.specificity) ⟨0, 0, if l.name.isSome then 1 else 0⟩

def Chain.specificity (c : Chain) : Specificity :=
  c.links.foldl (fun s l => s + l.specificity) Specificity.zero

end Css2
