import Css2.Cascade.Basic
import Css2.Selector.Match
import Css2.Selector.Specificity

/-! # Winning declarations

For each property that the rulesets matching an element declare, one declaration wins: the one
with the greatest rank of origin and importance, then with the greatest specificity, then the last.
-/

namespace Css2

/-! ### Matching rulesets -/

structure MatchedRuleset where
  origin : Origin
  rule : Ruleset
  /-- The greatest specificity of the chains that select the node. -/
  specificity : Specificity
  /-- The position among all rulesets that apply. -/
  order : Nat

def Specificity.greatest? : List Specificity → Option Specificity
  | [] => none
  | s :: ss => some (ss.foldl Specificity.max s)

/-- The specificity with which a selector selects a node, if it does. -/
def Selector.matchSpecificity? (o : MatchOptions) (d : Document) (s : Selector) (id : Nat) :
    Option Specificity :=
  Specificity.greatest? ((s.chains.filter fun c => c.matches o d id).map Chain.specificity)

namespace Cascade

/-- The rulesets that apply, with their origins, in order. -/
def applicable (c : Cascade) (o : ResolveOptions) : List (Origin × Ruleset) :=
  c.sheets.flatMap fun s => (s.2.applicable o).map fun r => (s.1, r)

def matched (c : Cascade) (o : ResolveOptions) (d : Document) (id : Nat) : List MatchedRuleset :=
  if d.isElement id then
    (c.applicable o).zipIdx.filterMap fun entry =>
      (entry.1.2.selector.matchSpecificity? o.matching d id).map fun specificity =>
        ⟨entry.1.1, entry.1.2, specificity, entry.2⟩
  else []

end Cascade

/-! ### Keys -/

structure SortKey where
  precedence : Nat
  specificity : Specificity
  order : Nat
  deriving DecidableEq, Repr

/-- Whether the key `a` is less than the key `b`. -/
def SortKey.lt (a b : SortKey) : Bool :=
  a.precedence < b.precedence || (a.precedence = b.precedence
    && (a.specificity.lt b.specificity
      || (a.specificity = b.specificity && a.order < b.order)))

/-- A declaration with what decides between it and others. -/
structure Candidate where
  declaration : Declaration
  origin : Origin
  specificity : Specificity
  /-- The position among the declarations of all matching rulesets. -/
  order : Nat

namespace Candidate

def key (c : Candidate) : SortKey :=
  ⟨c.origin.precedence c.declaration.important, c.specificity, c.order⟩

/-- The property that a candidate sets, in lower case. -/
def property (c : Candidate) : String :=
  c.declaration.property.toLower

end Candidate

/-! ### Winners -/

namespace Cascade

/-- The declarations of all matching rulesets, in order. -/
def candidates (c : Cascade) (o : ResolveOptions) (d : Document) (id : Nat) : List Candidate :=
  let declared := (c.matched o d id).flatMap fun m =>
    m.rule.declarations.map fun declaration => (m, declaration)
  declared.zipIdx.map fun entry =>
    ⟨entry.1.2, entry.1.1.origin, entry.1.1.specificity, entry.2⟩

/-- Lets a candidate compete with the winner for its property. -/
def compete (winners : List Candidate) (c : Candidate) : List Candidate :=
  match winners with
  | [] => [c]
  | w :: ws =>
    if w.property = c.property then (if w.key.lt c.key then c :: ws else w :: ws)
    else w :: compete ws c

/-- The winning declarations, one for each property that is declared. -/
def winners (c : Cascade) (o : ResolveOptions) (d : Document) (id : Nat) : List Candidate :=
  (c.candidates o d id).foldl compete []

end Cascade

end Css2
