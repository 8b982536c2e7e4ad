import Css2.Cascade.Winner
import Css2.Style.Apply
import Std.Data.HashMap

/-! # Resolving styles

The style of a node, from the winning declarations and the style of its parent, and the styles of
all elements of a document.
-/

namespace Css2

/-- Whether a candidate sets the size of the font, on which other values depend. -/
def Candidate.setsFontSize (c : Candidate) : Bool :=
  sameName c.declaration.property "font-size"

/-- Whether `a` is applied before `b`: the size of the font comes first, and then the lesser
key. -/
def Candidate.before (a b : Candidate) : Bool :=
  if a.setsFontSize = b.setsFontSize then !b.key.lt a.key else a.setsFontSize

namespace Cascade

/-- The winning declarations in the order in which they are applied. -/
def sortedWinners (c : Cascade) (o : ResolveOptions) (d : Document) (id : Nat) : List Candidate :=
  (c.winners o d id).mergeSort Candidate.before

/-- The style of a node whose parent has the style `parent`.  A node that is no element takes what
it inherits. -/
def resolve (c : Cascade) (o : ResolveOptions) (d : Document) (parent : Style) (id : Nat) : Style :=
  let start := Style.inheritFrom parent
  if d.isElement id then
    (start.applyAll parent ((c.sortedWinners o d id).map Candidate.declaration)).finalize
  else start

end Cascade

/-! ### Whole documents -/

structure StylePass where
  /-- The styles of the elements that were visited. -/
  styles : Std.HashMap Nat Style
  /-- The nodes that are still to be visited, the next one first.  With each of them comes the
  nearest element above it. -/
  pending : List (Nat × Option Nat)

namespace StylePass

/-- The children of a node, in front of the nodes that were pending before. -/
def push (p : StylePass) (children : List Nat) (above : Option Nat) : StylePass :=
  { p with pending := children.map (fun id => (id, above)) ++ p.pending }

/-- Visits a node.  An element gets its style, which its children inherit from; the children of any
other node inherit from the element above it. -/
def visit (p : StylePass) (c : Cascade) (o : ResolveOptions) (d : Document) (id : Nat)
    (above : Option Nat) : StylePass :=
  if d.isElement id then
    let parent := (above.bind fun a => p.styles[a]?).getD Style.initial
    { p with styles := p.styles.insert id (c.resolve o d parent id) }.push (d.children id) (some id)
  else p.push (d.children id) above

/-- A step of the pass: the next node is visited.  Where nothing is pending the styles are found. -/
def next (p : StylePass) (c : Cascade) (o : ResolveOptions) (d : Document) :
    StylePass ⊕ Std.HashMap Nat Style :=
  match p.pending with
  | [] => .inr p.styles
  | (id, above) :: rest => .inl ({ p with pending := rest }.visit c o d id above)

/-- Takes steps until nothing is pending.  That never ends if a node is below itself. -/
def run (p : StylePass) (c : Cascade) (o : ResolveOptions) (d : Document) :
    Std.HashMap Nat Style :=
  Id.run (repeatM (fun p => pure (p.next c o d)) p)

/-- The steps of a pass, as an equation. -/
theorem run_eq (p : StylePass) (c : Cascade) (o : ResolveOptions) (d : Document) :
    p.run c o d = (match p.next c o d with
      | .inl q => q.run c o d
      | .inr styles => styles) := by
  unfold run
  rw [repeatM_eq_of_monadTail, repeatM.body, pure_bind]
  cases p.next c o d <;> rfl

/-- The pass before its first step: only the document itself is pending. -/
def start : StylePass :=
  ⟨∅, [(Document.root, none)]⟩

end StylePass

/-- The styles of all elements that belong to the tree of a document. -/
def Cascade.styles (c : Cascade) (o : ResolveOptions) (d : Document) : Std.HashMap Nat Style :=
  StylePass.start.run c o d

end Css2
