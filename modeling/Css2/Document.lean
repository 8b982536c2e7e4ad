import Css2.Text

/-! # Documents

A document is a list of nodes that know their parent, their children and their neighbours by
number.  Number zero is the document itself.  A node is made without a place in the tree and gets
one when it is appended to another.
-/

namespace Css2

/-! ### Nodes -/

inductive NodeKind where
  | document
  /-- An element, with at most one attribute of each name. -/
  | element (tag : String) (attributes : List (String × String))
  | text (content : String)
  | comment (content : String)
  deriving DecidableEq, Repr, Inhabited

/-- Gives an attribute a value, whether it had one or not. -/
def setAttribute (attributes : List (String × String)) (name value : String) :
    List (String × String) :=
  match attributes with
  | [] => [(name, value)]
  | (n, v) :: rest =>
    if n = name then (name, value) :: rest else (n, v) :: setAttribute rest name value

/-- An element with the given attributes, of which the last one of each name counts. -/
def NodeKind.ofAttributes (tag : String) (attributes : List (String × String)) : NodeKind :=
  .element tag (attributes.foldl (fun as a => setAttribute as a.1 a.2) [])

structure Node where
  kind : NodeKind
  parent : Option Nat := none
  children : List Nat := []
  previous : Option Nat := none
  next : Option Nat := none
  deriving DecidableEq, Repr, Inhabited

structure Document where
  nodes : List Node
  deriving DecidableEq, Repr, Inhabited

namespace Document

/-- The number of the document itself. -/
def root : Nat := 0

def empty : Document := ⟨[{ kind := .document }]⟩

/-- The number of nodes, those without a place in the tree included. -/
def size (d : Document) : Nat :=
  d.nodes.length

def node? (d : Document) (id : Nat) : Option Node :=
  d.nodes[id]?

/-! ### Building -/

/-- Adds a node without a place in the tree.  Its number is the size of the document. -/
def alloc (d : Document) (kind : NodeKind) : Document :=
  ⟨d.nodes ++ [{ kind := kind }]⟩

def modify (d : Document) (id : Nat) (f : Node → Node) : Document :=
  ⟨d.nodes.modify id f⟩

def children (d : Document) (id : Nat) : List Nat :=
  ((d.node? id).map Node.children).getD []

/-- Makes `child` the last child of `parent`. -/
def append (d : Document) (parent child : Nat) : Document :=
  let last := (d.children parent).getLast?
  let d := d.modify parent fun n => { n with children := n.children ++ [child] }
  let d := d.modify child fun n => { n with parent := some parent, previous := last, next := none }
  match last with
  | some p => d.modify p fun n => { n with next := some child }
  | none => d

/-- Makes `child` the last child of `parent`, if there are such nodes. -/
def append? (d : Document) (parent child : Nat) : Option Document :=
  if parent < d.size ∧ child < d.size then some (d.append parent child) else none

/-! ### Reading -/

def parent? (d : Document) (id : Nat) : Option Nat :=
  (d.node? id).bind Node.parent

def previous? (d : Document) (id : Nat) : Option Nat :=
  (d.node? id).bind Node.previous

def next? (d : Document) (id : Nat) : Option Nat :=
  (d.node? id).bind Node.next

def tag? (d : Document) (id : Nat) : Option String :=
  match (d.node? id).map Node.kind with
  | some (.element tag _) => some tag
  | _ => none

def attributes? (d : Document) (id : Nat) : Option (List (String × String)) :=
  match (d.node? id).map Node.kind with
  | some (.element _ attributes) => some attributes
  | _ => none

def isElement (d : Document) (id : Nat) : Bool :=
  (d.tag? id).isSome

def attribute? (d : Document) (id : Nat) (name : String) : Option String :=
  (d.attributes? id).bind (·.lookup name)

/-- The words of the attribute `class` of an element. -/
def classes? (d : Document) (id : Nat) : Option (List String) :=
  if d.isElement id then some (words ((d.attribute? id "class").getD "")) else none

/-- The first element among the children of the document itself. -/
def documentElement? (d : Document) : Option Nat :=
  (d.children root).find? d.isElement

/-! ### Walking

Links are followed as long as there are any.  The walks below have no bound of their own, and there
is no result if they go on for ever. -/

/-- One kind of links: the node that each node leads to, if there is one. -/
abbrev Links := Nat → Option Nat

/-- All nodes that `next` leads to from `id`, in turn. -/
def Links.walk (next : Links) (id : Nat) : Option (List Nat) :=
  match next id with
  | none => some []
  | some j => do
    let js ← next |>.walk j
    return j :: js
partial_fixpoint

/-- The first node that passes the test `p`, of those that `next` leads to from `id`.  A test may be
without a result, too. -/
def Links.search (next : Links) (p : Nat → Option Bool) (id : Nat) : Option (Option Nat) :=
  match next id with
  | none => some none
  | some j => do
    if ← p j then return some j
    next |>.search p j
partial_fixpoint

def ancestors (d : Document) (id : Nat) : Option (List Nat) :=
  Links.walk d.parent? id

/-- The nearest element among the siblings before a node. -/
def previousElement? (d : Document) (id : Nat) : Option (Option Nat) :=
  Links.search d.previous? (fun n => some (d.isElement n)) id

/-- Goes through the nodes on a stack and everything below them.  The top node is taken off and
added to `out`, and its children are put on the stack from the last one to the first, which is on
top then. -/
def visit (d : Document) (out : List Nat) : List Nat → Option (List Nat)
  | [] => some out
  | id :: stack =>
    d |>.visit (out ++ [id])
      ((d.children id).reverse.foldl (fun stack child => child :: stack) stack)
partial_fixpoint

/-- A node and everything below it, in the order of the document. -/
def descendants (d : Document) (id : Nat) : Option (List Nat) :=
  d.visit [] [id]

end Document

end Css2
