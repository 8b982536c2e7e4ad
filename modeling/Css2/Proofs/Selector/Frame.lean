import Css2.Proofs.Selector.Search
import Mathlib.Data.Set.Basic

/-!
# What matching looks at

Whether a chain selects a node depends on that node, on the nodes to which parents and previous
siblings lead from it, and on nothing else.  Two documents that agree at a set of nodes that these
links do not leave (`Document.Agrees`) have the same matches there (`Chain.matches_eq`).  Children
and next siblings are not looked at, so they may differ.
-/

namespace Css2

open Document

namespace Document

/-- The document `d'` is like `d` at the nodes of `s`, and no parent and no previous sibling leads
out of `s`. -/
structure Agrees (d d' : Document) (s : Set Nat) : Prop where
  kind : ∀ i ∈ s, (d'.node? i).map Node.kind = (d.node? i).map Node.kind
  parent : ∀ i ∈ s, d'.parent? i = d.parent? i
  previous : ∀ i ∈ s, d'.previous? i = d.previous? i
  parent_mem : ∀ i ∈ s, ∀ a ∈ d.parent? i, a ∈ s
  previous_mem : ∀ i ∈ s, ∀ a ∈ d.previous? i, a ∈ s

/-! ### Nodes -/

namespace Agrees

variable {d d' : Document} {s : Set Nat} {i : Nat} (h : d.Agrees d' s) (hi : i ∈ s)

include h hi

theorem tag?_eq : d'.tag? i = d.tag? i := by
  rw [tag?, tag?, h.kind i hi]

theorem isElement_eq : d'.isElement i = d.isElement i := by
  rw [isElement, isElement, h.tag?_eq hi]

theorem attribute?_eq (name : String) : d'.attribute? i name = d.attribute? i name := by
  rw [attribute?, attribute?, attributes?, attributes?, h.kind i hi]

theorem previousElement?_eq : d'.previousElement? i = d.previousElement? i :=
  search_congr h.previous h.previous_mem (fun _ ha => congrArg some (h.isElement_eq ha)) hi

theorem firstAlong_parent?_iff {a : Nat} :
    FirstAlong d'.parent? d'.isElement i a ↔ FirstAlong d.parent? d.isElement i a := by
  rw [← found_some_iff, ← found_some_iff, ← search_eq_some_iff, ← search_eq_some_iff,
    search_congr h.parent h.parent_mem (fun _ ha => congrArg some (h.isElement_eq ha)) hi]

theorem language?_eq : language? d' i = language? d i := by
  have hsearch : Links.search d'.parent? (fun n => some (d'.attribute? n "lang").isSome) i =
      Links.search d.parent? (fun n => some (d.attribute? n "lang").isSome) i := by
    refine search_congr h.parent h.parent_mem (fun a ha => ?_) hi
    rw [h.attribute?_eq ha]
  rw [language?, language?, h.attribute?_eq hi, hsearch]
  cases d.attribute? i "lang" with
  | some lang => rfl
  | none =>
    -- the language is read off a node that the search has found
    refine Option.bind_congr fun found hfound => ?_
    cases found with
    | none => rfl
    | some a =>
      have ha : a ∈ s := (search_eq_some_iff.1 hfound).leads.1.mem h.parent_mem hi
      exact congrArg some (h.attribute?_eq ha "lang")

theorem any_parent?_eq :
    (d'.parent? i).any d'.isElement = (d.parent? i).any d.isElement := by
  rw [h.parent i hi]
  cases hp : d.parent? i with
  | none => rfl
  | some p => exact h.isElement_eq (h.parent_mem i hi p hp)

end Agrees

end Document

/-! ### Conditions and links -/

section

variable {d d' : Document} {s : Set Nat} {i : Nat} (h : d.Agrees d' s) (hi : i ∈ s)

include h hi

theorem AttributeSel.matches_eq (a : AttributeSel) : a.matches d' i = a.matches d i := by
  rw [AttributeSel.matches, AttributeSel.matches, h.attribute?_eq hi]

theorem Pseudo.answer_eq (p : Pseudo) : p.answer d' i = p.answer d i := by
  rw [Pseudo.answer, Pseudo.answer, h.any_parent?_eq hi, h.previousElement?_eq hi,
    h.language?_eq hi]

theorem Condition.answer_eq (o : MatchOptions) (c : Condition) :
    c.answer o d' i = c.answer o d i := by
  cases c with
  | className name => rw [Condition.answer, Condition.answer, h.attribute?_eq hi]
  | id name => rw [Condition.answer, Condition.answer, h.attribute?_eq hi]
  | pseudo p => exact p.answer_eq h hi
  | attributes tests => exact congrArg some (List.all_congr rfl fun a => a.matches_eq h hi)

theorem meetsAll_eq (o : MatchOptions) (ks : List Condition) :
    meetsAll o d' i ks = meetsAll o d i ks := by
  induction ks with
  | nil => rfl
  | cons k ks ih => rw [meetsAll, meetsAll, k.answer_eq h hi, ih]

theorem Link.answer_eq (o : MatchOptions) (l : Link) : l.answer o d' i = l.answer o d i := by
  rw [Link.answer, Link.answer, Link.matchesName, Link.matchesName, h.tag?_eq hi, meetsAll_eq h hi]

theorem Combinator.Relates.mem {c : Combinator} {a : Nat} (hrel : c.Relates d a i) : a ∈ s := by
  cases c with
  | first | descendant => exact Leads.mem h.parent_mem hi hrel
  | child => exact h.parent_mem i hi a hrel
  | adjacent => exact hrel.leads.mem h.previous_mem hi

theorem Combinator.find?_eq (c : Combinator) {p p' : Nat → Option Bool}
    (hp : ∀ a ∈ s, p' a = p a) : c.find? d' p' i = c.find? d p i := by
  have hkeep {r : Option Nat} (hr : ∀ a ∈ r, a ∈ s) : keepIf p' r = keepIf p r := by
    cases r with
    | none => rfl
    | some a => rw [keepIf, keepIf, hp a (hr a rfl)]
  cases c with
  | first | descendant => exact search_congr h.parent h.parent_mem hp hi
  | child =>
    unfold find?
    rw [h.parent i hi, hkeep (h.parent_mem i hi)]
  | adjacent =>
    unfold find?
    rw [h.previousElement?_eq hi]
    refine Option.bind_congr fun previous hprevious => hkeep ?_
    rintro a rfl
    exact (search_eq_some_iff.1 hprevious).leads.1.mem h.previous_mem hi

/-! ### Chains -/

theorem matchLinks_eq (o : MatchOptions) (ls : List Link) (c : Combinator) :
    matchLinks o d' ls c i = matchLinks o d ls c i := by
  induction ls generalizing i c with
  | nil => rfl
  | cons l ls ih =>
    rw [matchLinks, matchLinks, c.find?_eq h hi fun a ha => l.answer_eq h ha o]
    refine Option.bind_congr fun found hfound => ?_
    cases found with
    | none => rfl
    | some a => exact ih ((Combinator.find?_some hfound).1.mem h hi) _

theorem Chain.answer_eq (o : MatchOptions) (c : Chain) : c.answer o d' i = c.answer o d i := by
  rw [Chain.answer, Chain.answer]
  split
  · rfl
  · rw [Link.answer_eq h hi, matchLinks_eq h hi]

/-- **Where two documents agree, a chain selects the same nodes.** -/
theorem Chain.matches_eq (o : MatchOptions) (c : Chain) : c.matches o d' i = c.matches o d i := by
  rw [Chain.matches, Chain.matches, c.answer_eq h hi]

end

end Css2
