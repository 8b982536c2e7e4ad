import Css2.Proofs.Document.Growth
import Mathlib.Data.List.Induction
import Mathlib.Data.List.Nodup
import Mathlib.Logic.Function.Iterate

/-!
# The links of a document

A node has four links of its own: to its parent, to its children, and to the siblings before and
behind it.  None of them can be told from the others by the type of a document, and appending a node
sets each of them in another place.  In a document that is built they say the same of the tree
(`Document.Built.links_agree`).

Parents and children are those of a tree (`Document.IsTree`).  What is left is that the neighbours
of a child are those that the list of its parent's children gives it (`Document.IsLinked`).  So the
way back ends where that list begins, and like the way up it never goes round in a circle
(`Document.Built.wellFormed`).
-/

namespace Css2

namespace Document

/-- The siblings of a node are its neighbours among the children of its parent, and a node without
a parent has none. -/
structure IsLinked (d : Document) : Prop where
  neighbours : ∀ a before b after, d.children a = before ++ b :: after →
    d.previous? b = before.getLast? ∧ d.next? b = after.head?
  alone : ∀ b, d.parent? b = none → d.previous? b = none ∧ d.next? b = none

variable {d : Document}

/-! ### The link forward -/

theorem next?_empty (i : Nat) : empty.next? i = none := by
  cases i <;> rfl

theorem next?_alloc (kind : NodeKind) (i : Nat) : (d.alloc kind).next? i = d.next? i := by
  unfold next?
  rw [node?_alloc]
  split
  · next h => rw [h, node?_size]; rfl
  · rfl

/-- The sibling behind the last child is the appended node, which has none behind itself. -/
theorem next?_append {parent child : Nat}
    (hlast : ∀ p, (d.children parent).getLast? = some p → p < d.size) (i : Nat) :
    (d.append parent child).next? i =
      if (d.children parent).getLast? = some i then some child
      else if i = child then none else d.next? i := by
  rw [next?, next?, node?_append]
  by_cases hi : (d.children parent).getLast? = some i
  · obtain ⟨n, hn⟩ := exists_node? (hlast i hi)
    simp [hn, hi, appended]
  · cases d.node? i <;> simp [hi, appended]

/-! ### Neighbours -/

theorem isLinked_empty : IsLinked .empty where
  neighbours a before b after h := by
    rw [children_empty] at h
    simp at h
  alone b _ := ⟨previous?_empty b, next?_empty b⟩

theorem IsLinked.alloc (h : d.IsLinked) (kind : NodeKind) : (d.alloc kind).IsLinked where
  neighbours a before b after hab := by
    rw [children_alloc] at hab
    rw [previous?_alloc, next?_alloc]
    exact h.neighbours a before b after hab
  alone b hb := by
    rw [parent?_alloc] at hb
    rw [previous?_alloc, next?_alloc]
    exact h.alone b hb

variable {parent child : Nat}

theorem IsTree.parent?_of_getLast? (h : d.IsTree) {a b : Nat}
    (hb : (d.children a).getLast? = some b) : d.parent? b = some a :=
  (h.mem_children_iff a b).1 (List.mem_of_getLast? hb)

theorem IsTree.getLast?_ne (h : d.IsTree) {a b : Nat} {before after : List Nat}
    (hab : d.children a = before ++ b :: after) (hafter : after ≠ []) :
    (d.children a).getLast? ≠ some b := by
  have hnodup := h.nodup a
  rw [hab, List.nodup_append, List.nodup_cons] at hnodup
  intro hlast
  rw [hab, List.getLast?_append_of_ne_nil _ (List.cons_ne_nil b after),
    List.getLast?_cons_of_ne_nil hafter] at hlast
  exact hnodup.2.1.1 (List.mem_of_getLast? hlast)

/-- A node keeps its siblings, unless it is appended itself or has been the last child so far. -/
theorem IsTree.siblings_append (h : d.IsTree) (hchild : child < d.size) {b : Nat} (hb : b ≠ child)
    (hlast : (d.children parent).getLast? ≠ some b) :
    (d.append parent child).previous? b = d.previous? b ∧
      (d.append parent child).next? b = d.next? b := by
  rw [previous?_append hchild, if_neg hb, next?_append, if_neg hlast, if_neg hb]
  · exact ⟨rfl, rfl⟩
  · exact fun p hp => lt_size_of_parent? p parent (h.parent?_of_getLast? hp)

/-- The children of the node that another one is appended to have their neighbours as siblings. -/
theorem IsLinked.neighbours_append (hl : d.IsLinked) (h : d.IsTree)
    (hfree : d.parent? child = none) (hchild : child < d.size) {before after : List Nat} {b : Nat}
    (hab : d.children parent ++ [child] = before ++ b :: after) :
    (d.append parent child).previous? b = before.getLast? ∧
      (d.append parent child).next? b = after.head? := by
  have hlt (p : Nat) (hp : (d.children parent).getLast? = some p) : p < d.size :=
    lt_size_of_parent? p parent (h.parent?_of_getLast? hp)
  -- the appended node was among no children, so it is none of those that were there before
  have hne (hb : d.parent? b = some parent) : b ≠ child := by
    rintro rfl
    rw [hfree] at hb
    cases hb
  rw [previous?_append hchild, next?_append hlt]
  rcases List.eq_nil_or_concat after with rfl | ⟨init, last, rfl⟩
  · obtain ⟨rfl, hb⟩ := List.append_inj' hab rfl
    obtain rfl : child = b := by simpa using hb
    rw [if_pos rfl, if_neg fun hlast => hne (h.parent?_of_getLast? hlast) rfl, if_pos rfl]
    exact ⟨rfl, rfl⟩
  · rw [List.concat_eq_append, ← List.cons_append, ← List.append_assoc] at hab
    obtain ⟨hold, hlast⟩ := List.append_inj' hab rfl
    obtain rfl : child = last := by simpa using hlast
    have hb := hne ((h.mem_children_iff parent b).1 (by simp [hold]))
    obtain ⟨hprevious, hafter⟩ := hl.neighbours parent before b init hold
    rw [if_neg hb, if_neg hb, List.concat_eq_append]
    refine ⟨hprevious, ?_⟩
    cases init with
    | nil =>
      rw [if_pos (by rw [hold, List.getLast?_concat])]
      rfl
    | cons c init =>
      rw [if_neg (h.getLast?_ne hold (List.cons_ne_nil c init)), hafter]
      rfl

/-- **Appending a node keeps neighbours and siblings in agreement.** -/
theorem IsLinked.append (hl : d.IsLinked) (h : d.IsTree) (hfree : d.parent? child = none)
    (hparent : parent < d.size) (hchild : child < d.size) :
    (d.append parent child).IsLinked where
  neighbours a before b after hab := by
    rw [children_append hparent] at hab
    by_cases ha : a = parent
    · subst ha
      rw [if_pos rfl] at hab
      exact hl.neighbours_append h hfree hchild hab
    · rw [if_neg ha] at hab
      have hb : d.parent? b = some a := (h.mem_children_iff a b).1 (by simp [hab])
      have hne : b ≠ child := by
        rintro rfl
        rw [hfree] at hb
        cases hb
      have hlast : (d.children parent).getLast? ≠ some b := fun hlast =>
        ha (Option.some_inj.1 (hb.symm.trans (h.parent?_of_getLast? hlast)))
      obtain ⟨hprevious, hnext⟩ := h.siblings_append hchild hne hlast
      rw [hprevious, hnext]
      exact hl.neighbours a before b after hab
  alone b hb := by
    rw [parent?_append hchild] at hb
    split at hb
    · cases hb
    · next hne =>
      have hlast : (d.children parent).getLast? ≠ some b := fun hlast => by
        rw [h.parent?_of_getLast? hlast] at hb
        cases hb
      obtain ⟨hprevious, hnext⟩ := h.siblings_append hchild hne hlast
      rw [hprevious, hnext]
      exact hl.alone b hb

theorem Built.isLinked (h : d.Built) : d.IsLinked := by
  induction h with
  | empty => exact isLinked_empty
  | alloc _ kind ih => exact ih.alloc kind
  | append h _ hfree _ _ hd ih =>
    unfold append? at hd
    split at hd
    · next hlt =>
      obtain rfl := Option.some_inj.1 hd
      exact ih.append h.isTree hfree hlt.1 hlt.2
    · cases hd

/-! ### Parents and children -/

theorem IsTree.nodup_children (h : d.IsTree) :
    ((List.range d.size).flatMap d.children).Nodup := by
  refine List.nodup_flatMap.2 ⟨fun a _ => h.nodup a, ?_⟩
  refine (List.nodup_range (n := d.size)).imp ?_
  intro a b hab c hca hcb
  have hparents := ((h.mem_children_iff a c).1 hca).symm.trans ((h.mem_children_iff b c).1 hcb)
  exact hab (Option.some_inj.1 hparents)

theorem IsTree.exists_iterate (h : d.IsTree) (x : Nat) :
    ∃ k, (fun y : Option Nat => y.bind d.parent?)^[k] (some x) = none := by
  induction x using (wellFounded_of_acyclic lt_size_of_parent? h.acyclic).induction with
  | _ x ih =>
    cases hx : d.parent? x with
    | none => exact ⟨1, hx⟩
    | some p =>
      obtain ⟨k, hk⟩ := ih p hx
      refine ⟨k + 1, ?_⟩
      rw [Function.iterate_succ_apply, Option.bind_some, hx]
      exact hk

/-! ### Siblings -/

theorem IsLinked.mem_before (hl : d.IsLinked) {a b : Nat}
    {before after : List Nat} (hab : d.children a = before ++ b :: after) {x : Nat}
    (hx : Leads d.previous? b x) : x ∈ before := by
  induction before using List.reverseRecOn generalizing b after with
  | nil =>
    exact absurd hx (not_leads_of_none (hl.neighbours a [] b after hab).1)
  | append_singleton before c ih =>
    have hprevious : d.previous? b = some c := by
      rw [(hl.neighbours a _ b after hab).1, List.getLast?_concat]
    rcases (leads_iff_of_some hprevious).1 hx with rfl | hx
    · simp
    · rw [List.append_assoc] at hab
      exact List.mem_append_left _ (ih hab hx)

/-- **A document that is built is well-formed.** -/
theorem Built.wellFormed (h : d.Built) : d.WellFormed where
  parents := h.isTree.acyclic
  siblings b hb := by
    cases hp : d.parent? b with
    | none => exact not_leads_of_none (h.isLinked.alone b hp).1 hb
    | some a =>
      obtain ⟨before, after, hab⟩ := List.append_of_mem ((h.isTree.mem_children_iff a b).2 hp)
      have hmem := h.isLinked.mem_before hab hb
      have hnodup := h.isTree.nodup a
      rw [hab, List.nodup_append] at hnodup
      exact hnodup.2.2 b hmem b List.mem_cons_self rfl

/-! ### All links -/

/-- **The links of a document that is built agree.**  No node occurs twice in the lists of children.
A node is a child of another if and only if that is its parent.  The siblings before and behind a
child are its neighbours in the list of its parent's children, and there is none before the first
and none behind the last.  The document itself, and a node that is no child, have neither a parent
nor siblings.  The way up from any node ends. -/
theorem Built.links_agree (h : d.Built) :
    ((List.range d.size).flatMap d.children).Nodup ∧
      (∀ a b, b ∈ d.children a ↔ d.parent? b = some a) ∧
      (∀ a before b after, d.children a = before ++ b :: after →
        d.previous? b = before.getLast? ∧ d.next? b = after.head?) ∧
      (∀ b, (b = root ∨ ∀ a, b ∉ d.children a) →
        d.parent? b = none ∧ d.previous? b = none ∧ d.next? b = none) ∧
      ∀ x, ∃ k, (fun y : Option Nat => y.bind d.parent?)^[k] (some x) = none := by
  have ht := h.isTree
  refine ⟨ht.nodup_children, ht.mem_children_iff, h.isLinked.neighbours, ?_, ht.exists_iterate⟩
  rintro b hb
  have hfree : d.parent? b = none := by
    rcases hb with rfl | hb
    · exact ht.root_free
    · cases hp : d.parent? b with
      | none => rfl
      | some a => exact absurd ((ht.mem_children_iff a b).2 hp) (hb a)
  exact ⟨hfree, h.isLinked.alone b hfree⟩

/-- A list with a text, a comment and an element in it, and one more text without a place. -/
theorem Built.links_agree_list :
    let d := (((((((((Document.empty.alloc (.element "ul" [])).alloc (.text "a")).alloc
      (.comment "b")).alloc (.element "li" [])).alloc (.text "c")).append 0 1).append 1 2).append
        1 3).append 1 4)
    d.Built ∧ d.children 1 = [2] ++ 3 :: [4] ∧ (d.previous? 3 = some 2 ∧ d.next? 3 = some 4) ∧
      (∀ a, 5 ∉ d.children a) ∧
      (d.parent? 5 = none ∧ d.previous? 5 = none ∧ d.next? 5 = none) ∧
      ∃ k, (fun y : Option Nat => y.bind d.parent?)^[k] (some 4) = none := by
  intro d
  have hmade := (((((Built.empty.alloc (.element "ul" [])).alloc (.text "a")).alloc
    (.comment "b")).alloc (.element "li" [])).alloc (.text "c"))
  have hbuilt : d.Built := by
    refine .append_leaf (.append_leaf (.append_leaf (.append_leaf hmade
      ?_ ?_ ?_ ?_ ?_) ?_ ?_ ?_ ?_ ?_) ?_ ?_ ?_ ?_ ?_) ?_ ?_ ?_ ?_ ?_
    all_goals decide
  obtain ⟨-, hmem, hneighbours, halone, hends⟩ := hbuilt.links_agree
  have hfree (a : Nat) : 5 ∉ d.children a := by
    rw [hmem]
    exact nofun
  exact ⟨hbuilt, rfl, hneighbours 1 [2] 3 [4] rfl, hfree, halone 5 (.inr hfree), hends 4⟩

end Document

end Css2
