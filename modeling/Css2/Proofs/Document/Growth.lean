import Css2.Proofs.Document.Tree
import Css2.Proofs.Selector.Frame

/-!
# What appending a node changes

When a node is appended, its own links change, the list of children of its new parent, and the link
forward from the child that was the last one.  A node in a tree has its parent in common with the
sibling before it (`Document.Built.exists_parent?_of_previous?`).  So the links up and back lead to
an appended node from below it only, and at all the other nodes the documents before and after agree
(`Document.Built.agrees_append`).
-/

namespace Css2

namespace Document

variable {d : Document}

/-! ### The links of a node -/

theorem kind_append (parent child i : Nat) :
    ((d.append parent child).node? i).map Node.kind = (d.node? i).map Node.kind := by
  rw [node?_append, Option.map_map]
  rfl

theorem previous?_empty (i : Nat) : empty.previous? i = none := by
  cases i <;> rfl

theorem previous?_alloc (kind : NodeKind) (i : Nat) :
    (d.alloc kind).previous? i = d.previous? i := by
  unfold previous?
  rw [node?_alloc]
  split
  · next h => rw [h, node?_size]; rfl
  · rfl

/-- The sibling before an appended node is the last child that its parent had. -/
theorem previous?_append {parent child : Nat} (hchild : child < d.size) (i : Nat) :
    (d.append parent child).previous? i =
      if i = child then (d.children parent).getLast? else d.previous? i := by
  rw [previous?, previous?, node?_append]
  by_cases hi : i = child
  · subst hi
    obtain ⟨n, hn⟩ := exists_node? hchild
    simp [hn, appended]
  · cases d.node? i <;> simp [hi, appended]

/-! ### Siblings -/

/-- **A node has its parent in common with the sibling before it.** -/
theorem Built.exists_parent?_of_previous? (h : d.Built) {a b : Nat}
    (hab : d.previous? b = some a) : ∃ p, d.parent? a = some p ∧ d.parent? b = some p := by
  induction h with
  | empty =>
    rw [previous?_empty] at hab
    cases hab
  | alloc _ kind ih =>
    rw [previous?_alloc] at hab
    rw [parent?_alloc, parent?_alloc]
    exact ih hab
  | @append d d' parent child h _ hfree _ _ hd ih =>
    unfold append? at hd
    split at hd
    · next hlt =>
      obtain rfl := Option.some_inj.1 hd
      -- the appended node had no parent, so it is not the sibling before any node
      have hparent : ∀ {p : Nat}, d.parent? a = some p →
          (d.append parent child).parent? a = some p := by
        intro p hp
        rw [parent?_append hlt.2, if_neg, hp]
        rintro rfl
        rw [hfree] at hp
        cases hp
      rw [previous?_append hlt.2] at hab
      rw [parent?_append hlt.2 b]
      split at hab
      · next hb =>
        have hmem : a ∈ d.children parent := List.mem_of_getLast? hab
        exact ⟨parent, hparent ((h.isTree.mem_children_iff parent a).1 hmem), if_pos hb⟩
      · next hb =>
        obtain ⟨p, ha, hp⟩ := ih hab
        exact ⟨p, hparent ha, by rw [if_neg hb, hp]⟩
    · cases hd

/-! ### The nodes that are not touched -/

variable {parent child : Nat}

/-- Nothing below the document itself is below a node without a parent. -/
theorem IsTree.not_under_of_free (h : d.IsTree) (hroot : child ≠ root)
    (hfree : d.parent? child = none) {x : Nat} (hx : d.Under root x) : ¬ d.Under child x := by
  intro hchild
  rcases h.under_total hx hchild with hunder | hunder
  · rcases h.under_iff_ancestor.1 hunder with heq | hanc
    · exact hroot heq
    · exact not_leads_of_none hfree hanc
  · rcases h.under_iff_ancestor.1 hunder with heq | hanc
    · exact hroot heq.symm
    · exact not_leads_of_none h.root_free hanc

/-- **Appending a node changes no link up or back but those of nodes below it.** -/
theorem Built.agrees_append (h : d.Built) (hfree : d.parent? child = none)
    (hchild : child < d.size) :
    d.Agrees (d.append parent child) {i | ¬ d.Under child i} where
  kind i _ := kind_append parent child i
  parent i hi := by
    rw [parent?_append hchild, if_neg]
    rintro rfl
    exact hi .refl
  previous i hi := by
    rw [previous?_append hchild, if_neg]
    rintro rfl
    exact hi .refl
  parent_mem i hi a ha hunder :=
    hi (hunder.trans (under_of_mem_children ((h.isTree.mem_children_iff a i).2 ha)))
  previous_mem i hi a ha hunder := by
    obtain ⟨p, hap, hip⟩ := h.exists_parent?_of_previous? ha
    have hmem : i ∈ d.children p := (h.isTree.mem_children_iff p i).2 hip
    refine hi (Under.trans ?_ (under_of_mem_children hmem))
    -- the sibling is not the node itself, so it is below it through the common parent
    rcases h.isTree.under_iff_ancestor.1 hunder with rfl | hanc
    · rw [hfree] at hap
      cases hap
    · have hup := (leads_iff_of_some hap).1 hanc
      exact h.isTree.under_iff_ancestor.2 (hup.imp_left Eq.symm)

end Document

end Css2
