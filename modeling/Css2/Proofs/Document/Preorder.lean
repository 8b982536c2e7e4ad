import Css2.Proofs.Document.Siblings
import Mathlib.Order.WellFounded

/-!
# The order of a document

A walk through a document keeps a stack of the nodes that are still to be visited
(`Document.visit`).  What it has put out when the stack is empty is said by a relation without a
stack, in which every node is followed by what is below its children (`Document.Preorder`).  In a
tree there always is such a list (`Document.IsTree.exists_preorder`), so the walk ends.

The list is sorted.  Of two nodes in a tree, one comes first if it is above the other, or if it is
at or below an earlier child of the lowest node that both are below (`Document.Precedes`).  This
never holds both ways (`Document.IsTree.precedes_asymm`), which is why no node is listed twice and
why the places in the list are told by it (`Document.Built.descendants_preorder`).
-/

namespace Css2

namespace Document

/-- `xs` is made up of the nodes on a stack, each with what is below it right behind it. -/
inductive Preorder (d : Document) : List Nat → List Nat → Prop
  | nil : d.Preorder [] []
  | cons {a : Nat} {stack xs ys : List Nat} (hxs : d.Preorder (d.children a) xs)
      (hys : d.Preorder stack ys) : d.Preorder (a :: stack) (a :: (xs ++ ys))

/-- `x` comes before `y` in the order of the document: it is above `y`, or it is at or below a child
and `y` at or below a later child of the same node. -/
def Precedes (d : Document) (x y : Nat) : Prop :=
  d.Ancestor x y ∨ ∃ p b c, [b, c].Sublist (d.children p) ∧ d.Under b x ∧ d.Under c y

variable {d : Document}

/-! ### The stack -/

theorem visit_nil (out : List Nat) : d.visit out [] = some out := by
  rw [visit]

theorem visit_cons (out stack : List Nat) (a : Nat) :
    d.visit out (a :: stack) = d.visit (out ++ [a]) (d.children a ++ stack) := by
  have hpush (cs : List Nat) :
      cs.reverse.foldl (fun stack child => child :: stack) stack = cs ++ stack := by
    rw [List.foldl_reverse]
    induction cs with
    | nil => rfl
    | cons c cs ih => rw [List.foldr_cons, ih, List.cons_append]
  rw [visit, hpush]

/-- **What is on top of a stack is put out with all that is below it**, before the rest of the
stack. -/
theorem Preorder.visit_append {roots xs : List Nat} (h : d.Preorder roots xs)
    (out stack : List Nat) : d.visit out (roots ++ stack) = d.visit (out ++ xs) stack := by
  induction h generalizing out stack with
  | nil => rw [List.nil_append, List.append_nil]
  | @cons a roots xs ys _ _ ihxs ihys =>
    calc d.visit out (a :: roots ++ stack)
        = d.visit (out ++ [a]) (d.children a ++ (roots ++ stack)) := visit_cons ..
      _ = d.visit (out ++ [a] ++ xs) (roots ++ stack) := ihxs ..
      _ = d.visit (out ++ [a] ++ xs ++ ys) stack := ihys ..
      _ = d.visit (out ++ a :: (xs ++ ys)) stack := by simp

theorem Preorder.descendants_eq {a : Nat} {xs : List Nat} (h : d.Preorder [a] xs) :
    d.descendants a = some xs := by
  have hvisit := h.visit_append [] []
  rwa [List.append_nil, List.nil_append, visit_nil] at hvisit

/-- The nodes that are put out are those on the stack and all nodes below them. -/
theorem Preorder.mem_iff {roots xs : List Nat} (h : d.Preorder roots xs) (x : Nat) :
    x ∈ xs ↔ ∃ a ∈ roots, d.Under a x := by
  induction h with
  | nil => simp
  | @cons a roots xs ys _ _ ihxs ihys =>
    rw [List.mem_cons, List.mem_append, ihxs, ihys, List.exists_mem_cons_iff, under_iff, or_assoc]

/-! ### The end of the walk -/

theorem IsTree.wellFounded (h : d.IsTree) : WellFounded fun b a => b ∈ d.children a := by
  refine wellFounded_of_acyclic lt_size_of_mem_children ?_
  intro x hx
  rw [h.down_eq, Relation.transGen_swap] at hx
  exact h.acyclic x hx

theorem exists_preorder_of_children {roots : List Nat}
    (h : ∀ a ∈ roots, ∃ xs, d.Preorder (d.children a) xs) : ∃ xs, d.Preorder roots xs := by
  induction roots with
  | nil => exact ⟨[], .nil⟩
  | cons a roots ih =>
    obtain ⟨xs, hxs⟩ := h a List.mem_cons_self
    obtain ⟨ys, hys⟩ := ih fun b hb => h b (List.mem_cons_of_mem a hb)
    exact ⟨a :: (xs ++ ys), .cons hxs hys⟩

theorem IsTree.exists_preorder (h : d.IsTree) (roots : List Nat) : ∃ xs, d.Preorder roots xs := by
  have hchildren (a : Nat) : ∃ xs, d.Preorder (d.children a) xs := by
    induction a using h.wellFounded.induction with
    | _ a ih => exact exists_preorder_of_children ih
  exact exists_preorder_of_children fun a _ => hchildren a

/-! ### What comes first -/

variable {x y p b c : Nat}

theorem mem_children_of_sublist (hbc : [b, c].Sublist (d.children p)) :
    b ∈ d.children p ∧ c ∈ d.children p :=
  ⟨hbc.subset (by simp), hbc.subset (by simp)⟩

theorem IsTree.ne_of_sublist (h : d.IsTree) (hbc : [b, c].Sublist (d.children p)) : b ≠ c := by
  have hnodup := hbc.nodup (h.nodup p)
  rintro rfl
  simp at hnodup

theorem IsTree.not_sublist_swap (h : d.IsTree) (hbc : [b, c].Sublist (d.children p)) :
    ¬ [c, b].Sublist (d.children p) := by
  intro hcb
  obtain ⟨l, r, hlr, hb, hc⟩ := List.cons_sublist_iff.1 hbc
  rw [List.singleton_sublist] at hc
  have hnodup := h.nodup p
  rw [hlr] at hcb hnodup
  have hcl : c ∉ l := fun hcl => List.disjoint_of_nodup_append hnodup hcl hc
  have hbr : b ∉ r := fun hbr => List.disjoint_of_nodup_append hnodup hb hbr
  -- the later child is behind the cut, and then so would be the earlier one
  obtain ⟨l', r', h', hc', hb'⟩ := List.cons_sublist_iff.1 hcb
  rw [List.singleton_sublist] at hb'
  rcases List.append_eq_append_iff.1 h' with ⟨t, rfl, rfl⟩ | ⟨t, rfl, rfl⟩
  · exact hbr (List.mem_append_right t hb')
  · exact hcl (List.mem_append_left t hc')

theorem IsTree.under_antisymm (h : d.IsTree) {a : Nat} (hab : d.Under a b) (hba : d.Under b a) :
    a = b := by
  rcases h.under_iff_ancestor.1 hab with heq | hab
  · exact heq.symm
  · rcases h.under_iff_ancestor.1 hba with heq | hba
    · exact heq
    · exact absurd (hab.trans hba) (h.acyclic b)

theorem IsTree.eq_of_under (h : d.IsTree) (hb : b ∈ d.children p) (hc : c ∈ d.children p)
    (hbx : d.Under b x) (hcx : d.Under c x) : b = c := by
  by_contra hne
  exact h.not_under_sibling hb hc hne hbx hcx

theorem IsTree.ancestor_of_child (h : d.IsTree) (hb : b ∈ d.children p) (hbx : d.Under b x) :
    d.Ancestor p x := by
  have hpb : d.Ancestor p b := .single ((h.mem_children_iff p b).1 hb)
  rcases h.under_iff_ancestor.1 hbx with rfl | hbx
  · exact hpb
  · exact hbx.trans hpb

/-- **The parent of two children is the lowest node above what is at or below them.** -/
theorem IsTree.under_of_sublist (h : d.IsTree) (hbc : [b, c].Sublist (d.children p))
    (hbx : d.Under b x) (hcy : d.Under c y) {q : Nat} (hqx : d.Under q x) (hqy : d.Under q y) :
    d.Under q p := by
  obtain ⟨hb, hc⟩ := mem_children_of_sublist hbc
  rcases h.under_total hqx ((under_of_mem_children hb).trans hbx) with hqp | hpq
  · exact hqp
  · rcases under_iff.1 hpq with rfl | ⟨e, he, heq⟩
    · exact .refl
    · -- otherwise both children are the one that leads to that node
      have heb : e = b := h.eq_of_under he hb (heq.trans hqx) hbx
      have hec : e = c := h.eq_of_under he hc (heq.trans hqy) hcy
      exact absurd (heb.symm.trans hec) (h.ne_of_sublist hbc)

theorem IsTree.not_under_of_sublist (h : d.IsTree) (hbc : [b, c].Sublist (d.children p))
    (hbx : d.Under b x) (hcy : d.Under c y) : ¬ d.Under x y ∧ ¬ d.Under y x := by
  obtain ⟨hb, hc⟩ := mem_children_of_sublist hbc
  constructor
  · intro hxy
    exact h.not_under_of_mem_children hb (hbx.trans (h.under_of_sublist hbc hbx hcy .refl hxy))
  · intro hyx
    exact h.not_under_of_mem_children hc (hcy.trans (h.under_of_sublist hbc hbx hcy hyx .refl))

/-- **Of two nodes at most one comes before the other.** -/
theorem IsTree.precedes_asymm (h : d.IsTree) (hxy : d.Precedes x y) : ¬ d.Precedes y x := by
  have hunder {a z : Nat} (haz : d.Ancestor a z) : d.Under a z := h.under_iff_ancestor.2 (.inr haz)
  rintro (hyx | ⟨q, e, f, hef, hey, hfx⟩)
  · rcases hxy with hxy | ⟨p, b, c, hbc, hbx, hcy⟩
    · exact h.acyclic x (hyx.trans hxy)
    · exact (h.not_under_of_sublist hbc hbx hcy).2 (hunder hyx)
  · rcases hxy with hxy | ⟨p, b, c, hbc, hbx, hcy⟩
    · exact (h.not_under_of_sublist hef hey hfx).2 (hunder hxy)
    · obtain ⟨hb, hc⟩ := mem_children_of_sublist hbc
      obtain ⟨he, hf⟩ := mem_children_of_sublist hef
      -- both pairs of children are those of the lowest node above the two
      have hqp : d.Under q p := h.under_of_sublist hbc hbx hcy
        (hunder (h.ancestor_of_child hf hfx)) (hunder (h.ancestor_of_child he hey))
      have hpq : d.Under p q := h.under_of_sublist hef hey hfx
        (hunder (h.ancestor_of_child hc hcy)) (hunder (h.ancestor_of_child hb hbx))
      obtain rfl : p = q := h.under_antisymm hpq hqp
      obtain rfl : b = f := h.eq_of_under hb hf hbx hfx
      obtain rfl : c = e := h.eq_of_under hc he hcy hey
      exact h.not_sublist_swap hbc hef

/-! ### Sorted lists -/

theorem pairwise_children (p : Nat) :
    (d.children p).Pairwise fun b c => ∀ x y, d.Under b x → d.Under c y → d.Precedes x y := by
  rw [List.pairwise_iff_forall_sublist]
  intro b c hbc x y hx hy
  exact .inr ⟨p, b, c, hbc, hx, hy⟩

/-- **The nodes are put out in the order of the document**, if those on the stack are in order. -/
theorem IsTree.pairwise_precedes (h : d.IsTree) {roots xs : List Nat}
    (hroots : roots.Pairwise fun b c => ∀ x y, d.Under b x → d.Under c y → d.Precedes x y)
    (hxs : d.Preorder roots xs) : xs.Pairwise d.Precedes := by
  induction hxs with
  | nil => exact .nil
  | @cons a roots xs ys hxs hys ihxs ihys =>
    obtain ⟨hfirst, hrest⟩ := List.pairwise_cons.1 hroots
    have hlower {x : Nat} (hx : x ∈ xs) : d.Ancestor a x := by
      obtain ⟨b, hb, hbx⟩ := (hxs.mem_iff x).1 hx
      exact h.ancestor_of_child hb hbx
    have hlater {x y : Nat} (hx : d.Under a x) (hy : y ∈ ys) : d.Precedes x y := by
      obtain ⟨c, hc, hcy⟩ := (hys.mem_iff y).1 hy
      exact hfirst c hc x y hx hcy
    refine List.pairwise_cons.2 ⟨?_, List.pairwise_append.2
      ⟨ihxs (pairwise_children a), ihys hrest, ?_⟩⟩
    · intro z hz
      rcases List.mem_append.1 hz with hz | hz
      · exact .inl (hlower hz)
      · exact hlater .refl hz
    · intro x hx y hy
      exact hlater (h.under_iff_ancestor.2 (.inr (hlower hx))) hy

theorem IsTree.sublist_of_precedes (h : d.IsTree) {xs : List Nat} (hxs : xs.Pairwise d.Precedes)
    (hx : x ∈ xs) (hy : y ∈ xs) (hxy : d.Precedes x y) : [x, y].Sublist xs := by
  obtain ⟨l, r, rfl⟩ := List.append_of_mem hx
  have hyr : y ∈ r := by
    rcases List.mem_append.1 hy with hyl | hyr
    · have hyx := (List.pairwise_append.1 hxs).2.2 y hyl x List.mem_cons_self
      exact absurd hxy (h.precedes_asymm hyx)
    · rcases List.mem_cons.1 hyr with rfl | hyr
      · exact absurd hxy (h.precedes_asymm hxy)
      · exact hyr
  exact ((List.singleton_sublist.2 hyr).cons_cons x).trans (List.sublist_append_right l (x :: r))

/-! ### All that is below a node -/

/-- **The nodes below a node in the order of the document.**  The walk ends.  It lists the node
itself and every node of which it is an ancestor, each of them once, and no others.  A node stands
before all that is below it, and all that is at or below a child stands before all that is at or
below a later child of the same node.  The ancestors of a node are those that the walk up lists,
which ends as well. -/
theorem Built.descendants_preorder (h : d.Built) (f : Nat) :
    ∃ xs, d.descendants f = some xs ∧ xs.Nodup ∧
      (∀ x, x ∈ xs ↔ x = f ∨ d.Ancestor f x) ∧
      (∀ x y, x ∈ xs → d.Ancestor x y → [x, y].Sublist xs) ∧
      (∀ p b c, [b, c].Sublist (d.children p) → ∀ x y, x ∈ xs → y ∈ xs →
        (x = b ∨ d.Ancestor b x) → (y = c ∨ d.Ancestor c y) → [x, y].Sublist xs) ∧
      ∀ x, ∃ as, d.ancestors x = some as ∧ ∀ a, a ∈ as ↔ d.Ancestor a x := by
  have ht := h.isTree
  obtain ⟨xs, hxs⟩ := ht.exists_preorder [f]
  have hsorted := ht.pairwise_precedes (List.pairwise_singleton _ f) hxs
  have hmem (x : Nat) : x ∈ xs ↔ d.Under f x := by
    rw [hxs.mem_iff]
    simp
  refine ⟨xs, hxs.descendants_eq, ?_, ?_, ?_, ?_, ?_⟩
  · refine hsorted.imp ?_
    rintro x _ hxx rfl
    exact ht.precedes_asymm hxx hxx
  · intro x
    rw [hmem, ht.under_iff_ancestor]
  · intro x y hx hxy
    have hy : y ∈ xs :=
      (hmem y).2 (((hmem x).1 hx).trans (ht.under_iff_ancestor.2 (.inr hxy)))
    exact ht.sublist_of_precedes hsorted hx hy (.inl hxy)
  · intro p b c hbc x y hx hy hbx hcy
    have hprecedes : d.Precedes x y :=
      .inr ⟨p, b, c, hbc, ht.under_iff_ancestor.2 hbx, ht.under_iff_ancestor.2 hcy⟩
    exact ht.sublist_of_precedes hsorted hx hy hprecedes
  · intro x
    obtain ⟨as, has⟩ := exists_walk h.wellFormed.wellFounded_parent? x
    exact ⟨as, has, fun a => mem_walk_iff has⟩

/-- A list with two items, of which the one that is made last, with a text in it, comes first. -/
theorem Built.descendants_preorder_list :
    let d := ((((((((Document.empty.alloc (.element "ul" [])).alloc (.element "li" [])).alloc
      (.element "li" [])).alloc (.text "a")).append 0 1).append 1 3).append 3 4).append 1 2)
    d.Built ∧ d.descendants 1 = some [1, 3, 4, 2] ∧ [1, 3, 4, 2].Nodup ∧
      (2 ∈ [1, 3, 4, 2] ↔ 2 = 1 ∨ d.Ancestor 1 2) ∧
      (d.Ancestor 3 4 ∧ [3, 4].Sublist [1, 3, 4, 2]) ∧
      ([3, 2].Sublist (d.children 1) ∧ [4, 2].Sublist [1, 3, 4, 2]) ∧
      ∃ as, d.ancestors 4 = some as ∧ ∀ a, a ∈ as ↔ d.Ancestor a 4 := by
  intro d
  have hmade := ((((Built.empty.alloc (.element "ul" [])).alloc (.element "li" [])).alloc
    (.element "li" [])).alloc (.text "a"))
  have hbuilt : d.Built := by
    refine .append_leaf (.append_leaf (.append_leaf (.append_leaf hmade
      ?_ ?_ ?_ ?_ ?_) ?_ ?_ ?_ ?_ ?_) ?_ ?_ ?_ ?_ ?_) ?_ ?_ ?_ ?_ ?_
    all_goals decide
  obtain ⟨xs, hxs, hnodup, hmem, habove, hbefore, hup⟩ := hbuilt.descendants_preorder 1
  have hlist : d.descendants 1 = some [1, 3, 4, 2] := by
    rw [descendants, visit_cons, show d.children 1 = [3, 2] from rfl, List.cons_append, visit_cons,
      show d.children 3 = [4] from rfl, List.cons_append, visit_cons,
      show d.children 4 = [] from rfl]
    exact (visit_cons ..).trans (visit_nil _)
  obtain rfl : xs = [1, 3, 4, 2] := Option.some_inj.1 (hxs.symm.trans hlist)
  have hchildren : [3, 2].Sublist (d.children 1) := .refl _
  have hanc : d.Ancestor 3 4 := .single rfl
  exact ⟨hbuilt, hlist, hnodup, hmem 2, ⟨hanc, habove 3 4 (by simp) hanc⟩, ⟨hchildren,
    hbefore 1 3 2 hchildren 4 2 (by simp) (by simp) (.inr hanc) (.inl rfl)⟩, hup 4⟩

end Document

end Css2
