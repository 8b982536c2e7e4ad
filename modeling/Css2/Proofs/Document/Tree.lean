import Css2.Proofs.Document.Walk

/-!
# Documents that are trees

A document is built by making nodes and appending them (`Document.Built`).  As long as only nodes
without a place are appended, and none to itself or to a node below it, the nodes make up trees
(`Document.Built.isTree`): the links from parents to children and back agree, no node is listed
twice, and none is above itself.
-/

namespace Css2

namespace Document

/-- The document is built from the empty one.  A node that is appended is not the document itself,
it has no parent yet, and it is neither its new parent nor an ancestor of that. -/
inductive Built : Document → Prop
  | empty : Built .empty
  | alloc {d : Document} (h : Built d) (kind : NodeKind) : Built (d.alloc kind)
  | append {d d' : Document} {parent child : Nat} (h : Built d) (hroot : child ≠ root)
      (hfree : d.parent? child = none) (hne : child ≠ parent) (hnot : ¬ d.Ancestor child parent)
      (hd : d.append? parent child = some d') : Built d'

/-- `x` is the node `a` or a node below it. -/
def Under (d : Document) (a x : Nat) : Prop :=
  Relation.ReflTransGen (fun a b => b ∈ d.children a) a x

/-- The nodes of the document make up trees, one of them below the document itself. -/
structure IsTree (d : Document) : Prop where
  root_lt : root < d.size
  root_free : d.parent? root = none
  mem_children_iff : ∀ a b, b ∈ d.children a ↔ d.parent? b = some a
  nodup : ∀ a, (d.children a).Nodup
  acyclic : ∀ a, ¬ d.Ancestor a a

variable {d : Document}

/-! ### Making a node -/

theorem node?_alloc (kind : NodeKind) (i : Nat) :
    (d.alloc kind).node? i = if i = d.size then some { kind := kind } else d.node? i := by
  unfold node? alloc size
  dsimp only
  rcases Nat.lt_trichotomy i d.nodes.length with hlt | rfl | hgt
  · rw [List.getElem?_append_left hlt, if_neg (by omega)]
  · rw [List.getElem?_concat_length, if_pos rfl]
  · rw [List.getElem?_eq_none (by simp; omega), List.getElem?_eq_none (by omega),
      if_neg (by omega)]

theorem node?_size (d : Document) : d.node? d.size = none :=
  List.getElem?_eq_none (Nat.le_refl _)

theorem parent?_alloc (kind : NodeKind) (i : Nat) :
    (d.alloc kind).parent? i = d.parent? i := by
  unfold parent?
  rw [node?_alloc]
  split
  · next h => rw [h, node?_size]; rfl
  · rfl

theorem children_alloc (kind : NodeKind) (i : Nat) :
    (d.alloc kind).children i = d.children i := by
  unfold children
  rw [node?_alloc]
  split
  · next h => rw [h, node?_size]; rfl
  · rfl

/-! ### Appending a node -/

theorem node?_modify (f : Node → Node) (id i : Nat) :
    (d.modify id f).node? i = (d.node? i).map fun n => if i = id then f n else n := by
  unfold node? modify
  rw [List.getElem?_modify]
  by_cases hi : i = id
  · simp only [hi, if_true]
    rfl
  · simp only [hi, Ne.symm hi, if_false, Option.map_id']
    exact Option.map_id' ..

theorem size_modify (f : Node → Node) (id : Nat) : (d.modify id f).size = d.size :=
  List.length_modify ..

theorem exists_node? {id : Nat} (h : id < d.size) : ∃ n, d.node? id = some n :=
  ⟨_, List.getElem?_eq_getElem h⟩

/-- What appending a node makes of the node with the number `i`. -/
def appended (d : Document) (parent child i : Nat) (n : Node) : Node where
  kind := n.kind
  parent := if i = child then some parent else n.parent
  children := if i = parent then n.children ++ [child] else n.children
  previous := if i = child then (d.children parent).getLast? else n.previous
  next := if (d.children parent).getLast? = some i then some child
    else if i = child then none else n.next

/-- **What appending a node does to each node.**  The links of a node are read off this. -/
theorem node?_append (d : Document) (parent child i : Nat) :
    (d.append parent child).node? i = (d.node? i).map (d.appended parent child i) := by
  unfold append
  dsimp only
  split
  · next p hp =>
    rw [node?_modify, node?_modify, node?_modify, Option.map_map, Option.map_map]
    congr 1
    funext n
    simp only [appended, hp, Function.comp_apply, Option.some_inj, eq_comm (a := p)]
    split_ifs <;> rfl
  · next hp =>
    rw [node?_modify, node?_modify, Option.map_map]
    congr 1
    funext n
    simp only [appended, hp, Function.comp_apply, reduceCtorEq, if_false]
    split_ifs <;> rfl

theorem parent?_append {parent child : Nat} (hchild : child < d.size) (i : Nat) :
    (d.append parent child).parent? i = if i = child then some parent else d.parent? i := by
  rw [Document.parent?, Document.parent?, node?_append]
  by_cases hi : i = child
  · subst hi
    obtain ⟨n, hn⟩ := exists_node? hchild
    simp [hn, appended]
  · cases d.node? i <;> simp [hi, appended]

theorem children_append {parent child : Nat} (hparent : parent < d.size) (i : Nat) :
    (d.append parent child).children i =
      if i = parent then d.children parent ++ [child] else d.children i := by
  rw [children, node?_append]
  by_cases hi : i = parent
  · subst hi
    obtain ⟨n, hn⟩ := exists_node? hparent
    simp [hn, appended, children]
  · cases hn : d.node? i <;> simp [hi, hn, appended, children]

theorem size_append (parent child : Nat) : (d.append parent child).size = d.size := by
  unfold append
  dsimp only
  split <;> simp only [size_modify]

/-! ### Trees -/

theorem parent?_empty (i : Nat) : empty.parent? i = none := by
  cases i <;> rfl

theorem children_empty (i : Nat) : empty.children i = [] := by
  cases i <;> rfl

theorem isTree_empty : IsTree .empty where
  root_lt := Nat.zero_lt_one
  root_free := rfl
  mem_children_iff a b := by rw [children_empty, parent?_empty]; simp
  nodup a := by rw [children_empty]; exact List.nodup_nil
  acyclic a := not_leads_of_none (parent?_empty a)

theorem IsTree.alloc (h : d.IsTree) (kind : NodeKind) : (d.alloc kind).IsTree where
  root_lt := by
    show _ < (d.nodes ++ _).length
    rw [List.length_append]
    exact Nat.lt_add_right _ h.root_lt
  root_free := by rw [parent?_alloc, h.root_free]
  mem_children_iff a b := by rw [children_alloc, parent?_alloc, h.mem_children_iff]
  nodup a := by rw [children_alloc]; exact h.nodup a
  acyclic a := by
    rw [Ancestor, funext (parent?_alloc kind)]
    exact h.acyclic a

/-- The way up after a node is appended either does not pass by it, or goes up to it and then on
from its parent. -/
theorem ancestor_of_append {parent child a b : Nat} (hchild : child < d.size)
    (h : (d.append parent child).Ancestor a b) :
    d.Ancestor a b ∨ (b = child ∨ d.Ancestor child b) ∧ (a = parent ∨ d.Ancestor a parent) := by
  induction h with
  | @single a hab =>
    rw [parent?_append hchild] at hab
    split at hab
    · next hb => exact .inr ⟨.inl hb, .inl (Option.some_inj.1 hab).symm⟩
    · exact .inl (.single hab)
  | @tail m a hm hma ih =>
    rw [parent?_append hchild] at hma
    split at hma
    · next heq =>
      obtain rfl : parent = a := Option.some_inj.1 hma
      subst heq
      rcases ih with ih | ⟨hb, hm⟩
      · exact .inr ⟨.inr ih, .inl rfl⟩
      · exact .inr ⟨hb, .inl rfl⟩
    · rcases ih with ih | ⟨hb, rfl | hm⟩
      · exact .inl (.tail ih hma)
      · exact .inr ⟨hb, .inr (.single hma)⟩
      · exact .inr ⟨hb, .inr (.tail hm hma)⟩

theorem IsTree.append (h : d.IsTree) {parent child : Nat} (hroot : child ≠ root)
    (hfree : d.parent? child = none) (hne : child ≠ parent) (hnot : ¬ d.Ancestor child parent)
    (hparent : parent < d.size) (hchild : child < d.size) : (d.append parent child).IsTree where
  root_lt := by rw [size_append]; exact h.root_lt
  root_free := by rw [parent?_append hchild, if_neg (Ne.symm hroot), h.root_free]
  mem_children_iff a b := by
    rw [children_append hparent, parent?_append hchild]
    have hb : b ∈ d.children a ↔ d.parent? b = some a := h.mem_children_iff a b
    by_cases ha : a = parent
    · subst ha
      by_cases hbc : b = child
      · simp [hbc]
      · simp [hbc, hb]
    · by_cases hbc : b = child
      · subst hbc
        simp [ha, Ne.symm ha, hb, hfree]
      · simp [ha, hbc, hb]
  nodup a := by
    rw [children_append hparent]
    split
    · have hnew : child ∉ d.children parent := by
        rw [h.mem_children_iff, hfree]
        simp
      simpa [List.nodup_append] using ⟨h.nodup parent, fun a ha hac => hnew (hac ▸ ha)⟩
    · exact h.nodup a
  acyclic a ha := by
    rcases ancestor_of_append hchild ha with ha | ⟨rfl | hac, rfl | hap⟩
    · exact h.acyclic a ha
    · exact hne rfl
    · exact hnot hap
    · exact hnot hac
    · exact hnot (Relation.TransGen.trans hap hac)

/-- **A document that is built is a tree.** -/
theorem Built.isTree (h : d.Built) : d.IsTree := by
  induction h with
  | empty => exact isTree_empty
  | alloc _ kind ih => exact ih.alloc kind
  | append _ hroot hfree hne hnot hd ih =>
    unfold append? at hd
    split at hd
    · next hlt =>
      obtain rfl := Option.some_inj.1 hd
      exact ih.append hroot hfree hne hnot hlt.1 hlt.2
    · cases hd

/-- A node without children is not above the one it is appended to. -/
theorem Built.append_leaf {parent child : Nat} (h : Built d) (hroot : child ≠ root)
    (hfree : d.parent? child = none) (hne : child ≠ parent) (hleaf : d.children child = [])
    (hlt : parent < d.size ∧ child < d.size) : Built (d.append parent child) := by
  refine .append h hroot hfree hne ?_ (if_pos hlt)
  intro hanc
  obtain ⟨x, -, hx⟩ := Relation.TransGen.tail'_iff.1 hanc
  have hmem : x ∈ d.children child := (h.isTree.mem_children_iff child x).2 hx
  rw [hleaf] at hmem
  cases hmem

/-! ### What is below a node -/

theorem under_iff {a x : Nat} : d.Under a x ↔ x = a ∨ ∃ b ∈ d.children a, d.Under b x := by
  rw [Under, Relation.ReflTransGen.cases_head_iff, eq_comm]
  rfl

theorem Under.trans {a b x : Nat} (hab : d.Under a b) (hbx : d.Under b x) : d.Under a x :=
  Relation.ReflTransGen.trans hab hbx

theorem under_of_mem_children {a b : Nat} (h : b ∈ d.children a) : d.Under a b :=
  .single h

variable {a b x : Nat}

theorem IsTree.down_eq (h : d.IsTree) :
    (fun a b => b ∈ d.children a) = Function.swap fun b a => d.parent? b = some a := by
  funext a b
  exact propext (h.mem_children_iff a b)

theorem IsTree.under_iff_up (h : d.IsTree) :
    d.Under a x ↔ Relation.ReflTransGen (fun b a => d.parent? b = some a) x a := by
  rw [Under, h.down_eq, Relation.reflTransGen_swap]

theorem IsTree.under_iff_ancestor (h : d.IsTree) :
    d.Under a x ↔ x = a ∨ d.Ancestor a x := by
  rw [h.under_iff_up, Relation.reflTransGen_iff_eq_or_transGen, eq_comm]
  rfl

theorem IsTree.not_under_of_mem_children (h : d.IsTree) (hb : b ∈ d.children a) :
    ¬ d.Under b a := by
  intro hba
  have hparent := (h.mem_children_iff a b).1 hb
  rcases h.under_iff_ancestor.1 hba with rfl | hba
  · exact h.acyclic a (.single hparent)
  · exact h.acyclic a (.tail hba hparent)

theorem IsTree.under_total (h : d.IsTree) {c : Nat} (hb : d.Under b x) (hc : d.Under c x) :
    d.Under b c ∨ d.Under c b := by
  rw [h.under_iff_up] at hb hc ⊢
  rw [h.under_iff_up]
  refine Relation.ReflTransGen.total_of_right_unique ?_ hc hb
  intro y z w hz hw
  exact Option.some_inj.1 (hz.symm.trans hw)

theorem IsTree.not_under_sibling (h : d.IsTree) {c : Nat} (hb : b ∈ d.children a)
    (hc : c ∈ d.children a) (hne : b ≠ c) (hbx : d.Under b x) : ¬ d.Under c x := by
  intro hcx
  have hlow : ∀ y z, y ∈ d.children a → z ∈ d.children a → y ≠ z → ¬ d.Under y z := by
    intro y z hy hz hyz hunder
    -- the way up from `z` passes by `a` before it comes to `y`, which is below `a`
    rcases h.under_iff_ancestor.1 hunder with rfl | hanc
    · exact hyz rfl
    · have hup := (leads_iff_of_some ((h.mem_children_iff a z).1 hz)).1 hanc
      exact h.not_under_of_mem_children hy (h.under_iff_ancestor.2 (hup.imp_left Eq.symm))
  rcases h.under_total hbx hcx with hbc | hcb
  · exact hlow b c hb hc hne hbc
  · exact hlow c b hc hb (Ne.symm hne) hcb

theorem IsTree.lt_size_of_under_root (h : d.IsTree) (hx : d.Under root x) : x < d.size := by
  rcases h.under_iff_ancestor.1 hx with rfl | hx
  · exact h.root_lt
  · exact lt_size_of_ancestor hx

end Document

end Css2
