import Css2.Cascade.Resolve
import Css2.Proofs.Document.Tree

/-!
# The styles of a whole document

`Cascade.styles` keeps the nodes that are still to be visited on a stack, each with the nearest
element above it.  On a document that is a tree this comes to an end, and what it finds is what the
styles of elements are defined to be: every element in the tree has a style, and it is resolved
against the style of the nearest element above it (`Cascade.styles_resolved`).

What carries the proof is `StylePass.Sound`.  The nodes that are pending have nothing below them in
common and nothing below them has a style yet, so a node is visited once; and the element from which
a pending node inherits has its style already.
-/

namespace Css2

open Document

variable {c : Cascade} {o : ResolveOptions} {d : Document}

/-- The element `e` has the style that is resolved against the style of the nearest element above
it, or against the initial one if there is no element above it. -/
def Cascade.Resolved (c : Cascade) (o : ResolveOptions) (d : Document)
    (styles : Std.HashMap Nat Style) (e : Nat) : Prop :=
  (∃ a s, FirstAlong d.parent? d.isElement e a ∧ styles[a]? = some s ∧
      styles[e]? = some (c.resolve o d s e)) ∨
    (∀ a, d.Ancestor a e → d.isElement a = false) ∧
      styles[e]? = some (c.resolve o d Style.initial e)

namespace StylePass

/-- `above` is the nearest element above a node. -/
def Nearest (d : Document) (id : Nat) (above : Option Nat) : Prop :=
  ∀ a, above = some a ↔ FirstAlong d.parent? d.isElement id a

/-- What holds of a pass over a tree at every moment. -/
structure Sound (c : Cascade) (o : ResolveOptions) (d : Document) (p : StylePass) : Prop where
  /-- Only nodes of the tree are pending. -/
  pending_under : ∀ q ∈ p.pending, d.Under root q.1
  /-- Only elements of the tree have a style. -/
  styled_under : ∀ e ∈ p.styles, d.isElement e = true ∧ d.Under root e
  /-- With a pending node comes the nearest element above it. -/
  nearest : ∀ q ∈ p.pending, Nearest d q.1 q.2
  /-- The element that comes with a pending node has a style. -/
  above_styled : ∀ q ∈ p.pending, ∀ a ∈ q.2, a ∈ p.styles
  /-- The pending nodes have nothing below them in common. -/
  apart : p.pending.Pairwise fun q r => ∀ x, d.Under q.1 x → ¬ d.Under r.1 x
  /-- Nothing below a pending node has a style. -/
  fresh : ∀ q ∈ p.pending, ∀ x, d.Under q.1 x → x ∉ p.styles
  /-- An element without a style is below a pending node. -/
  covered : ∀ e, d.isElement e = true → d.Under root e →
    e ∈ p.styles ∨ ∃ q ∈ p.pending, d.Under q.1 e
  resolved : ∀ e ∈ p.styles, c.Resolved o d p.styles e

/-! ### The nearest element -/

theorem Nearest.not_isElement {id a : Nat} (h : Nearest d id none) (ha : d.Ancestor a id) :
    d.isElement a = false := by
  by_contra hel
  obtain ⟨b, hb⟩ := Leads.exists_first ha (Bool.not_eq_false _ ▸ hel)
  cases (h b).2 hb

theorem nearest_root (h : d.IsTree) : Nearest d root none := by
  intro a
  exact iff_of_false nofun fun ha => not_leads_of_none h.root_free ha.leads

theorem nearest_of_isElement {id b : Nat} (hb : d.parent? b = some id)
    (hel : d.isElement id = true) : Nearest d b (some id) := by
  intro a
  rw [firstAlong_iff, hb]
  simp [hel]

/-- What is nearest above a node that is no element is nearest above its children. -/
theorem Nearest.child {id b : Nat} {above : Option Nat} (h : Nearest d id above)
    (hb : d.parent? b = some id) (hel : d.isElement id = false) : Nearest d b above := by
  intro a
  rw [h a, firstAlong_iff (a := b), hb]
  simp [hel]

/-! ### A step -/

variable {m m' : Std.HashMap Nat Style} {id : Nat} {above above' : Option Nat}
  {rest : List (Nat × Option Nat)}

theorem mem_push_pending {p : StylePass} {children : List Nat} {q : Nat × Option Nat} :
    q ∈ (p.push children above).pending ↔ (∃ b ∈ children, (b, above) = q) ∨ q ∈ p.pending := by
  simp [push, List.mem_append, List.mem_map]

/-- After a node got the style it gets, if any, its children can take its place. -/
theorem Sound.push (ht : d.IsTree) (h : Sound c o d ⟨m, (id, above) :: rest⟩)
    (hmem : ∀ x, x ∈ m' ↔ x ∈ m ∨ x = id ∧ d.isElement id = true)
    (hnear : ∀ b ∈ d.children id, Nearest d b above') (habove : ∀ a ∈ above', a ∈ m')
    (hres : ∀ e ∈ m', c.Resolved o d m' e) :
    Sound c o d (StylePass.push ⟨m', rest⟩ (d.children id) above') where
  pending_under q hq := by
    rcases mem_push_pending.1 hq with ⟨b, hb, rfl⟩ | hq
    · exact (h.pending_under _ List.mem_cons_self).trans (under_of_mem_children hb)
    · exact h.pending_under q (List.mem_cons_of_mem _ hq)
  styled_under e he := by
    rcases (hmem e).1 he with he | ⟨rfl, hel⟩
    · exact h.styled_under e he
    · exact ⟨hel, h.pending_under _ List.mem_cons_self⟩
  nearest q hq := by
    rcases mem_push_pending.1 hq with ⟨b, hb, rfl⟩ | hq
    · exact hnear b hb
    · exact h.nearest q (List.mem_cons_of_mem _ hq)
  above_styled q hq a ha := by
    rcases mem_push_pending.1 hq with ⟨b, hb, rfl⟩ | hq
    · exact habove a ha
    · exact (hmem a).2 (.inl (h.above_styled q (List.mem_cons_of_mem _ hq) a ha))
  apart := by
    obtain ⟨hid, hrest⟩ := List.pairwise_cons.1 h.apart
    refine List.pairwise_append.2 ⟨?_, hrest, ?_⟩
    · refine List.pairwise_map.2 ((ht.nodup id).imp_of_mem ?_)
      intro b b' hb hb' hne x
      exact ht.not_under_sibling hb hb' hne
    · intro q hq r hr x hx
      obtain ⟨b, hb, rfl⟩ := List.mem_map.1 hq
      exact hid r hr x ((under_of_mem_children hb).trans hx)
  fresh q hq x hx hx' := by
    rcases mem_push_pending.1 hq with ⟨b, hb, rfl⟩ | hrest
    · rcases (hmem x).1 hx' with hx' | ⟨rfl, -⟩
      · exact h.fresh _ List.mem_cons_self x ((under_of_mem_children hb).trans hx) hx'
      · exact ht.not_under_of_mem_children hb hx
    · rcases (hmem x).1 hx' with hx' | ⟨rfl, -⟩
      · exact h.fresh q (List.mem_cons_of_mem _ hrest) x hx hx'
      · exact (List.pairwise_cons.1 h.apart).1 q hrest x .refl hx
  covered e hel he := by
    rcases h.covered e hel he with hm | ⟨q, hq, hqe⟩
    · exact .inl ((hmem e).2 (.inl hm))
    · rcases List.mem_cons.1 hq with rfl | hq
      · rcases under_iff.1 hqe with rfl | ⟨b, hb, hbe⟩
        · exact .inl ((hmem e).2 (.inr ⟨rfl, hel⟩))
        · exact .inr ⟨_, mem_push_pending.2 (.inl ⟨b, hb, rfl⟩), hbe⟩
      · exact .inr ⟨q, mem_push_pending.2 (.inr hq), hqe⟩
  resolved := hres

/-- A style that is added for another element leaves those resolved that are. -/
theorem resolved_insert {s : Style} {e : Nat} (hid : id ∉ m) (h : c.Resolved o d m e) :
    c.Resolved o d (m.insert id s) e := by
  have hkeep : ∀ {x : Nat} {t : Style}, m[x]? = some t → (m.insert id s)[x]? = some t := by
    intro x t hx
    rw [Std.HashMap.getElem?_insert, if_neg, hx]
    intro heq
    obtain rfl := beq_iff_eq.1 heq
    rw [Std.HashMap.getElem?_eq_none hid] at hx
    cases hx
  rcases h with ⟨a, t, ha, hat, het⟩ | ⟨hnone, het⟩
  · exact .inl ⟨a, t, ha, hkeep hat, hkeep het⟩
  · exact .inr ⟨hnone, hkeep het⟩

theorem resolved_insert_self (hid : id ∉ m) (hnear : Nearest d id above)
    (habove : ∀ a ∈ above, a ∈ m) :
    c.Resolved o d
      (m.insert id (c.resolve o d ((above.bind fun a => m[a]?).getD Style.initial) id)) id := by
  cases above with
  | none => exact .inr ⟨fun a => hnear.not_isElement, Std.HashMap.getElem?_insert_self⟩
  | some a =>
    have ha : a ∈ m := habove a rfl
    have hne : (id == a) = false := beq_false_of_ne fun heq => hid (heq ▸ ha)
    have hget : m[a]? = some m[a] := Std.HashMap.getElem?_eq_some_getElem ha
    refine .inl ⟨a, m[a], (hnear a).1 rfl, ?_, ?_⟩
    · rw [Std.HashMap.getElem?_insert, hne]
      exact hget
    · rw [Std.HashMap.getElem?_insert_self, Option.bind_some, hget]
      rfl

/-- **A step.**  A pass stays sound when a node is visited. -/
theorem Sound.visit (ht : d.IsTree) (h : Sound c o d ⟨m, (id, above) :: rest⟩) :
    Sound c o d (StylePass.visit ⟨m, rest⟩ c o d id above) := by
  have hid : id ∉ m := h.fresh _ List.mem_cons_self id .refl
  have hnear : Nearest d id above := h.nearest _ List.mem_cons_self
  have habove : ∀ a ∈ above, a ∈ m := h.above_styled _ List.mem_cons_self
  have hparent : ∀ b ∈ d.children id, d.parent? b = some id := fun b =>
    (ht.mem_children_iff id b).1
  unfold StylePass.visit
  split
  · next hel =>
    refine h.push ht ?_ (fun b hb => nearest_of_isElement (hparent b hb) hel) ?_ ?_
    · intro x
      rw [Std.HashMap.mem_insert, beq_iff_eq, or_comm, eq_comm, and_iff_left hel]
    · rintro a ⟨⟩
      exact Std.HashMap.mem_insert_self
    · intro e he
      rcases Std.HashMap.mem_insert.1 he with heq | he
      · obtain rfl := beq_iff_eq.1 heq
        exact resolved_insert_self hid hnear habove
      · exact resolved_insert hid (h.resolved e he)
  · next hel =>
    have hel := Bool.eq_false_iff.2 hel
    refine h.push ht ?_ (fun b hb => hnear.child (hparent b hb) hel) habove h.resolved
    intro x
    simp [hel]

/-! ### A run -/

open Classical in
noncomputable def left (d : Document) (p : StylePass) : Finset Nat :=
  (Finset.range d.size).filter fun x => ∃ q ∈ p.pending, d.Under q.1 x

theorem mem_left {p : StylePass} {x : Nat} :
    x ∈ left d p ↔ x < d.size ∧ ∃ q ∈ p.pending, d.Under q.1 x := by
  simp [left]

theorem exists_pending_visit {x : Nat} :
    (∃ q ∈ (StylePass.visit ⟨m, rest⟩ c o d id above).pending, d.Under q.1 x) ↔
      (∃ b ∈ d.children id, d.Under b x) ∨ ∃ q ∈ rest, d.Under q.1 x := by
  unfold StylePass.visit
  split <;> simp [StylePass.push, or_and_right, exists_or]

theorem Sound.left_visit_ssubset (ht : d.IsTree) (h : Sound c o d ⟨m, (id, above) :: rest⟩) :
    left d (StylePass.visit ⟨m, rest⟩ c o d id above) ⊂ left d ⟨m, (id, above) :: rest⟩ := by
  refine Finset.ssubset_iff_subset_ne.2 ⟨?_, ?_⟩
  · intro x hx
    obtain ⟨hlt, hx⟩ := mem_left.1 hx
    refine mem_left.2 ⟨hlt, ?_⟩
    rcases exists_pending_visit.1 hx with ⟨b, hb, hbx⟩ | ⟨q, hq, hqx⟩
    · exact ⟨_, List.mem_cons_self, (under_of_mem_children hb).trans hbx⟩
    · exact ⟨q, List.mem_cons_of_mem _ hq, hqx⟩
  · -- the node itself is not below its children, nor below another pending node
    intro heq
    have hid : id ∈ left d ⟨m, (id, above) :: rest⟩ :=
      mem_left.2 ⟨ht.lt_size_of_under_root (h.pending_under _ List.mem_cons_self),
        _, List.mem_cons_self, .refl⟩
    rw [← heq] at hid
    rcases exists_pending_visit.1 (mem_left.1 hid).2 with ⟨b, hb, hbid⟩ | ⟨q, hq, hqid⟩
    · exact ht.not_under_of_mem_children hb hbid
    · exact (List.pairwise_cons.1 h.apart).1 q hq id .refl hqid

/-- The pass comes to an end after some steps, with the given styles. -/
inductive Ends (c : Cascade) (o : ResolveOptions) (d : Document) :
    StylePass → Std.HashMap Nat Style → Prop
  | done {p : StylePass} {styles : Std.HashMap Nat Style} (hn : p.next c o d = .inr styles) :
      Ends c o d p styles
  | step {p q : StylePass} {styles : Std.HashMap Nat Style} (hn : p.next c o d = .inl q)
      (h : Ends c o d q styles) : Ends c o d p styles

theorem Ends.run_eq {p : StylePass} {styles : Std.HashMap Nat Style}
    (h : Ends c o d p styles) : p.run c o d = styles := by
  induction h with
  | done hn => rw [StylePass.run_eq, hn]
  | step hn _ ih =>
    rw [StylePass.run_eq, hn]
    exact ih

/-- **A run.**  A sound pass over a tree comes to an end, with nothing pending. -/
theorem Sound.ends (ht : d.IsTree) {p : StylePass} (h : Sound c o d p) :
    ∃ styles, Ends c o d p styles ∧ Sound c o d ⟨styles, []⟩ := by
  induction hn : (left d p).card using Nat.strong_induction_on generalizing p with
  | _ n ih =>
    obtain ⟨m, pending⟩ := p
    cases pending with
    | nil => exact ⟨m, .done rfl, h⟩
    | cons q rest =>
      obtain ⟨styles, hends, hsound⟩ :=
        ih _ (hn ▸ Finset.card_lt_card (h.left_visit_ssubset ht)) (h.visit ht) rfl
      exact ⟨styles, .step rfl hends, hsound⟩

theorem sound_start (ht : d.IsTree) : Sound c o d start where
  pending_under q hq := by
    obtain rfl := List.mem_singleton.1 hq
    exact .refl
  styled_under e he := absurd he Std.HashMap.not_mem_empty
  nearest q hq := by
    obtain rfl := List.mem_singleton.1 hq
    exact nearest_root ht
  above_styled q hq := by
    obtain rfl := List.mem_singleton.1 hq
    exact nofun
  apart := List.pairwise_singleton ..
  fresh q hq x hx := Std.HashMap.not_mem_empty
  covered e hel he := .inr ⟨_, List.mem_cons_self, he⟩
  resolved e he := absurd he Std.HashMap.not_mem_empty

end StylePass

/-- **The styles of a whole document are those of its elements.**  In a document that is built as a
tree, the pass over the nodes comes to an end.  Then the elements below the document itself have a
style and nothing else has one, and the style of each is resolved against that of the nearest
element above it. -/
theorem Cascade.styles_resolved (h : d.Built) (c : Cascade) (o : ResolveOptions) :
    StylePass.Ends c o d .start (c.styles o d) ∧
      (∀ e, e ∈ c.styles o d ↔ d.isElement e = true ∧ d.Under root e) ∧
      ∀ e ∈ c.styles o d, c.Resolved o d (c.styles o d) e := by
  obtain ⟨styles, hends, hsound⟩ := (StylePass.sound_start h.isTree).ends h.isTree
  obtain rfl : c.styles o d = styles := hends.run_eq
  refine ⟨hends, fun e => ⟨hsound.styled_under e, ?_⟩, hsound.resolved⟩
  rintro ⟨hel, he⟩
  exact (hsound.covered e hel he).resolve_right nofun

/-- An element below the document, with a text node in it that has an element of its own.  One more
element belongs to no tree. -/
def Document.nested : Document :=
  ((((((empty.alloc (.element "p" [])).alloc (.text "a")).alloc (.element "em" [])).alloc
    (.element "b" [])).append 0 1).append 1 2).append 2 3

theorem Document.built_nested : nested.Built := by
  have hmade := (((Built.empty.alloc (.element "p" [])).alloc (.text "a")).alloc
    (.element "em" [])).alloc (.element "b" [])
  refine .append_leaf (.append_leaf (.append_leaf hmade ?_ ?_ ?_ ?_ ?_) ?_ ?_ ?_ ?_ ?_)
    ?_ ?_ ?_ ?_ ?_
  all_goals decide

theorem Document.under_nested : nested.Under root 3 := by
  have hp : nested.Under root 1 := under_of_mem_children (by decide)
  have htext : nested.Under 1 2 := under_of_mem_children (by decide)
  exact (hp.trans htext).trans (under_of_mem_children (by decide))

/-- With `p { color: red }`, the paragraph and the element below its text have a style. -/
theorem Cascade.styles_resolved_nested :
    let red : Declaration := ⟨"color", [⟨.ident "red", none, none⟩], false⟩
    let c : Cascade := { author := some ⟨[.ruleset ⟨⟨[⟨[{ name := some "p" }]⟩]⟩, [red]⟩]⟩ }
    nested.Built ∧ StylePass.Ends c {} nested .start (c.styles {} nested) ∧
      (1 ∈ c.styles {} nested ∧ 2 ∉ c.styles {} nested ∧ 3 ∈ c.styles {} nested ∧
        4 ∉ c.styles {} nested) ∧
      ∀ e ∈ c.styles {} nested, c.Resolved {} nested (c.styles {} nested) e := by
  intro red c
  obtain ⟨hends, hmem, hresolved⟩ := styles_resolved built_nested c {}
  have hp : nested.Under root 1 := under_of_mem_children (by decide)
  have hb : ¬ nested.Under root 4 := by
    rw [built_nested.isTree.under_iff_ancestor]
    exact not_or.2 ⟨by decide, not_leads_of_none rfl⟩
  refine ⟨built_nested, hends, ⟨(hmem 1).2 ⟨by decide, hp⟩, ?_, (hmem 3).2
    ⟨by decide, under_nested⟩, ?_⟩,
    hresolved⟩
  · intro htext
    exact absurd ((hmem 2).1 htext).1 (by decide)
  · intro hfree
    exact hb ((hmem 4).1 hfree).2

end Css2
