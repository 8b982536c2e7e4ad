import Css2.Document
import Mathlib.Logic.Relation
import Mathlib.Order.Interval.Set.Infinite
import Mathlib.Order.WellFoundedSet

/-!
# Walks

A search follows links until a node passes its test, and it has no bound of its own.  What it finds
is said by a relation: the first node that passes, or nothing where the links end before
(`Document.search_eq_some_iff`).  Where links never come back to a node they end, because only so
many nodes have one (`Document.wellFounded_of_acyclic`), and then every search has a result
(`Document.exists_search`).

A document may be anything.  A node that is appended to its parent a second time is the sibling
before itself, and no search among its siblings ends.  In a well-formed document neither parents nor
siblings go round in a circle.
-/

namespace Css2

namespace Document

/-- `b` is the first node with the property `p` that `next` leads to from `a`. -/
inductive FirstAlong (next : Nat → Option Nat) (p : Nat → Bool) : Nat → Nat → Prop
  | here {a b : Nat} (hn : next a = some b) (hp : p b = true) : FirstAlong next p a b
  | further {a b c : Nat} (hn : next a = some b) (hp : p b = false)
      (h : FirstAlong next p b c) : FirstAlong next p a c

/-- `b` is a node that `next` leads to from `a` in one step or more. -/
def Leads (next : Nat → Option Nat) : Nat → Nat → Prop :=
  Relation.TransGen fun a b => next a = some b

/-- `a` is an ancestor of the node `id`: its parent, the parent of that, and so on. -/
def Ancestor (d : Document) (a id : Nat) : Prop :=
  Leads d.parent? id a

/-- The links of a document come to an end: no node is its own ancestor, and none is a sibling
before itself. -/
structure WellFormed (d : Document) : Prop where
  parents : ∀ id, ¬ d.Ancestor id id
  siblings : ∀ id, ¬ Leads d.previous? id id

section

variable {next : Nat → Option Nat} {p : Nat → Bool}

/-! ### The first node that passes -/

theorem firstAlong_iff {a c : Nat} : FirstAlong next p a c ↔
    ∃ b, next a = some b ∧ (p b = true ∧ b = c ∨ p b = false ∧ FirstAlong next p b c) := by
  constructor
  · rintro (⟨hn, hp⟩ | ⟨hn, hp, h⟩)
    · exact ⟨c, hn, .inl ⟨hp, rfl⟩⟩
    · exact ⟨_, hn, .inr ⟨hp, h⟩⟩
  · rintro ⟨b, hn, ⟨hp, rfl⟩ | ⟨hp, h⟩⟩
    · exact .here hn hp
    · exact .further hn hp h

theorem FirstAlong.passes {a b : Nat} (h : FirstAlong next p a b) : p b = true := by
  induction h with
  | here _ hp => exact hp
  | further _ _ _ ih => exact ih

theorem FirstAlong.leads {a b : Nat} (h : FirstAlong next p a b) : Leads next a b := by
  induction h with
  | here hn _ => exact .single hn
  | further hn _ _ ih => exact .head hn ih

theorem not_firstAlong {a b : Nat} (h : ∀ b, Leads next a b → p b = false) :
    ¬ FirstAlong next p a b := by
  intro hb
  have hp := hb.passes
  rw [h b hb.leads] at hp
  cases hp

theorem FirstAlong.unique {a b c : Nat} (hb : FirstAlong next p a b)
    (hc : FirstAlong next p a c) : b = c := by
  induction hb with
  | here hn hp =>
    obtain ⟨m, hm, ⟨-, rfl⟩ | ⟨hnot, -⟩⟩ := firstAlong_iff.1 hc
    · exact Option.some_inj.1 (hn.symm.trans hm)
    · obtain rfl := Option.some_inj.1 (hn.symm.trans hm)
      rw [hp] at hnot
      cases hnot
  | further hn hp _ ih =>
    obtain ⟨m, hm, ⟨hyes, -⟩ | ⟨-, hc⟩⟩ := firstAlong_iff.1 hc
    · obtain rfl := Option.some_inj.1 (hn.symm.trans hm)
      rw [hp] at hyes
      cases hyes
    · obtain rfl := Option.some_inj.1 (hn.symm.trans hm)
      exact ih hc

theorem Leads.exists_first {a c : Nat} (h : Leads next a c) (hc : p c = true) :
    ∃ b, FirstAlong next p a b := by
  induction h using Relation.TransGen.head_induction_on with
  | single hn => exact ⟨c, .here hn hc⟩
  | @head a m hn hm ih =>
    cases hp : p m with
    | true => exact ⟨m, .here hn hp⟩
    | false =>
      obtain ⟨b, hb⟩ := ih
      exact ⟨b, .further hn hp hb⟩

end

/-! ### Where links lead -/

section

variable {next : Links} {a b x : Nat}

theorem not_leads_of_none (hn : next a = none) : ¬ Leads next a x := by
  intro h
  obtain ⟨b, hb, -⟩ := Relation.TransGen.head'_iff.1 h
  rw [hn] at hb
  cases hb

theorem leads_iff_of_some (hn : next a = some b) : Leads next a x ↔ x = b ∨ Leads next b x := by
  unfold Leads
  rw [Relation.TransGen.head'_iff]
  constructor
  · rintro ⟨c, hc, h⟩
    obtain rfl := Option.some_inj.1 (hn.symm.trans hc)
    exact Relation.reflTransGen_iff_eq_or_transGen.1 h
  · intro h
    exact ⟨b, hn, Relation.reflTransGen_iff_eq_or_transGen.2 h⟩

theorem Leads.mem {s : Set Nat} (hmem : ∀ i ∈ s, ∀ j ∈ next i, j ∈ s) (ha : a ∈ s)
    (h : Leads next a b) : b ∈ s := by
  induction h with
  | single hn => exact hmem _ ha _ hn
  | tail _ hn ih => exact hmem _ ih _ hn

theorem Leads.lt (hlt : ∀ x y, next x = some y → y < x) (h : Leads next a b) : b < a := by
  induction h with
  | single hn => exact hlt _ _ hn
  | tail _ hn ih => exact (hlt _ _ hn).trans ih

/-- A walk that ends meets the nodes that the links lead to, and no others. -/
theorem mem_walk_iff {xs : List Nat} (h : next.walk a = some xs) : x ∈ xs ↔ Leads next a x := by
  refine Links.walk.partial_correctness next (fun a xs => x ∈ xs ↔ Leads next a x) ?_ a xs h
  intro walk ih a xs h
  cases hn : next a with
  | none =>
    rw [hn] at h
    cases h
    exact iff_of_false List.not_mem_nil (not_leads_of_none hn)
  | some b =>
    rw [hn] at h
    obtain ⟨ys, hys, h⟩ := Option.bind_eq_some_iff.1 h
    cases h
    rw [List.mem_cons, ih b ys hys, leads_iff_of_some hn]

end

/-! ### What a search finds -/

/-- A search from `a` ends with `r`: with the first node that passes the test, or with nothing where
the links end before. -/
inductive Found (next : Nat → Option Nat) (p : Nat → Option Bool) : Nat → Option Nat → Prop
  | nowhere {a : Nat} (hn : next a = none) : Found next p a none
  | here {a b : Nat} (hn : next a = some b) (hp : p b = some true) : Found next p a (some b)
  | further {a b : Nat} {r : Option Nat} (hn : next a = some b) (hp : p b = some false)
      (h : Found next p b r) : Found next p a r

section

variable {next next' : Links} {p p' : Nat → Option Bool} {a b m : Nat} {r : Option Nat}

theorem search_of_none (hn : next a = none) : next.search p a = some none := by
  rw [Links.search, hn]

theorem search_of_some (hn : next a = some b) :
    next.search p a = (p b).bind fun t => if t then some (some b) else next.search p b := by
  rw [Links.search, hn]
  rfl

/-- **What a search finds.** -/
theorem search_eq_some_iff : next.search p a = some r ↔ Found next p a r := by
  constructor
  · refine Links.search.partial_correctness next p (Found next p) ?_ a r
    intro search ih a r h
    cases hn : next a with
    | none =>
      rw [hn] at h
      cases h
      exact .nowhere hn
    | some b =>
      rw [hn] at h
      obtain ⟨t, hp, h⟩ := Option.bind_eq_some_iff.1 h
      cases t with
      | true =>
        cases h
        exact .here hn hp
      | false => exact .further hn hp (ih b r h)
  · intro h
    induction h with
    | nowhere hn => exact search_of_none hn
    | here hn hp => rw [search_of_some hn, hp]; rfl
    | further hn hp _ ih => rw [search_of_some hn, hp]; exact ih

theorem search_eq_none_of_loop (hn : next a = some a) (hp : p a = some false) :
    next.search p a = none := by
  refine Option.eq_none_iff_forall_ne_some.2 fun r hr => ?_
  replace hr : Found next p a r := search_eq_some_iff.1 hr
  generalize hx : a = x at hr
  induction hr with
  | nowhere hnot =>
    rw [← hx, hn] at hnot
    cases hnot
  | here hb hyes =>
    rw [← hx, hn] at hb
    cases hb
    rw [hp] at hyes
    cases hyes
  | further hb _ _ ih =>
    rw [← hx, hn] at hb
    exact ih (Option.some_inj.1 hb)

theorem Found.leads (h : Found next p a (some b)) : Leads next a b ∧ p b = some true := by
  generalize hr : some b = r at h
  induction h with
  | nowhere => cases hr
  | here hn hp =>
    cases hr
    exact ⟨.single hn, hp⟩
  | further hn _ _ ih => exact ⟨.head hn (ih hr).1, (ih hr).2⟩

/-- A search that finds nothing has refused every node that the links lead to. -/
theorem Found.refuses (h : Found next p a none) (hm : Leads next a m) : p m = some false := by
  generalize hr : none = r at h
  induction h with
  | nowhere hn => exact absurd hm (not_leads_of_none hn)
  | here => cases hr
  | further hn hp _ ih =>
    rcases (leads_iff_of_some hn).1 hm with rfl | hm
    · exact hp
    · exact ih hm hr

theorem Found.nearest (h : Found next p a (some b)) (hm : Leads next a m) (hp : p m = some true) :
    b = m ∨ Leads next b m := by
  generalize hr : some b = r at h
  induction h with
  | nowhere => cases hr
  | here hn _ =>
    cases hr
    exact ((leads_iff_of_some hn).1 hm).imp_left Eq.symm
  | further hn hnot _ ih =>
    rcases (leads_iff_of_some hn).1 hm with rfl | hm
    · rw [hp] at hnot
      cases hnot
    · exact ih hm hr

/-- Where every test has a result, a search finds the first node that passes. -/
theorem found_some_iff {q : Nat → Bool} :
    Found next (fun n => some (q n)) a (some b) ↔ FirstAlong next q a b := by
  constructor
  · intro h
    generalize hr : some b = r at h
    induction h with
    | nowhere => cases hr
    | here hn hp =>
      cases hr
      exact .here hn (Option.some_inj.1 hp)
    | further hn hp _ ih => exact .further hn (Option.some_inj.1 hp) (ih hr)
  · intro h
    induction h with
    | here hn hp => exact .here hn (congrArg some hp)
    | further hn hp _ ih => exact .further hn (congrArg some hp) ih

/-! ### Links that agree -/

theorem Found.congr {s : Set Nat} (hnext : ∀ i ∈ s, next' i = next i)
    (hmem : ∀ i ∈ s, ∀ j ∈ next i, j ∈ s) (hp : ∀ i ∈ s, p' i = p i) (ha : a ∈ s)
    (h : Found next p a r) : Found next' p' a r := by
  induction h with
  | nowhere hn => exact .nowhere ((hnext _ ha).trans hn)
  | here hn hpass => exact .here ((hnext _ ha).trans hn) ((hp _ (hmem _ ha _ hn)).trans hpass)
  | further hn hnot _ ih =>
    have hb := hmem _ ha _ hn
    exact .further ((hnext _ ha).trans hn) ((hp _ hb).trans hnot) (ih hb)

theorem search_congr {s : Set Nat} (hnext : ∀ i ∈ s, next' i = next i)
    (hmem : ∀ i ∈ s, ∀ j ∈ next i, j ∈ s) (hp : ∀ i ∈ s, p' i = p i) (ha : a ∈ s) :
    next'.search p' a = next.search p a := by
  have hmem' : ∀ i ∈ s, ∀ j ∈ next' i, j ∈ s := by
    intro i hi j hj
    rw [hnext i hi] at hj
    exact hmem i hi j hj
  ext r
  rw [search_eq_some_iff, search_eq_some_iff]
  exact ⟨.congr (fun i hi => (hnext i hi).symm) hmem' (fun i hi => (hp i hi).symm) ha,
    .congr hnext hmem hp ha⟩

/-! ### Links that end -/

/-- **Links that never come back to a node end**, if only so many nodes have one. -/
theorem wellFounded_of_acyclic {rel : Nat → Nat → Prop} {n : Nat} (hlt : ∀ x y, rel x y → x < n)
    (hacyclic : ∀ x, ¬ Relation.TransGen rel x x) : WellFounded fun y x => rel x y := by
  have hout (x : Nat) (hx : ¬ x < n) : Acc (fun y x => rel x y) x :=
    ⟨x, fun y hy => absurd (hlt x y hy) hx⟩
  have : IsStrictOrder Nat fun y x => Relation.TransGen rel x y :=
    { irrefl := hacyclic, trans := fun _ _ _ hba hcb => hcb.trans hba }
  have hin : (Set.Iio n).WellFoundedOn fun y x => Relation.TransGen rel x y :=
    (Set.finite_Iio n).wellFoundedOn
  refine ⟨fun a => ?_⟩
  by_cases ha : a < n
  · refine hin.induction ha fun x _ ih => ⟨x, fun y hy => ?_⟩
    by_cases hyn : y < n
    · exact ih y hyn (.single hy)
    · exact hout y hyn
  · exact hout a ha

theorem exists_search (hends : WellFounded fun y x => next x = some y)
    (hp : ∀ x, ∃ t, p x = some t) (a : Nat) : ∃ r, next.search p a = some r := by
  induction a using hends.induction with
  | _ a ih =>
    cases hn : next a with
    | none => exact ⟨none, search_of_none hn⟩
    | some b =>
      obtain ⟨t, ht⟩ := hp b
      rw [search_of_some hn, ht]
      cases t with
      | true => exact ⟨some b, rfl⟩
      | false => exact ih b hn

theorem exists_walk (hends : WellFounded fun y x => next x = some y) (a : Nat) :
    ∃ xs, next.walk a = some xs := by
  induction a using hends.induction with
  | _ a ih =>
    cases hn : next a with
    | none => exact ⟨[], by rw [Links.walk, hn]⟩
    | some b =>
      obtain ⟨xs, hxs⟩ := ih b hn
      refine ⟨b :: xs, ?_⟩
      rw [Links.walk, hn]
      exact Option.bind_eq_some_iff.2 ⟨xs, hxs, rfl⟩

end

/-! ### Parents and siblings -/

variable {d : Document}

theorem lt_size_of_node? {id : Nat} {n : Node} (h : d.node? id = some n) : id < d.size :=
  (List.getElem?_eq_some_iff.1 h).1

theorem lt_size_of_parent? (a b : Nat) (h : d.parent? a = some b) : a < d.size := by
  obtain ⟨n, hn, -⟩ := Option.bind_eq_some_iff.1 h
  exact lt_size_of_node? hn

theorem lt_size_of_ancestor {a id : Nat} (h : d.Ancestor a id) : id < d.size := by
  obtain ⟨p, hp, -⟩ := Relation.TransGen.head'_iff.1 h
  exact lt_size_of_parent? id p hp

theorem lt_size_of_mem_children (a b : Nat) (h : b ∈ d.children a) : a < d.size := by
  unfold children at h
  cases ha : d.node? a with
  | none =>
    rw [ha] at h
    cases h
  | some n => exact lt_size_of_node? ha

theorem lt_size_of_previous? (a b : Nat) (h : d.previous? a = some b) : a < d.size := by
  obtain ⟨n, hn, -⟩ := Option.bind_eq_some_iff.1 h
  exact lt_size_of_node? hn

theorem WellFormed.wellFounded_parent? (h : d.WellFormed) :
    WellFounded fun y x => d.parent? x = some y :=
  wellFounded_of_acyclic lt_size_of_parent? h.parents

theorem WellFormed.wellFounded_previous? (h : d.WellFormed) :
    WellFounded fun y x => d.previous? x = some y :=
  wellFounded_of_acyclic lt_size_of_previous? h.siblings

theorem WellFormed.exists_previousElement? (h : d.WellFormed) (id : Nat) :
    ∃ previous, d.previousElement? id = some previous :=
  exists_search h.wellFounded_previous? (fun n => ⟨d.isElement n, rfl⟩) id

theorem previousElement?_eq_some_iff {a id : Nat} :
    d.previousElement? id = some (some a) ↔ FirstAlong d.previous? d.isElement id a :=
  search_eq_some_iff.trans found_some_iff

end Document

end Css2
