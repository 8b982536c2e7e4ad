import Css2.Proofs.Document.Siblings
import Css2.Proofs.Selector.Search
import Mathlib.Data.List.Chain

/-!
# What a match means

A chain is met by nodes, one for each of its links, that stand to each other as the combinators say
(`Chain.Witness`).  The search goes from right to left and never takes a choice back: for an
ancestor it settles on the nearest one that passes.  Whatever it finds is a witness.  It finds one
if there is any, provided that once it has a choice it keeps it, which is to say that no parent and
no neighbour is asked for before an ancestor in the chain: then nearer nodes can only have more
ancestors, and settling on the nearest one loses nothing (`Chain.matches_witness`).

A search that ends never misses a witness, whatever the document.  That it does end is where the
document has to be well-formed.
-/

namespace Css2

open Document

/-! ### Witnesses -/

/-- Nodes for the links of a chain, of which the last one is the node `id`: each of them meets its
link, and neighbours stand to each other as the combinator between them says. -/
structure Chain.Witness (o : MatchOptions) (d : Document) (c : Chain) (id : Nat)
    (ps : List (Link × Nat)) : Prop where
  links : ps.map Prod.fst = c.links
  subject : ps.getLast?.map Prod.snd = some id
  meets : ∀ p ∈ ps, p.1.answer o d p.2 = some true
  joined : ps.IsChain fun p q => q.1.combinator.Relates d p.2 q.2

/-- Once a combinator of the chain leaves no choice, neither do those to the right of it.  The
first link has nothing to be joined to. -/
def Chain.NearLast (c : Chain) : Prop :=
  (c.links.tail.map Link.combinator).Pairwise fun a b => a.isNear = true → b.isNear = true

instance (c : Chain) : Decidable c.NearLast :=
  inferInstanceAs (Decidable (List.Pairwise _ _))

/-! ### From right to left -/

section

variable {o : MatchOptions} {d : Document}

/-- There are nodes for the links before the node `n`, which come from right to left; `c` joins the
last of them to it. -/
def Placed (o : MatchOptions) (d : Document) : List Link → Combinator → Nat → Prop
  | [], _, _ => True
  | l :: ls, c, n =>
    ∃ m, c.Relates d m n ∧ l.answer o d m = some true ∧ Placed o d ls l.combinator m

/-- The nodes for the links before the node of `l`. -/
theorem placed_iff {l : Link} {ls : List Link} {n : Nat} : Placed o d ls l.combinator n ↔
    ∃ ps : List (Link × Nat), ps.map Prod.fst = ls ∧ (∀ p ∈ ps, p.1.answer o d p.2 = some true) ∧
      ((l, n) :: ps).IsChain fun q p => q.1.combinator.Relates d p.2 q.2 := by
  induction ls generalizing l n with
  | nil =>
    constructor
    · intro _
      exact ⟨[], rfl, by simp, .singleton _⟩
    · intro _
      trivial
  | cons k ls ih =>
    constructor
    · rintro ⟨m, hrel, hm, hrest⟩
      obtain ⟨ps, rfl, hps, hchain⟩ := ih.1 hrest
      refine ⟨(k, m) :: ps, rfl, ?_, .cons_cons hrel hchain⟩
      exact List.forall_mem_cons.2 ⟨hm, hps⟩
    · rintro ⟨ps, hlinks, hps, hchain⟩
      obtain ⟨⟨k', m⟩, ps, rfl, hk, rfl⟩ := List.map_eq_cons_iff.1 hlinks
      obtain rfl : k' = k := hk
      obtain ⟨hm, hps⟩ := List.forall_mem_cons.1 hps
      obtain ⟨hrel, hchain⟩ := List.isChain_cons_cons.1 hchain
      exact ⟨m, hrel, hm, ih.2 ⟨ps, rfl, hps, hchain⟩⟩

theorem Chain.exists_witness_iff {c : Chain} {id : Nat} {l : Link} {ls : List Link}
    (h : c.links.reverse = l :: ls) : (∃ ps, c.Witness o d id ps) ↔
      l.answer o d id = some true ∧ Placed o d ls l.combinator id := by
  rw [placed_iff]
  constructor
  · rintro ⟨ps, hlinks, hsubject, hmeets, hjoined⟩
    rw [← hlinks, ← List.map_reverse] at h
    obtain ⟨⟨l', n⟩, qs, hps, hl, rfl⟩ := List.map_eq_cons_iff.1 h
    obtain rfl : l' = l := hl
    obtain rfl : n = id := by
      rw [List.getLast?_eq_head?_reverse, hps] at hsubject
      exact Option.some_inj.1 hsubject
    have hmem : ∀ p ∈ (l', n) :: qs, p.1.answer o d p.2 = some true := by
      intro p hp
      rw [← hps] at hp
      exact hmeets p (List.mem_reverse.1 hp)
    obtain ⟨hl, hqs⟩ := List.forall_mem_cons.1 hmem
    rw [← List.isChain_reverse, hps] at hjoined
    exact ⟨hl, qs, rfl, hqs, hjoined⟩
  · rintro ⟨hl, ps, rfl, hps, hchain⟩
    refine ⟨((l, id) :: ps).reverse, ?_, ?_, ?_, ?_⟩
    · rw [List.map_reverse, List.map_cons, ← h, List.reverse_reverse]
    · simp
    · intro p hp
      rcases List.mem_cons.1 (List.mem_reverse.1 hp) with rfl | hp
      · exact hl
      · exact hps p hp
    · exact List.isChain_reverse.2 hchain

/-! ### Soundness -/

theorem Placed.of_matchLinks {ls : List Link} {c : Combinator} {n : Nat}
    (h : matchLinks o d ls c n = some true) : Placed o d ls c n := by
  induction ls generalizing c n with
  | nil => trivial
  | cons l ls ih =>
    obtain ⟨m, hfind, h⟩ := exists_find?_of_matchLinks h
    obtain ⟨hrel, hm⟩ := Combinator.find?_some hfind
    exact ⟨m, hrel, hm, ih h⟩

/-! ### Completeness -/

/-- The combinators that join the links before a node, from right to left; `c` is the one that joins
the last link to it. -/
def joints (c : Combinator) : List Link → List Combinator
  | [] => []
  | l :: ls => c :: joints l.combinator ls

theorem joints_reverse (l : Link) (ls : List Link) :
    (joints l.combinator ls).reverse = ((l :: ls).reverse.tail.map Link.combinator) := by
  induction ls generalizing l with
  | nil => rfl
  | cons k ls ih =>
    have hne : (k :: ls).reverse ≠ [] := by simp
    rw [joints, List.reverse_cons, ih, List.reverse_cons (a := l), List.tail_append_of_ne_nil hne,
      List.map_append]
    rfl

/-- Where ancestors are asked for, a node has a witness if one of its ancestors has. -/
theorem Placed.of_ancestor {ls : List Link} {c : Combinator} {m n : Nat}
    (hfar : ∀ b ∈ joints c ls, b.isNear = false) (h : Placed o d ls c m)
    (hmn : d.Ancestor m n) : Placed o d ls c n := by
  cases ls with
  | nil => trivial
  | cons l ls =>
    obtain ⟨k, hrel, hk, hrest⟩ := h
    have hc : c.isNear = false := hfar c (List.mem_cons_self ..)
    cases c with
    | first | descendant => exact ⟨k, Relation.TransGen.trans hmn hrel, hk, hrest⟩
    | child | adjacent => cases hc

/-- **The nearest ancestor is as good as any**: where only ancestors are asked for, the search does
not miss its nodes if there are any. -/
theorem Placed.matchLinks_of_far {ls : List Link} {c : Combinator} {n : Nat}
    (hfar : ∀ b ∈ joints c ls, b.isNear = false) (h : Placed o d ls c n) :
    matchLinks o d ls c n ≠ some false := by
  induction ls generalizing c n with
  | nil => exact nofun
  | cons l ls ih =>
    obtain ⟨m, hrel, hm, hrest⟩ := h
    obtain ⟨hc, hfar⟩ := List.forall_mem_cons.1 hfar
    intro hnot
    rw [matchLinks] at hnot
    obtain ⟨r, hr, hnot⟩ := Option.bind_eq_some_iff.1 hnot
    obtain ⟨b, rfl, hbm⟩ := Combinator.find?_of_far hc hrel hm hr
    refine ih hfar ?_ hnot
    rcases hbm with rfl | hbm
    · exact hrest
    · exact hrest.of_ancestor hfar hbm

/-- The search does not miss its nodes if there are any and the choices come last. -/
theorem Placed.matchLinks {ls : List Link} {c : Combinator} {n : Nat}
    (hjoints : (joints c ls).Pairwise fun b a => a.isNear = true → b.isNear = true)
    (h : Placed o d ls c n) : matchLinks o d ls c n ≠ some false := by
  induction ls generalizing c n with
  | nil => exact nofun
  | cons l ls ih =>
    obtain ⟨hfirst, hrest⟩ := List.pairwise_cons.1 hjoints
    cases hc : c.isNear with
    | false =>
      apply h.matchLinks_of_far
      intro b hb
      rcases List.mem_cons.1 hb with rfl | hb
      · exact hc
      · cases hb' : b.isNear with
        | false => rfl
        | true => exact absurd (hfirst b hb hb') (by rw [hc]; exact Bool.false_ne_true)
    | true =>
      obtain ⟨m, hrel, hm, hplaced⟩ := h
      rw [matchLinks_of_find? ls (Combinator.find?_of_near hc hrel hm)]
      exact ih hrest hplaced

end

/-! ### Chains -/

section

variable {o : MatchOptions} {d : Document} {c : Chain} {id : Nat}

/-- A chain without links selects nothing, and it has no witness. -/
theorem Chain.not_witness_of_nil (hlinks : c.links.reverse = []) :
    ¬ ∃ ps, c.Witness o d id ps := by
  rintro ⟨ps, hps, hsubject, -, -⟩
  rw [List.reverse_eq_nil_iff.1 hlinks] at hps
  obtain rfl := List.map_eq_nil_iff.1 hps
  cases hsubject

theorem Chain.exists_witness (h : c.answer o d id = some true) : ∃ ps, c.Witness o d id ps := by
  cases hlinks : c.links.reverse with
  | nil =>
    rw [Chain.answer, hlinks] at h
    cases h
  | cons l ls =>
    obtain ⟨hl, hls⟩ := (answer_eq_some_true_iff hlinks).1 h
    exact (exists_witness_iff hlinks).2 ⟨hl, .of_matchLinks hls⟩

theorem Chain.answer_of_witness (hnear : c.NearLast) (h : ∃ ps, c.Witness o d id ps) :
    c.answer o d id ≠ some false := by
  cases hlinks : c.links.reverse with
  | nil => exact absurd h (not_witness_of_nil hlinks)
  | cons l ls =>
    obtain ⟨hl, hplaced⟩ := (exists_witness_iff hlinks).1 h
    rw [answer_of_subject hlinks hl]
    refine hplaced.matchLinks ?_
    rwa [NearLast, ← List.reverse_reverse c.links, hlinks, ← joints_reverse,
      List.pairwise_reverse] at hnear

/-- In a well-formed document the answer is yes unless it is no. -/
theorem Chain.answer_eq_some_true (hd : d.WellFormed) (h : c.answer o d id ≠ some false) :
    c.answer o d id = some true := by
  obtain ⟨t, ht⟩ := c.exists_answer hd o id
  cases t with
  | true => exact ht
  | false => exact absurd ht h

end

/-- An element `a` with a `b` of the class `x` in it, in which there is another `b`, and in that a
`c`. -/
def Document.levels : Document :=
  ((((((((empty.alloc (.element "a" [])).alloc (.element "b" [("class", "x")])).alloc
    (.element "b" [])).alloc (.element "c" [])).append 0 1).append 1 2).append 2 3).append 3 4)

theorem Document.built_levels : levels.Built := by
  have hmade := (((Built.empty.alloc (.element "a" [])).alloc (.element "b" [("class", "x")])).alloc
    (.element "b" [])).alloc (.element "c" [])
  refine .append_leaf (.append_leaf (.append_leaf (.append_leaf hmade ?_ ?_ ?_ ?_ ?_)
    ?_ ?_ ?_ ?_ ?_) ?_ ?_ ?_ ?_ ?_) ?_ ?_ ?_ ?_ ?_
  all_goals decide

end Css2
