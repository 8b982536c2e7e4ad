import Css2.Proofs.Cascade.Competition
import Mathlib.Order.Bounds.Basic

/-!
# The winner of a property

Where a declaration stands is a `Place`: the origin of its sheet, and the statement, the ruleset and
the declaration counted from the beginning.  Places compare in the order of the document, and the
candidates of an element are the declarations of the matching rulesets in that order
(`Cascade.placed`).

So the winner of a property is the greatest of all declarations of that property that apply to the
element, by precedence, then by specificity, then by place, and there is a winner wherever there is
a declaration (`Cascade.winners_greatest`).
-/

namespace Css2

/-! ### Places -/

structure Place where
  origin : Origin
  /-- The position of the statement in the sheet. -/
  statement : Nat
  /-- The position of the ruleset in the statement. -/
  rule : Nat
  /-- The position of the declaration in the ruleset. -/
  index : Nat

namespace Place

/-- The sheet of the user agent comes first, then that of the user, then that of the author. -/
def path (p : Place) : ℕ ×ₗ ℕ ×ₗ ℕ ×ₗ ℕ :=
  toLex (Origin.all.idxOf p.origin, toLex (p.statement, toLex (p.rule, p.index)))

theorem idxOf_injective : Function.Injective fun o : Origin => Origin.all.idxOf o := by
  intro a b h
  cases a <;> cases b <;> first | rfl | exact absurd h (by decide)

theorem path_injective : Function.Injective path := by
  intro p q h
  have horigin := idxOf_injective (congrArg (fun c => (ofLex c).1) h)
  have hstatement : p.statement = q.statement := congrArg (fun c => (ofLex (ofLex c).2).1) h
  have hrule : p.rule = q.rule := congrArg (fun c => (ofLex (ofLex (ofLex c).2).2).1) h
  have hindex : p.index = q.index := congrArg (fun c => (ofLex (ofLex (ofLex c).2).2).2) h
  obtain ⟨_, _, _, _⟩ := p
  obtain ⟨_, _, _, _⟩ := q
  cases horigin
  cases hstatement
  cases hrule
  cases hindex
  rfl

instance : LinearOrder Place :=
  LinearOrder.lift' path path_injective

theorem lt_iff (p q : Place) : p < q ↔ Origin.all.idxOf p.origin < Origin.all.idxOf q.origin ∨
    Origin.all.idxOf p.origin = Origin.all.idxOf q.origin ∧ (p.statement < q.statement ∨
      p.statement = q.statement ∧ (p.rule < q.rule ∨ p.rule = q.rule ∧ p.index < q.index)) := by
  have hlt : p < q ↔ path p < path q := Iff.rfl
  rw [hlt]
  simp only [path, Prod.Lex.toLex_lt_toLex]

end Place

/-! ### Declarations that apply -/

/-- A declaration with its ruleset and the place where it stands. -/
structure Occurrence where
  place : Place
  rule : Ruleset
  declaration : Declaration

/-- A ruleset that applies has the declaration at that place. -/
def Cascade.Has (c : Cascade) (o : ResolveOptions) (x : Occurrence) : Prop :=
  ∃ sheet s, c.sheet? x.place.origin = some sheet ∧ sheet.statements[x.place.statement]? = some s ∧
    (s.applicable o)[x.place.rule]? = some x.rule ∧
      x.rule.declarations[x.place.index]? = some x.declaration

/-- The specificities of the chains that select a node. -/
def Ruleset.specificities (r : Ruleset) (o : ResolveOptions) (d : Document) (id : Nat) :
    Set Specificity :=
  {s | ∃ c ∈ r.selector.chains, c.matches o.matching d id = true ∧ c.specificity = s}

/-- What decides between declarations: precedence, specificity and place. -/
def Occurrence.rank (x : Occurrence) (s : Specificity) : ℕ ×ₗ Specificity ×ₗ Place :=
  toLex (x.place.origin.precedence x.declaration.important, toLex (s, x.place))

/-! ### The most specific chain -/

namespace Specificity

theorem max_eq (a b : Specificity) : Specificity.max a b = Max.max a b := by
  rw [Specificity.max]
  split
  · next h => exact (max_eq_right ((lt_iff a b).1 h).le).symm
  · next h => exact (max_eq_left (not_lt.1 (mt (lt_iff a b).2 h))).symm

theorem isGreatest_foldl_max (s : Specificity) (ss : List Specificity) :
    IsGreatest {t | t ∈ s :: ss} (ss.foldl Specificity.max s) := by
  induction ss generalizing s with
  | nil =>
    refine ⟨List.mem_singleton.2 rfl, ?_⟩
    intro t ht
    exact (List.mem_singleton.1 ht).le
  | cons t ss ih =>
    rw [List.foldl_cons, max_eq]
    obtain ⟨hmem, hle⟩ := ih (Max.max s t)
    constructor
    · rcases List.mem_cons.1 hmem with heq | hmem
      · rw [heq]
        rcases le_total s t with h | h <;> simp [h]
      · exact List.mem_cons_of_mem _ (List.mem_cons_of_mem _ hmem)
    · intro u hu
      have hmax : Max.max s t ≤ ss.foldl Specificity.max (Max.max s t) :=
        hle (List.mem_cons_self ..)
      rcases List.mem_cons.1 hu with rfl | hu
      · exact (le_max_left u t).trans hmax
      · rcases List.mem_cons.1 hu with rfl | hu
        · exact (le_max_right s u).trans hmax
        · exact hle (List.mem_cons_of_mem _ hu)

theorem greatest?_eq_some_iff {ss : List Specificity} {s : Specificity} :
    greatest? ss = some s ↔ IsGreatest {t | t ∈ ss} s := by
  cases ss with
  | nil =>
    constructor
    · intro h
      cases h
    · intro h
      cases h.1
  | cons t ss =>
    rw [greatest?, Option.some_inj]
    constructor
    · rintro rfl
      exact isGreatest_foldl_max t ss
    · exact (isGreatest_foldl_max t ss).unique

end Specificity

/-- A ruleset selects a node with the specificity of its most specific matching chain. -/
theorem Selector.matchSpecificity?_eq_some_iff {r : Ruleset} {o : ResolveOptions} {d : Document}
    {id : Nat} {s : Specificity} : r.selector.matchSpecificity? o.matching d id = some s ↔
      IsGreatest (r.specificities o d id) s := by
  have hset : {t | t ∈ (r.selector.chains.filter fun c => c.matches o.matching d id).map
      Chain.specificity} = r.specificities o d id := by
    ext t
    simp [Ruleset.specificities, and_assoc]
  rw [matchSpecificity?, Specificity.greatest?_eq_some_iff, hset]

theorem Selector.isSome_matchSpecificity? {r : Ruleset} {o : ResolveOptions} {d : Document}
    {id : Nat} : (r.selector.matchSpecificity? o.matching d id).isSome ↔
      ∃ c ∈ r.selector.chains, c.matches o.matching d id = true := by
  rw [matchSpecificity?]
  cases h : (r.selector.chains.filter fun c => c.matches o.matching d id) with
  | nil =>
    simp only [List.map_nil, Specificity.greatest?, Option.isSome_none, Bool.false_eq_true,
      false_iff]
    rintro ⟨c, hc, hm⟩
    have hmem : c ∈ r.selector.chains.filter fun c => c.matches o.matching d id := by
      simpa using ⟨hc, hm⟩
    rw [h] at hmem
    cases hmem
  | cons c cs =>
    have hmem : c ∈ r.selector.chains.filter fun c => c.matches o.matching d id := by
      rw [h]
      exact List.mem_cons_self ..
    simp only [List.mem_filter] at hmem
    simpa [Specificity.greatest?] using ⟨c, hmem⟩

namespace Cascade

/-! ### The order of the document -/

/-- The declarations of the rulesets that apply, in the order of the document. -/
def occurrences (c : Cascade) (o : ResolveOptions) : List Occurrence :=
  c.sheets.flatMap fun sheet => sheet.2.statements.zipIdx.flatMap fun s =>
    (s.1.applicable o).zipIdx.flatMap fun r =>
      r.1.declarations.zipIdx.map fun x => ⟨⟨sheet.1, s.2, r.2, x.2⟩, r.1, x.1⟩

theorem mem_sheets {c : Cascade} {origin : Origin} {sheet : Sheet} :
    (origin, sheet) ∈ c.sheets ↔ c.sheet? origin = some sheet := by
  simp only [sheets, List.mem_filterMap, Option.map_eq_some_iff, Prod.mk.injEq]
  constructor
  · rintro ⟨_, _, _, hs, rfl, rfl⟩
    exact hs
  · intro h
    exact ⟨origin, by cases origin <;> decide, sheet, h, rfl, rfl⟩

theorem mem_occurrences {c : Cascade} {o : ResolveOptions} {x : Occurrence} :
    x ∈ c.occurrences o ↔ c.Has o x := by
  simp only [occurrences, Has, List.mem_flatMap, List.mem_map]
  constructor
  · rintro ⟨⟨origin, sheet⟩, hsheet, ⟨s, i⟩, hs, ⟨r, j⟩, hr, ⟨x, k⟩, hx, rfl⟩
    rw [List.mk_mem_zipIdx_iff_getElem?] at hs hr hx
    exact ⟨sheet, s, mem_sheets.1 hsheet, hs, hr, hx⟩
  · rintro ⟨sheet, s, hsheet, hs, hr, hx⟩
    rw [← List.mk_mem_zipIdx_iff_getElem?] at hs hr hx
    exact ⟨_, mem_sheets.2 hsheet, _, hs, _, hr, _, hx, rfl⟩

/-- What is listed by number first and then by something else is listed in order. -/
theorem pairwise_flatMap_zipIdx {α β : Type} {R : β → β → Prop} {l : List α}
    {f : α × Nat → List β} (hin : ∀ a, (f a).Pairwise R)
    (hout : ∀ a b, a.2 < b.2 → ∀ x ∈ f a, ∀ y ∈ f b, R x y) :
    (l.zipIdx.flatMap f).Pairwise R :=
  List.pairwise_flatMap.2 ⟨fun a _ => hin a, (Entry.pairwise_zipIdx l).imp (hout _ _)⟩

theorem pairwise_sheets (c : Cascade) :
    c.sheets.Pairwise fun a b => Origin.all.idxOf a.1 < Origin.all.idxOf b.1 := by
  have hall : Origin.all.Pairwise fun a b => Origin.all.idxOf a < Origin.all.idxOf b := by decide
  refine List.pairwise_filterMap.2 (hall.imp ?_)
  intro a b hlt x hx y hy
  obtain ⟨s, _, rfl⟩ := Option.map_eq_some_iff.1 hx
  obtain ⟨t, _, rfl⟩ := Option.map_eq_some_iff.1 hy
  exact hlt

/-- **The declarations are listed in the order of the document.** -/
theorem pairwise_occurrences (c : Cascade) (o : ResolveOptions) :
    (c.occurrences o).Pairwise fun x y => x.place < y.place := by
  refine List.pairwise_flatMap.2 ⟨?_, (pairwise_sheets c).imp ?_⟩
  · intro sheet _
    apply pairwise_flatMap_zipIdx
    · intro s
      apply pairwise_flatMap_zipIdx
      · intro r
        refine List.pairwise_map.2 ((Entry.pairwise_zipIdx _).imp ?_)
        intro x y hlt
        exact (Place.lt_iff _ _).2 (.inr ⟨rfl, .inr ⟨rfl, .inr ⟨rfl, hlt⟩⟩⟩)
      · intro r q hrq x hx y hy
        obtain ⟨_, _, rfl⟩ := List.mem_map.1 hx
        obtain ⟨_, _, rfl⟩ := List.mem_map.1 hy
        exact (Place.lt_iff _ _).2 (.inr ⟨rfl, .inr ⟨rfl, .inl hrq⟩⟩)
    · intro s t hst x hx y hy
      obtain ⟨_, _, hx⟩ := List.mem_flatMap.1 hx
      obtain ⟨_, _, rfl⟩ := List.mem_map.1 hx
      obtain ⟨_, _, hy⟩ := List.mem_flatMap.1 hy
      obtain ⟨_, _, rfl⟩ := List.mem_map.1 hy
      exact (Place.lt_iff _ _).2 (.inr ⟨rfl, .inl hst⟩)
  · intro a b hlt x hx y hy
    obtain ⟨_, _, hx⟩ := List.mem_flatMap.1 hx
    obtain ⟨_, _, hx⟩ := List.mem_flatMap.1 hx
    obtain ⟨_, _, rfl⟩ := List.mem_map.1 hx
    obtain ⟨_, _, hy⟩ := List.mem_flatMap.1 hy
    obtain ⟨_, _, hy⟩ := List.mem_flatMap.1 hy
    obtain ⟨_, _, rfl⟩ := List.mem_map.1 hy
    exact (Place.lt_iff _ _).2 (.inl hlt)

/-- The declarations of the rulesets that select a node, with the specificities of these. -/
def placed (c : Cascade) (o : ResolveOptions) (d : Document) (id : Nat) :
    List (Occurrence × Specificity) :=
  (c.occurrences o).filterMap fun x =>
    (x.rule.selector.matchSpecificity? o.matching d id).map fun s => (x, s)

theorem mem_placed {c : Cascade} {o : ResolveOptions} {d : Document} {id : Nat} {x : Occurrence}
    {s : Specificity} : (x, s) ∈ c.placed o d id ↔
      c.Has o x ∧ IsGreatest (x.rule.specificities o d id) s := by
  simp only [placed, List.mem_filterMap, Option.map_eq_some_iff, Prod.mk.injEq]
  rw [← mem_occurrences, ← Selector.matchSpecificity?_eq_some_iff]
  constructor
  · rintro ⟨_, hx, _, hs, rfl, rfl⟩
    exact ⟨hx, hs⟩
  · rintro ⟨hx, hs⟩
    exact ⟨x, hx, s, hs, rfl, rfl⟩

theorem pairwise_placed (c : Cascade) (o : ResolveOptions) (d : Document) (id : Nat) :
    (c.placed o d id).Pairwise fun a b => a.1.place < b.1.place := by
  refine List.pairwise_filterMap.2 ((pairwise_occurrences c o).imp ?_)
  intro x y hlt a ha b hb
  obtain ⟨s, _, rfl⟩ := Option.map_eq_some_iff.1 ha
  obtain ⟨t, _, rfl⟩ := Option.map_eq_some_iff.1 hb
  exact hlt

/-- The entries of an element are the declarations of the rulesets that select it. -/
theorem entries_eq {c : Cascade} {o : ResolveOptions} {d : Document} {id : Nat}
    (h : d.isElement id = true) : c.entries o d id =
      (c.placed o d id).map fun a => ⟨a.1.declaration, a.1.place.origin, a.2⟩ := by
  rw [entries_eq_flatMap c o h, placed, occurrences, List.filterMap_flatMap, List.map_flatMap]
  refine List.flatMap_congr fun sheet _ => ?_
  rw [List.filterMap_flatMap, List.map_flatMap, ← Entry.flatMap_zipIdx]
  refine List.flatMap_congr fun s _ => ?_
  rw [Entry.ofStatement, List.filterMap_flatMap, List.map_flatMap, ← Entry.flatMap_zipIdx]
  refine List.flatMap_congr fun r _ => ?_
  rw [Entry.ofRuleset, List.filterMap_map]
  cases hs : r.1.selector.matchSpecificity? o.matching d id with
  | none => simp [hs]
  | some s =>
    dsimp only
    conv_lhs => rw [← List.zipIdx_map_fst 0 r.1.declarations, List.map_map]
    simp [hs, Function.comp_def]

end Cascade

/-- The candidate that a declaration is, by its position among those that apply. -/
def Occurrence.candidate (x : Occurrence) (s : Specificity) (order : Nat) : Candidate :=
  ⟨x.declaration, x.place.origin, s, order⟩

namespace Cascade

/-- The candidates of an element are the declarations that apply to it, in order. -/
theorem mem_candidates_iff {c : Cascade} {o : ResolveOptions} {d : Document} {id : Nat}
    (h : d.isElement id = true) {w : Candidate} : w ∈ c.candidates o d id ↔
      ∃ (x : Occurrence) (s : Specificity) (i : Nat),
        (c.placed o d id)[i]? = some (x, s) ∧ w = x.candidate s i := by
  rw [candidates_eq, entries_eq h, Entry.mem_number]
  constructor
  · rintro ⟨i, e, hget, rfl⟩
    rw [List.getElem?_map] at hget
    obtain ⟨⟨x, s⟩, hplaced, rfl⟩ := Option.map_eq_some_iff.1 hget
    exact ⟨x, s, i, hplaced, rfl⟩
  · rintro ⟨x, s, i, hget, rfl⟩
    exact ⟨i, ⟨x.declaration, x.place.origin, s⟩, by rw [List.getElem?_map, hget]; rfl, rfl⟩

theorem isElement_of_mem_candidates {c : Cascade} {o : ResolveOptions} {d : Document} {id : Nat}
    {w : Candidate} (h : w ∈ c.candidates o d id) : d.isElement id = true := by
  by_contra hnot
  rw [candidates_eq, entries, if_neg hnot] at h
  cases h

theorem place_lt_of_lt {c : Cascade} {o : ResolveOptions} {d : Document} {id i j : Nat}
    {a b : Occurrence × Specificity} (hi : (c.placed o d id)[i]? = some a)
    (hj : (c.placed o d id)[j]? = some b) (hlt : i < j) : a.1.place < b.1.place := by
  obtain ⟨hi', rfl⟩ := List.getElem?_eq_some_iff.1 hi
  obtain ⟨hj', rfl⟩ := List.getElem?_eq_some_iff.1 hj
  exact List.pairwise_iff_getElem.1 (pairwise_placed c o d id) i j hi' hj' hlt

theorem rank_lt_of_key_lt {c : Cascade} {o : ResolveOptions} {d : Document} {id i j : Nat}
    {x y : Occurrence} {s t : Specificity} (hx : (c.placed o d id)[i]? = some (x, s))
    (hy : (c.placed o d id)[j]? = some (y, t))
    (hlt : (y.candidate t j).key < (x.candidate s i).key) : y.rank t < x.rank s := by
  rw [Occurrence.rank, Occurrence.rank, Prod.Lex.toLex_lt_toLex, Prod.Lex.toLex_lt_toLex]
  rw [SortKey.lt_iff_parts] at hlt
  exact hlt.imp_right fun h => h.imp_right fun h => h.imp_right fun h =>
    h.imp_right fun hji => place_lt_of_lt hy hx hji

theorem exists_winner_iff (c : Cascade) (o : ResolveOptions) (d : Document) (id : Nat)
    (name : String) : (∃ w ∈ c.winners o d id, w.property = name.toLower) ↔
      d.isElement id = true ∧ ∃ x, c.Has o x ∧
        (∃ ch ∈ x.rule.selector.chains, ch.matches o.matching d id = true) ∧
        sameName x.declaration.property name = true := by
  constructor
  · rintro ⟨w, hw, hp⟩
    have hmem := (mem_winners_iff.1 hw).1
    have helement := isElement_of_mem_candidates hmem
    obtain ⟨x, s, i, hget, rfl⟩ := (mem_candidates_iff helement).1 hmem
    obtain ⟨hhas, hs⟩ := mem_placed.1 (List.mem_of_getElem? hget)
    obtain ⟨ch, hch, hm, _⟩ := hs.1
    exact ⟨helement, x, hhas, ⟨ch, hch, hm⟩, beq_iff_eq.2 hp⟩
  · rintro ⟨helement, x, hhas, hsel, hp⟩
    obtain ⟨s, hs⟩ := Option.isSome_iff_exists.1 (Selector.isSome_matchSpecificity?.2 hsel)
    obtain ⟨i, hget⟩ := List.mem_iff_getElem?.1
      (mem_placed.2 ⟨hhas, Selector.matchSpecificity?_eq_some_iff.1 hs⟩)
    obtain ⟨w, hw, hwp⟩ := exists_wins (numbered_candidates c o d id)
      ((mem_candidates_iff helement).2 ⟨x, s, i, hget, rfl⟩)
    exact ⟨w, mem_winners_iff.2 hw, hwp.trans (beq_iff_eq.1 hp)⟩

/-- A winner is one of the declarations that apply, and it is above all others of its property. -/
theorem rank_lt_of_mem_winners {c : Cascade} {o : ResolveOptions} {d : Document} {id : Nat}
    {w : Candidate} (hw : w ∈ c.winners o d id) :
    ∃ x, c.Has o x ∧ IsGreatest (x.rule.specificities o d id) w.specificity ∧
      w.declaration = x.declaration ∧ w.origin = x.place.origin ∧
      ∀ y s, c.Has o y → IsGreatest (y.rule.specificities o d id) s →
        sameName y.declaration.property w.declaration.property = true → y ≠ x →
        y.rank s < x.rank w.specificity := by
  obtain ⟨hmem, hgreatest⟩ := mem_winners_iff.1 hw
  have helement := isElement_of_mem_candidates hmem
  obtain ⟨x, s, i, hx, rfl⟩ := (mem_candidates_iff helement).1 hmem
  obtain ⟨hhas, hs⟩ := mem_placed.1 (List.mem_of_getElem? hx)
  refine ⟨x, hhas, hs, rfl, rfl, ?_⟩
  intro y t hy ht hp hne
  obtain ⟨j, hget⟩ := List.mem_iff_getElem?.1 (mem_placed.2 ⟨hy, ht⟩)
  have hcandidate : y.candidate t j ∈ c.candidates o d id :=
    (mem_candidates_iff helement).2 ⟨y, t, j, hget, rfl⟩
  refine rank_lt_of_key_lt hx hget (hgreatest _ hcandidate (beq_iff_eq.1 hp) ?_)
  intro heq
  -- the same position holds the same declaration
  have hij : j = i := congrArg Candidate.order heq
  rw [hij, hx, Option.some_inj, Prod.mk.injEq] at hget
  exact hne hget.1.symm

/-- **The winner of a property is the greatest of its declarations.**  There is one winner for each
property that is declared, in whichever case, by a ruleset that applies and selects the element.  It
is the one declaration of the property that is above all others, by the precedence of origin and
importance, then by the specificity of the most specific chain of its ruleset that selects the
element, and then by its place. -/
theorem winners_greatest (c : Cascade) (o : ResolveOptions) (d : Document) (id : Nat) :
    ((c.winners o d id).map Candidate.property).Nodup ∧
    (∀ name : String, (∃ w ∈ c.winners o d id, w.property = name.toLower) ↔
      d.isElement id = true ∧ ∃ x, c.Has o x ∧
        (∃ ch ∈ x.rule.selector.chains, ch.matches o.matching d id = true) ∧
        sameName x.declaration.property name = true) ∧
    ∀ w ∈ c.winners o d id, ∃ x, c.Has o x ∧
      IsGreatest (x.rule.specificities o d id) w.specificity ∧
      w.declaration = x.declaration ∧ w.origin = x.place.origin ∧
      ∀ y s, c.Has o y → IsGreatest (y.rule.specificities o d id) s →
        sameName y.declaration.property w.declaration.property = true → y ≠ x →
        y.rank s < x.rank w.specificity := by
  refine ⟨nodup_winners c o d id, exists_winner_iff c o d id, ?_⟩
  intro w hw
  exact rank_lt_of_mem_winners hw

end Cascade

end Css2
