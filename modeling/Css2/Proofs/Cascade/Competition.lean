import Css2.Proofs.Cascade.Order
import Mathlib.Data.List.Induction
import Mathlib.Data.List.Nodup
import Mathlib.Data.List.Sort

/-!
# The pass over the candidates

`Cascade.winners` goes over the candidates once and keeps one of them for each property.  What one
step keeps is `Kept`: one entry for each property, and none of the candidates met so far is above
the entry for its property (`Kept.compete`).  So after the whole pass the entries are the candidates
that win against all others for their property (`Cascade.mem_winners_iff`), whichever way they are
met.

The winners are applied in the order of `Candidate.turn`, and that order is strict
(`Cascade.pairwise_inTurn`).
-/

namespace Css2

/-! ### Numbered candidates -/

/-- The positions of candidates increase. -/
def Numbered (cs : List Candidate) : Prop :=
  cs.Pairwise fun a b => a.order < b.order

theorem Numbered.eq_of_key {cs : List Candidate} (h : Numbered cs) {a b : Candidate} (ha : a ∈ cs)
    (hb : b ∈ cs) (hkey : a.key = b.key) : a = b := by
  have hnodup : (cs.map Candidate.order).Nodup :=
    List.pairwise_map.2 (List.Pairwise.imp (fun hlt => Nat.ne_of_lt hlt) h)
  exact List.inj_on_of_nodup_map hnodup ha hb (congrArg SortKey.order hkey)

namespace Candidate

/-- A candidate wins when every other one for its property has a lesser key. -/
def Wins (cs : List Candidate) (w : Candidate) : Prop :=
  w ∈ cs ∧ ∀ c ∈ cs, c.property = w.property → c ≠ w → c.key < w.key

end Candidate

namespace Cascade

open Candidate

/-! ### One step -/

theorem mem_compete {ws : List Candidate} {c w : Candidate} (h : w ∈ compete ws c) :
    w ∈ ws ∨ w = c := by
  fun_induction compete ws c with
  | case1 => exact .inr (List.mem_singleton.1 h)
  | case2 w' ws hp hlt =>
    rcases List.mem_cons.1 h with rfl | h
    · exact .inr rfl
    · exact .inl (List.mem_cons_of_mem _ h)
  | case3 => exact .inl h
  | case4 w' ws hp ih =>
    rcases List.mem_cons.1 h with rfl | h
    · exact .inl (List.mem_cons_self ..)
    · exact (ih h).imp_left (List.mem_cons_of_mem _)

theorem map_property_compete (ws : List Candidate) (c : Candidate) :
    (compete ws c).map property =
      if c.property ∈ ws.map property then ws.map property
      else ws.map property ++ [c.property] := by
  fun_induction compete ws c with
  | case1 => rfl
  | case2 w ws hp hlt => simp [hp]
  | case3 w ws hp hlt => simp [hp]
  | case4 w ws hp ih =>
    rw [List.map_cons, ih]
    by_cases hmem : c.property ∈ ws.map property
    · rw [if_pos hmem, List.map_cons, if_pos (List.mem_cons_of_mem _ hmem)]
    · have hnot : c.property ∉ (w :: ws).map property := by
        rw [List.map_cons, List.mem_cons, not_or]
        exact ⟨Ne.symm hp, hmem⟩
      rw [if_neg hmem, if_neg hnot]
      rfl

theorem exists_mem_compete (ws : List Candidate) (c : Candidate) :
    ∃ w ∈ compete ws c, w.property = c.property ∧ c.key ≤ w.key := by
  fun_induction compete ws c with
  | case1 => exact ⟨c, List.mem_cons_self .., rfl, le_rfl⟩
  | case2 w ws hp hlt => exact ⟨c, List.mem_cons_self .., rfl, le_rfl⟩
  | case3 w ws hp hlt =>
    rw [SortKey.lt_iff, not_lt] at hlt
    exact ⟨w, List.mem_cons_self .., hp, hlt⟩
  | case4 w ws hp ih =>
    obtain ⟨v, hv, hle⟩ := ih
    exact ⟨v, List.mem_cons_of_mem _ hv, hle⟩

theorem exists_mem_compete_of_mem {ws : List Candidate} {v : Candidate} (c : Candidate)
    (h : v ∈ ws) : ∃ w ∈ compete ws c, w.property = v.property ∧ v.key ≤ w.key := by
  fun_induction compete ws c with
  | case1 => cases h
  | case2 w ws hp hlt =>
    rw [SortKey.lt_iff] at hlt
    rcases List.mem_cons.1 h with rfl | h
    · exact ⟨_, List.mem_cons_self .., hp.symm, hlt.le⟩
    · exact ⟨v, List.mem_cons_of_mem _ h, rfl, le_rfl⟩
  | case3 w ws hp hlt => exact ⟨v, h, rfl, le_rfl⟩
  | case4 w ws hp ih =>
    rcases List.mem_cons.1 h with rfl | h
    · exact ⟨_, List.mem_cons_self .., rfl, le_rfl⟩
    · obtain ⟨u, hu, hle⟩ := ih h
      exact ⟨u, List.mem_cons_of_mem _ hu, hle⟩

theorem compete_singleton_of_lt {a b : Candidate} (hp : a.property = b.property)
    (h : a.key < b.key) : compete [a] b = [b] := by
  rw [compete, if_pos hp, if_pos ((SortKey.lt_iff _ _).2 h)]

/-! ### The pass -/

/-- What has been kept of the candidates met so far. -/
structure Kept (cs ws : List Candidate) : Prop where
  /-- There is one entry for each property. -/
  nodup : (ws.map property).Nodup
  subset : ∀ w ∈ ws, w ∈ cs
  /-- No candidate is above the entry for its property. -/
  above : ∀ c ∈ cs, ∃ w ∈ ws, w.property = c.property ∧ c.key ≤ w.key

theorem Kept.compete {cs ws : List Candidate} (h : Kept cs ws) (c : Candidate) :
    Kept (cs ++ [c]) (Cascade.compete ws c) where
  nodup := by
    rw [map_property_compete]
    split
    · exact h.nodup
    · next hnot => exact List.nodup_append.2 ⟨h.nodup, by simp, by simpa using hnot⟩
  subset := by
    intro w hw
    rcases mem_compete hw with hw | rfl
    · exact List.mem_append_left _ (h.subset w hw)
    · simp
  above := by
    intro v hv
    rcases List.mem_append.1 hv with hv | hv
    · obtain ⟨w, hw, hp, hle⟩ := h.above v hv
      obtain ⟨u, hu, hp', hle'⟩ := exists_mem_compete_of_mem c hw
      exact ⟨u, hu, hp'.trans hp, hle.trans hle'⟩
    · rw [List.mem_singleton.1 hv]
      exact exists_mem_compete ws c

theorem kept_foldl (cs : List Candidate) : Kept cs (cs.foldl Cascade.compete []) := by
  induction cs using List.reverseRecOn with
  | nil => exact ⟨List.nodup_nil, by simp, by simp⟩
  | append_singleton cs c ih =>
    rw [List.foldl_append]
    exact ih.compete c

theorem Kept.eq_of_property {cs ws : List Candidate} (h : Kept cs ws) {a b : Candidate}
    (ha : a ∈ ws) (hb : b ∈ ws) (hp : a.property = b.property) : a = b :=
  List.inj_on_of_nodup_map h.nodup ha hb hp

/-- **The pass keeps the candidates that win**, and no others. -/
theorem mem_foldl_compete_iff {cs : List Candidate} (h : Numbered cs) (w : Candidate) :
    w ∈ cs.foldl Cascade.compete [] ↔ w.Wins cs := by
  have hkept := kept_foldl cs
  constructor
  · intro hw
    refine ⟨hkept.subset w hw, ?_⟩
    intro c hc hp hne
    obtain ⟨v, hv, hvp, hle⟩ := hkept.above c hc
    obtain rfl := hkept.eq_of_property hv hw (hvp.trans hp)
    exact lt_of_le_of_ne hle fun hkey => hne (h.eq_of_key hc (hkept.subset v hv) hkey)
  · intro hw
    obtain ⟨v, hv, hvp, hle⟩ := hkept.above w hw.1
    by_cases hvw : v = w
    · rw [← hvw]
      exact hv
    · exact absurd (hw.2 v (hkept.subset v hv) hvp hvw) (not_lt.2 hle)

theorem exists_wins {cs : List Candidate} (h : Numbered cs) {c : Candidate} (hc : c ∈ cs) :
    ∃ w : Candidate, w.Wins cs ∧ w.property = c.property := by
  obtain ⟨w, hw, hp, -⟩ := (kept_foldl cs).above c hc
  exact ⟨w, (mem_foldl_compete_iff h w).1 hw, hp⟩

/-! ### Turns -/

/-- The winners among some candidates, in the order in which they are applied. -/
def inTurn (cs : List Candidate) : List Candidate :=
  (cs.foldl Cascade.compete []).mergeSort Candidate.before

theorem mem_inTurn_iff {cs : List Candidate} (h : Numbered cs) {w : Candidate} :
    w ∈ inTurn cs ↔ w.Wins cs := by
  rw [inTurn, List.mem_mergeSort, mem_foldl_compete_iff h]

theorem pairwise_inTurn {cs : List Candidate} (h : Numbered cs) :
    (inTurn cs).Pairwise fun a b => a.turn < b.turn := by
  have hle : (inTurn cs).Pairwise fun a b => a.before b = true :=
    List.pairwise_mergeSort Candidate.before_trans Candidate.before_total _
  have hnodup : (inTurn cs).Nodup :=
    (List.mergeSort_perm _ _).nodup_iff.2 (List.Nodup.of_map _ (kept_foldl cs).nodup)
  refine (hle.and hnodup).imp_of_mem ?_
  intro a b ha hb hab
  refine lt_of_le_of_ne ((Candidate.before_iff a b).1 hab.1) fun hturn => hab.2 ?_
  have hkey : a.key = b.key := congrArg (fun t => (ofLex t).2) hturn
  exact h.eq_of_key ((mem_inTurn_iff h).1 ha).1 ((mem_inTurn_iff h).1 hb).1 hkey

/-- Candidates in the order of their turns are determined by which of them there are. -/
theorem eq_of_pairwise_turn {ws vs : List Candidate} (hw : ws.Pairwise fun a b => a.turn < b.turn)
    (hv : vs.Pairwise fun a b => a.turn < b.turn) (h : ∀ c, c ∈ ws ↔ c ∈ vs) : ws = vs := by
  have : Std.Irrefl fun a b : Candidate => a.turn < b.turn := ⟨fun a => lt_irrefl a.turn⟩
  have : Std.Antisymm fun a b : Candidate => a.turn < b.turn :=
    ⟨fun a b hab hba => absurd hba (lt_asymm hab)⟩
  exact hw.eq_of_mem_iff hv h

end Cascade

/-! ### The candidates of a node -/

/-- A declaration of a ruleset that selects a node, before it is numbered. -/
structure Entry where
  declaration : Declaration
  origin : Origin
  specificity : Specificity

namespace Entry

def candidate (e : Entry) (order : Nat) : Candidate :=
  ⟨e.declaration, e.origin, e.specificity, order⟩

def number (es : List Entry) : List Candidate :=
  es.zipIdx.map fun e => e.1.candidate e.2

theorem pairwise_zipIdx {α : Type} (l : List α) : l.zipIdx.Pairwise fun a b => a.2 < b.2 :=
  List.pairwise_map.1 (List.zipIdx_map_snd 0 l ▸ List.pairwise_lt_range')

theorem flatMap_zipIdx {α β : Type} (l : List α) (f : α → List β) :
    (l.zipIdx.flatMap fun a => f a.1) = l.flatMap f := by
  conv_rhs => rw [← List.zipIdx_map_fst 0 l, List.flatMap_map]

theorem numbered_number (es : List Entry) : Numbered (number es) :=
  List.pairwise_map.2 (pairwise_zipIdx es)

theorem mem_number {es : List Entry} {c : Candidate} :
    c ∈ number es ↔ ∃ (i : ℕ) (e : Entry), es[i]? = some e ∧ c = e.candidate i := by
  rw [number, List.mem_map]
  constructor
  · rintro ⟨⟨e, i⟩, hmem, rfl⟩
    exact ⟨i, e, List.mk_mem_zipIdx_iff_getElem?.1 hmem, rfl⟩
  · rintro ⟨i, e, hget, rfl⟩
    exact ⟨⟨e, i⟩, List.mk_mem_zipIdx_iff_getElem?.2 hget, rfl⟩

/-- The entries of a ruleset, if it selects the node. -/
def ofRuleset (o : ResolveOptions) (d : Document) (id : Nat) (origin : Origin) (r : Ruleset) :
    List Entry :=
  match r.selector.matchSpecificity? o.matching d id with
  | none => []
  | some s => r.declarations.map fun x => ⟨x, origin, s⟩

def ofStatement (o : ResolveOptions) (d : Document) (id : Nat) (origin : Origin) (t : Statement) :
    List Entry :=
  (t.applicable o).flatMap (ofRuleset o d id origin)

end Entry

namespace Cascade

/-- The entries of all rulesets that apply, in order. -/
def entries (c : Cascade) (o : ResolveOptions) (d : Document) (id : Nat) : List Entry :=
  if d.isElement id then (c.applicable o).flatMap fun r => Entry.ofRuleset o d id r.1 r.2 else []

theorem entries_eq_flatMap (c : Cascade) (o : ResolveOptions) {d : Document} {id : Nat}
    (h : d.isElement id = true) : c.entries o d id =
      c.sheets.flatMap fun s => s.2.statements.flatMap (Entry.ofStatement o d id s.1) := by
  rw [entries, if_pos h, applicable, List.flatMap_assoc]
  refine List.flatMap_congr fun s _ => ?_
  rw [List.flatMap_map, Sheet.applicable, List.flatMap_assoc]
  rfl

theorem candidates_eq (c : Cascade) (o : ResolveOptions) (d : Document) (id : Nat) :
    c.candidates o d id = Entry.number (c.entries o d id) := by
  have hentries : c.entries o d id = ((c.matched o d id).flatMap fun m =>
      m.rule.declarations.map fun x => (m, x)).map fun e =>
        ⟨e.2, e.1.origin, e.1.specificity⟩ := by
    rw [entries, matched]
    split
    · -- the position of a ruleset is not part of its entries
      rw [List.filterMap_eq_flatMap_toList, List.flatMap_assoc, List.map_flatMap,
        ← Entry.flatMap_zipIdx]
      refine List.flatMap_congr fun r _ => ?_
      rw [Entry.ofRuleset]
      cases r.1.2.selector.matchSpecificity? o.matching d id <;> simp
    · rfl
  rw [Entry.number, hentries, List.zipIdx_map, List.map_map]
  rfl

theorem numbered_candidates (c : Cascade) (o : ResolveOptions) (d : Document) (id : Nat) :
    Numbered (c.candidates o d id) := by
  rw [candidates_eq]
  exact Entry.numbered_number _

/-- **The winners are the candidates that win.** -/
theorem mem_winners_iff {c : Cascade} {o : ResolveOptions} {d : Document} {id : Nat}
    {w : Candidate} : w ∈ c.winners o d id ↔ w.Wins (c.candidates o d id) :=
  mem_foldl_compete_iff (numbered_candidates c o d id) w

theorem nodup_winners (c : Cascade) (o : ResolveOptions) (d : Document) (id : Nat) :
    ((c.winners o d id).map Candidate.property).Nodup :=
  (kept_foldl _).nodup

theorem pairwise_sortedWinners (c : Cascade) (o : ResolveOptions) (d : Document) (id : Nat) :
    (c.sortedWinners o d id).Pairwise fun a b => a.turn < b.turn :=
  pairwise_inTurn (numbered_candidates c o d id)

end Cascade

end Css2
