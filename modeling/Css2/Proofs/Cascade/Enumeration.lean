import Css2.Proofs.Cascade.Ignored

/-!
# Winners in any order

The winners can be kept in a table with an entry for each property, which lists them in no order of
its own.  A candidate that comes for a property competes with the entry of that property alone, so
the table has the winners as its entries (`Cascade.perm_table`).

Candidates that stand at different positions have different keys, and so have the winners.  Sorting
them puts them into one order only, however they were enumerated, and the style does not depend on
the enumeration (`Cascade.resolve_enumerated`).
-/

namespace Css2

namespace Candidate

/-- Which of two candidates for a property is kept, where there may be none so far. -/
def contest (c : Candidate) : Option Candidate → Candidate
  | none => c
  | some w => if w.key.lt c.key then c else w

end Candidate

/-- The style of a node with the given winners, which are sorted before they are applied. -/
def Style.ofWinners (d : Document) (parent : Style) (id : Nat) (ws : List Candidate) : Style :=
  let start := Style.inheritFrom parent
  if d.isElement id then
    (start.applyAll parent ((ws.mergeSort Candidate.before).map Candidate.declaration)).finalize
  else start

namespace Cascade

open Candidate

/-! ### The table of winners -/

/-- Lets a candidate compete with the entry for its property. -/
def enter (table : Std.HashMap String Candidate) (c : Candidate) : Std.HashMap String Candidate :=
  table.alter c.property fun w => some (c.contest w)

def table (c : Cascade) (o : ResolveOptions) (d : Document) (id : Nat) :
    Std.HashMap String Candidate :=
  (c.candidates o d id).foldl enter ∅

/-- A candidate competes with the entry for its property, and all other entries stay. -/
theorem find?_compete (ws : List Candidate) (c : Candidate) (p : String) :
    (compete ws c).find? (fun w => w.property == p) =
      if c.property = p then some (c.contest (ws.find? fun w => w.property == p))
      else ws.find? fun w => w.property == p := by
  fun_induction compete ws c with
  | case1 => by_cases hc : c.property = p <;> simp [hc, contest]
  | case2 w ws hp hlt => by_cases hc : c.property = p <;> simp [hp, hc, contest, hlt]
  | case3 w ws hp hlt => by_cases hc : c.property = p <;> simp [hp, hc, contest, hlt]
  | case4 w ws hp ih =>
    by_cases hw : w.property = p
    · have hc : ¬ c.property = p := fun hc => hp (hw.trans hc.symm)
      simp [hw, hc]
    · simp [hw, ih]

/-- **The table and the list of winners have the same entries.** -/
theorem getElem?_foldl_enter (cs : List Candidate) (p : String) :
    (cs.foldl enter ∅)[p]? = (cs.foldl compete []).find? fun w => w.property == p := by
  induction cs using List.reverseRecOn with
  | nil => simp
  | append_singleton cs c ih =>
    rw [List.foldl_append, List.foldl_append]
    show (enter (cs.foldl enter ∅) c)[p]? = (compete (cs.foldl compete []) c).find? _
    rw [find?_compete, enter, Std.HashMap.getElem?_alter]
    by_cases hc : c.property = p
    · rw [if_pos (beq_iff_eq.2 hc), if_pos hc, hc, ih]
    · rw [if_neg (mt beq_iff_eq.1 hc), if_neg hc, ih]

theorem find?_property_eq_some_iff {ws : List Candidate} (h : (ws.map property).Nodup) {p : String}
    {w : Candidate} :
    (ws.find? fun w => w.property == p) = some w ↔ w ∈ ws ∧ w.property = p := by
  constructor
  · intro hw
    exact ⟨List.mem_of_find?_eq_some hw, by simpa using List.find?_some hw⟩
  · rintro ⟨hw, hp⟩
    have hsome : (ws.find? fun w => w.property == p).isSome :=
      List.find?_isSome.2 ⟨w, hw, beq_iff_eq.2 hp⟩
    obtain ⟨v, hv⟩ := Option.isSome_iff_exists.1 hsome
    have hvp : v.property = p := by simpa using List.find?_some hv
    obtain rfl : v = w := List.inj_on_of_nodup_map h (List.mem_of_find?_eq_some hv) hw
      (hvp.trans hp.symm)
    exact hv

theorem mem_table_iff {c : Cascade} {o : ResolveOptions} {d : Document} {id : Nat} {p : String}
    {w : Candidate} :
    (p, w) ∈ (c.table o d id).toList ↔ w ∈ c.winners o d id ∧ w.property = p := by
  rw [Std.HashMap.mem_toList_iff_getElem?_eq_some, table, getElem?_foldl_enter]
  exact find?_property_eq_some_iff (nodup_winners c o d id)

/-- **The entries of the table are the winners**, in some order. -/
theorem perm_table (c : Cascade) (o : ResolveOptions) (d : Document) (id : Nat) :
    (c.table o d id).toList.Perm ((c.winners o d id).map fun w => (w.property, w)) := by
  have htable : (c.table o d id).toList.Nodup :=
    Std.HashMap.distinct_keys_toList.imp fun hne heq => by simp [heq] at hne
  have hwinners : ((c.winners o d id).map fun w => (w.property, w)).Nodup := by
    refine List.Nodup.of_map Prod.fst ?_
    rw [List.map_map]
    exact nodup_winners c o d id
  refine (List.perm_ext_iff_of_nodup htable hwinners).2 fun e => ?_
  obtain ⟨p, w⟩ := e
  rw [mem_table_iff, List.mem_map]
  constructor
  · rintro ⟨hw, rfl⟩
    exact ⟨w, hw, rfl⟩
  · rintro ⟨v, hv, heq⟩
    cases heq
    exact ⟨hv, rfl⟩

/-! ### Sorting the winners -/

theorem eq_of_key {c : Cascade} {o : ResolveOptions} {d : Document} {id : Nat} {w v : Candidate}
    (hw : w ∈ c.winners o d id) (hv : v ∈ c.winners o d id) (hkey : w.key = v.key) : w = v :=
  (numbered_candidates c o d id).eq_of_key (mem_winners_iff.1 hw).1 (mem_winners_iff.1 hv).1 hkey

theorem nodup_map_key (c : Cascade) (o : ResolveOptions) (d : Document) (id : Nat) :
    ((c.winners o d id).map Candidate.key).Nodup :=
  (List.Nodup.of_map _ (nodup_winners c o d id)).map_on fun _ hw _ hv => eq_of_key hw hv

/-- **There is one way only in which the winners are sorted.** -/
theorem eq_sortedWinners {c : Cascade} {o : ResolveOptions} {d : Document} {id : Nat}
    {vs : List Candidate} (hperm : vs.Perm (c.winners o d id))
    (hsorted : vs.Pairwise fun a b => a.turn ≤ b.turn) : vs = c.sortedWinners o d id := by
  have hturns : (c.sortedWinners o d id).Pairwise fun a b => a.turn ≤ b.turn :=
    (pairwise_sortedWinners c o d id).imp le_of_lt
  refine List.Perm.eq_of_pairwise ?_ hsorted hturns (hperm.trans (List.mergeSort_perm _ _).symm)
  intro a b ha hb hab hba
  have hkey : a.key = b.key := congrArg (fun t => (ofLex t).2) (le_antisymm hab hba)
  exact eq_of_key (hperm.mem_iff.1 ha) (List.mem_mergeSort.1 hb) hkey

/-- **The order in which the table lists the winners does not matter.**  However its entries are
enumerated, no two of them have the same key, so there is one way only to sort them by the size of
the font and the key, and the node gets its style from them. -/
theorem resolve_enumerated (c : Cascade) (o : ResolveOptions) (d : Document) (id : Nat)
    {entries : List (String × Candidate)} (h : entries.Perm (c.table o d id).toList) :
    let ws := entries.map Prod.snd
    (ws.map Candidate.key).Nodup ∧
      (∀ vs : List Candidate, vs.Perm ws → vs.Pairwise (fun a b => a.turn ≤ b.turn) →
        vs = c.sortedWinners o d id) ∧
      ∀ parent, Style.ofWinners d parent id ws = c.resolve o d parent id := by
  intro ws
  have hws : ws.Perm (c.winners o d id) := by
    have hmap := (h.trans (perm_table c o d id)).map Prod.snd
    simpa [Function.comp_def] using hmap
  have hsorted : ws.mergeSort Candidate.before = c.sortedWinners o d id := by
    refine eq_sortedWinners ((List.mergeSort_perm _ _).trans hws) ?_
    refine (List.pairwise_mergeSort before_trans before_total ws).imp fun hab => ?_
    exact (before_iff _ _).1 hab
  refine ⟨(hws.map Candidate.key).nodup_iff.2 (nodup_map_key c o d id), ?_, fun parent => ?_⟩
  · intro vs hvs
    exact eq_sortedWinners (hvs.trans hws)
  · rw [Style.ofWinners, hsorted]
    rfl

/-- With `margin` and `margin-left`, which overlap, the table may list either of them first. -/
theorem resolve_enumerated_margins :
    let one : Declaration := ⟨"margin", [⟨.ident "auto", none, none⟩], false⟩
    let other : Declaration := ⟨"margin-left", [⟨.number ⟨0, .none⟩, none, none⟩], false⟩
    let entries : List (String × Candidate) :=
      [("margin-left", ⟨other, .author, ⟨0, 0, 1⟩, 1⟩), ("margin", ⟨one, .author, ⟨0, 0, 1⟩, 0⟩)]
    let c := ofParagraphs [one, other]
    entries.Perm (c.table {} .paragraph 1).toList ∧
      Style.ofWinners .paragraph .initial 1 (entries.map Prod.snd)
        = c.resolve {} .paragraph .initial 1 := by
  intro one other entries c
  have hone : (⟨one, .author, ⟨0, 0, 1⟩, 0⟩ : Candidate).property = "margin" := by
    show "margin".toLower = "margin"
    decide +kernel
  have hother : (⟨other, .author, ⟨0, 0, 1⟩, 1⟩ : Candidate).property = "margin-left" := by
    show "margin-left".toLower = "margin-left"
    decide +kernel
  have hwinners : c.winners {} .paragraph 1 =
      [⟨one, .author, ⟨0, 0, 1⟩, 0⟩, ⟨other, .author, ⟨0, 0, 1⟩, 1⟩] := by
    rw [winners, candidates_eq, entries_ofParagraphs]
    show compete [⟨one, .author, ⟨0, 0, 1⟩, 0⟩] ⟨other, .author, ⟨0, 0, 1⟩, 1⟩ = _
    rw [compete, hone, hother, if_neg (by decide)]
    rfl
  have hentries : entries.Perm (c.table {} .paragraph 1).toList := by
    refine .trans ?_ (perm_table c {} .paragraph 1).symm
    rw [hwinners, List.map_cons, List.map_cons, List.map_nil, hone, hother]
    exact .swap ..
  exact ⟨hentries, (resolve_enumerated c {} .paragraph 1 hentries).2.2 .initial⟩

end Cascade

end Css2
