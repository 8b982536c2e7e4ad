import Css2.Proofs.Cascade.Ignored
import Css2.Proofs.Cascade.Winner

/-!
# Groups of selectors

A ruleset with a group of chains stands for as many rulesets with one chain each
(`Cascade.Splits`).  The group counts once, with the specificity of its most specific chain that
matches.  Its parts compete with each other: the last one among the most specific ones that match
takes the place of the group, and every declaration of the others gives way to the same declaration
there, which is more specific or comes later.  So the same declarations win, at other positions in
the same order, and the style is the same (`Cascade.resolve_splits`).
-/

namespace Css2

open Candidate Cascade

/-! ### Candidates that do not win -/

theorem Adds.inTurn_eq {f : ℕ → ℕ} {x : Candidate} {cs ds : List Candidate} (h : Adds f x cs ds)
    (hcs : Numbered cs) (hds : Numbered ds) (hx : ¬ x.Wins cs) :
    inTurn cs = (inTurn ds).map (renumber f) := by
  refine eq_of_pairwise_turn (pairwise_inTurn hcs) ?_ ?_
  · exact List.pairwise_map.2 ((pairwise_inTurn hds).imp (turn_renumber_lt h.mono))
  · intro c
    rw [mem_inTurn_iff hcs, List.mem_map]
    constructor
    · intro hw
      rcases (h.mem_iff c).1 hw.1 with rfl | ⟨d, hd, rfl⟩
      · exact absurd hw hx
      · exact ⟨d, (mem_inTurn_iff hds).2 (h.wins hd hw), rfl⟩
    · rintro ⟨d, hd, rfl⟩
      exact (h.wins_or_wins hcs ((mem_inTurn_iff hds).1 hd)).resolve_right fun hwins => hx hwins.1

namespace Entry

/-- The same declarations win, from the same sheets and with the same specificities.  Their
positions may differ, but not the order of these. -/
def SameWinners (es es' : List Entry) : Prop :=
  ∃ f : ℕ → ℕ, StrictMono f ∧ inTurn (number es') = (inTurn (number es)).map (renumber f)

namespace SameWinners

theorem refl (es : List Entry) : SameWinners es es :=
  ⟨id, strictMono_id, (List.map_id _).symm⟩

theorem trans {es es' es'' : List Entry} (h : SameWinners es es') (h' : SameWinners es' es'') :
    SameWinners es es'' := by
  obtain ⟨f, hf, heq⟩ := h
  obtain ⟨g, hg, heq'⟩ := h'
  refine ⟨g ∘ f, hg.comp hf, ?_⟩
  rw [heq', heq, List.map_map]
  rfl

end SameWinners

/-! ### Entries that give way -/

def SameSource (a b : Entry) : Prop :=
  a.declaration = b.declaration ∧ a.origin = b.origin

/-- Between `as` and `bs` the entry gives way to one for the same declaration, which is more
specific or comes later. -/
def Yields (as bs : List Entry) (e : Entry) : Prop :=
  (∃ a ∈ as, e.SameSource a ∧ e.specificity < a.specificity) ∨
    ∃ b ∈ bs, e.SameSource b ∧ e.specificity ≤ b.specificity

theorem SameSource.key_lt {a b : Entry} {i j : ℕ} (h : a.SameSource b)
    (hlt : a.specificity < b.specificity ∨ a.specificity = b.specificity ∧ i < j) :
    (a.candidate i).key < (b.candidate j).key := by
  have hprecedence : (a.candidate i).key.precedence = (b.candidate j).key.precedence := by
    show a.origin.precedence a.declaration.important = b.origin.precedence b.declaration.important
    rw [h.1, h.2]
  exact (SortKey.lt_iff_parts _ _).2 (.inr ⟨hprecedence, hlt⟩)

theorem Yields.not_wins {as bs : List Entry} {e : Entry} (h : e.Yields as bs) :
    ¬ (e.candidate as.length).Wins (number (as ++ e :: bs)) := by
  have key : ∃ (j : ℕ) (b : Entry), (as ++ e :: bs)[j]? = some b ∧ e.SameSource b ∧
      (e.candidate as.length).key < (b.candidate j).key := by
    rcases h with ⟨a, ha, hsource, hlt⟩ | ⟨b, hb, hsource, hle⟩
    · obtain ⟨i, hi⟩ := List.mem_iff_getElem?.1 ha
      have hlen : i < as.length := (List.getElem?_eq_some_iff.1 hi).1
      exact ⟨i, a, by rw [List.getElem?_append_left hlen, hi], hsource, hsource.key_lt (.inl hlt)⟩
    · obtain ⟨i, hi⟩ := List.mem_iff_getElem?.1 hb
      refine ⟨as.length + (i + 1), b, ?_, hsource, hsource.key_lt ?_⟩
      · rw [List.getElem?_append_right (Nat.le_add_right ..), Nat.add_sub_cancel_left,
          List.getElem?_cons_succ, hi]
      · exact hle.lt_or_eq.imp_right fun heq => ⟨heq, by omega⟩
  obtain ⟨j, b, hget, hsource, hlt⟩ := key
  intro hwins
  have hmem : b.candidate j ∈ number (as ++ e :: bs) := mem_number.2 ⟨j, b, hget, rfl⟩
  have hproperty : (b.candidate j).property = (e.candidate as.length).property :=
    congrArg (fun d : Declaration => d.property.toLower) hsource.1.symm
  refine lt_asymm hlt (hwins.2 _ hmem hproperty ?_)
  intro heq
  rw [heq] at hlt
  exact lt_irrefl _ hlt

theorem sameWinners_append (as es bs : List Entry) (h : ∀ e ∈ es, e.Yields as bs) :
    SameWinners (as ++ bs) (as ++ es ++ bs) := by
  induction es with
  | nil =>
    rw [List.append_nil]
    exact .refl _
  | cons e es ih =>
    obtain ⟨he, hes⟩ := List.forall_mem_cons.1 h
    have hyields : e.Yields as (es ++ bs) :=
      he.imp_right fun ⟨b, hb, hle⟩ => ⟨b, List.mem_append_right _ hb, hle⟩
    refine (ih hes).trans ⟨shift as.length, strictMono_shift _, ?_⟩
    rw [List.append_assoc, List.append_assoc, List.cons_append]
    exact (adds_number as (es ++ bs) e).inTurn_eq (numbered_number _) (numbered_number _)
      hyields.not_wins

end Entry

/-! ### The part that takes the place of the group -/

theorem exists_last_greatest {α β : Type} [LinearOrder β] (f : α → β) {l : List α} (h : l ≠ []) :
    ∃ as m bs, l = as ++ m :: bs ∧ (∀ a ∈ as, f a ≤ f m) ∧ ∀ b ∈ bs, f b < f m := by
  induction l using List.reverseRecOn with
  | nil => exact absurd rfl h
  | append_singleton l x ih =>
    by_cases hl : l = []
    · subst hl
      exact ⟨[], x, [], rfl, by simp, by simp⟩
    · obtain ⟨as, m, bs, rfl, has, hbs⟩ := ih hl
      by_cases hx : f x < f m
      · refine ⟨as, m, bs ++ [x], by simp, has, ?_⟩
        simpa [or_imp, forall_and] using ⟨hbs, hx⟩
      · rw [not_lt] at hx
        refine ⟨as ++ m :: bs, x, [], rfl, ?_, by simp⟩
        intro a ha
        rcases List.mem_append.1 ha with ha | ha
        · exact (has a ha).trans hx
        · rcases List.mem_cons.1 ha with rfl | ha
          · exact hx
          · exact (hbs a ha).le.trans hx

/-- The rulesets that a ruleset with a group of chains stands for, one for each chain. -/
def Ruleset.parts (r : Ruleset) : List Ruleset :=
  r.selector.chains.map fun c => ⟨⟨[c]⟩, r.declarations⟩

namespace Entry

variable (o : ResolveOptions) (d : Document) (id : Nat) (origin : Origin)

def ofChain (ds : List Declaration) (c : Chain) : List Entry :=
  ds.map fun x => ⟨x, origin, c.specificity⟩

theorem ofRuleset_single (c : Chain) (ds : List Declaration) :
    ofRuleset o d id origin ⟨⟨[c]⟩, ds⟩ =
      if c.matches o.matching d id then ofChain origin ds c else [] := by
  rw [ofRuleset, Selector.matchSpecificity?]
  cases hc : c.matches o.matching d id <;> simp [hc, Specificity.greatest?, ofChain]

theorem flatMap_parts (r : Ruleset) : r.parts.flatMap (ofRuleset o d id origin) =
    (r.selector.chains.filter fun c => c.matches o.matching d id).flatMap
      (ofChain origin r.declarations) := by
  rw [Ruleset.parts, List.flatMap_map]
  induction r.selector.chains with
  | nil => rfl
  | cons c cs ih =>
    rw [List.flatMap_cons, ih, ofRuleset_single, List.filter_cons]
    split
    · rw [List.flatMap_cons]
    · rfl

/-- **A group and its parts have the same winners.** -/
theorem sameWinners_parts (r : Ruleset) (us vs : List Entry) :
    SameWinners (us ++ ofRuleset o d id origin r ++ vs)
      (us ++ r.parts.flatMap (ofRuleset o d id origin) ++ vs) := by
  rw [flatMap_parts, ofRuleset, Selector.matchSpecificity?]
  by_cases hnone : (r.selector.chains.filter fun c => c.matches o.matching d id) = []
  · rw [hnone]
    exact .refl _
  · obtain ⟨as, m, bs, heq, has, hbs⟩ := exists_last_greatest Chain.specificity hnone
    have hgreatest : Specificity.greatest? ((as ++ m :: bs).map Chain.specificity) =
        some m.specificity := by
      rw [Specificity.greatest?_eq_some_iff]
      refine ⟨List.mem_map_of_mem (by simp), ?_⟩
      rintro s hs
      obtain ⟨c, hc, rfl⟩ := List.mem_map.1 hs
      rcases List.mem_append.1 hc with hc | hc
      · exact has c hc
      · rcases List.mem_cons.1 hc with rfl | hc
        · exact le_rfl
        · exact (hbs c hc).le
    have hentry : ∀ {c : Chain} {e : Entry}, e ∈ ofChain origin r.declarations c →
        ∃ a ∈ ofChain origin r.declarations m, e.SameSource a ∧ e.specificity = c.specificity ∧
          a.specificity = m.specificity := by
      intro c e he
      obtain ⟨x, hx, rfl⟩ := List.mem_map.1 he
      exact ⟨⟨x, origin, m.specificity⟩, List.mem_map_of_mem hx, ⟨rfl, rfl⟩, rfl, rfl⟩
    rw [heq, hgreatest, List.flatMap_append, List.flatMap_cons]
    show SameWinners (us ++ ofChain origin r.declarations m ++ vs) _
    -- first the parts before the one that takes the place of the group, then those behind it
    have hbefore := sameWinners_append us (as.flatMap (ofChain origin r.declarations))
      (ofChain origin r.declarations m ++ vs) ?_
    have hbehind := sameWinners_append
      (us ++ as.flatMap (ofChain origin r.declarations) ++ ofChain origin r.declarations m)
      (bs.flatMap (ofChain origin r.declarations)) vs ?_
    · simp only [List.append_assoc] at hbefore hbehind ⊢
      exact hbefore.trans hbehind
    · intro e he
      obtain ⟨c, hc, he⟩ := List.mem_flatMap.1 he
      obtain ⟨a, ha, hsource, hs, hm⟩ := hentry he
      exact .inl ⟨a, List.mem_append_right _ ha, hsource, by rw [hs, hm]; exact hbs c hc⟩
    · intro e he
      obtain ⟨c, hc, he⟩ := List.mem_flatMap.1 he
      obtain ⟨a, ha, hsource, hs, hm⟩ := hentry he
      exact .inr ⟨a, List.mem_append_left _ ha, hsource, by rw [hs, hm]; exact has c hc⟩

end Entry

/-! ### Parts in place of a group -/

/-- A statement with the parts of a group in its place, at the top of a sheet or inside `@media`. -/
inductive Statement.Splits : Statement → List Statement → Prop
  | ruleset (r : Ruleset) : Splits (.ruleset r) (r.parts.map .ruleset)
  | media (names : List String) (r : Ruleset) (as bs : List Ruleset) :
    Splits (.media names (as ++ r :: bs)) [.media names (as ++ r.parts ++ bs)]

/-- The sheet `s'` is `s` with the parts of one of its groups in the place of the group. -/
def Sheet.Splits (s s' : Sheet) : Prop :=
  ∃ as t ts bs, t.Splits ts ∧ s.statements = as ++ t :: bs ∧ s' = ⟨as ++ ts ++ bs⟩

/-- The cascade `c'` is `c` with the parts of a group in the place of the group, in any of the
sheets. -/
def Cascade.Splits (c c' : Cascade) : Prop :=
  ∃ o s s', c.sheet? o = some s ∧ s.Splits s' ∧ c' = c.put o (some s')

theorem Entry.sameWinners_statement {t : Statement} {ts : List Statement} (h : t.Splits ts)
    (o : ResolveOptions) (d : Document) (id : Nat) (origin : Origin) (us vs : List Entry) :
    SameWinners (us ++ ofStatement o d id origin t ++ vs)
      (us ++ ts.flatMap (ofStatement o d id origin) ++ vs) := by
  cases h with
  | ruleset r =>
    have hparts : (r.parts.map Statement.ruleset).flatMap (ofStatement o d id origin) =
        r.parts.flatMap (ofRuleset o d id origin) := by
      rw [List.flatMap_map]
      exact List.flatMap_congr fun r' _ => List.flatMap_singleton ..
    have hgroup : ofStatement o d id origin (.ruleset r) = ofRuleset o d id origin r :=
      List.flatMap_singleton ..
    rw [hparts, hgroup]
    exact sameWinners_parts o d id origin r us vs
  | media names r as bs =>
    rw [List.flatMap_singleton, ofStatement, ofStatement, Statement.applicable,
      Statement.applicable]
    split
    · simpa using sameWinners_parts o d id origin r (us ++ as.flatMap (ofRuleset o d id origin))
        (bs.flatMap (ofRuleset o d id origin) ++ vs)
    · exact .refl _

namespace Cascade

variable {c c' : Cascade}

theorem Splits.sameWinners (h : c.Splits c') (o : ResolveOptions) (d : Document) (id : Nat) :
    Entry.SameWinners (c.entries o d id) (c'.entries o d id) := by
  obtain ⟨origin, s, s', hs, ⟨as, t, ts, bs, ht, hstatements, rfl⟩, rfl⟩ := h
  by_cases helement : d.isElement id = true
  · obtain ⟨us, vs, hsheets, hput⟩ := sheets_put hs ⟨as ++ ts ++ bs⟩
    rw [entries_eq_flatMap _ o helement, entries_eq_flatMap _ o helement, hsheets, hput]
    let ofSheet (a : Origin × Sheet) := a.2.statements.flatMap (Entry.ofStatement o d id a.1)
    have hsame := Entry.sameWinners_statement ht o d id origin
      (us.flatMap ofSheet ++ as.flatMap (Entry.ofStatement o d id origin))
      (bs.flatMap (Entry.ofStatement o d id origin) ++ vs.flatMap ofSheet)
    simpa [ofSheet, hstatements] using hsame
  · rw [entries, entries, if_neg helement, if_neg helement]
    exact .refl _

/-- **A group is the same as its parts.**  With the parts of a group of chains in the place of the
group, a node has the same style, and the same declarations win for it, from the same sheets and
with the same specificities. -/
theorem resolve_splits (h : c.Splits c') (o : ResolveOptions) (d : Document) (parent : Style)
    (id : Nat) : c'.resolve o d parent id = c.resolve o d parent id ∧
      ∀ e : Entry, (∃ i, e.candidate i ∈ c'.winners o d id) ↔
        ∃ i, e.candidate i ∈ c.winners o d id := by
  obtain ⟨f, hf, heq⟩ := h.sameWinners o d id
  rw [← candidates_eq, ← candidates_eq] at heq
  have hsorted : c'.sortedWinners o d id = (c.sortedWinners o d id).map (renumber f) := heq
  constructor
  · rw [resolve_eq, resolve_eq, assigned, assigned, hsorted, Style.run_map_renumber]
  · intro e
    have hmem : ∀ {c : Cascade} {w : Candidate},
        w ∈ c.winners o d id ↔ w ∈ c.sortedWinners o d id :=
      List.mem_mergeSort.symm
    simp only [hmem, hsorted, List.mem_map]
    constructor
    · rintro ⟨i, ⟨x, origin, s, j⟩, hw, hrenumber⟩
      obtain ⟨x', origin', s'⟩ := e
      obtain ⟨rfl, rfl, rfl, -⟩ := Candidate.mk.inj hrenumber
      exact ⟨j, hw⟩
    · rintro ⟨i, hi⟩
      exact ⟨f i, e.candidate i, hi, rfl⟩

/-- A group of which both chains match a paragraph: `p, * { color: red }`, inside of `@media`. -/
theorem resolve_splits_paragraph_any :
    let group : Ruleset := ⟨⟨[⟨[{ name := some "p" }]⟩, ⟨[{}]⟩]⟩, [.color "red"]⟩
    let c : Cascade := { author := some ⟨[.media ["print"] [group]]⟩ }
    let c' : Cascade := { author := some ⟨[.media ["print"] group.parts]⟩ }
    c.Splits c' ∧
      c'.resolve {} .paragraph .initial 1 = c.resolve {} .paragraph .initial 1 ∧
      ∀ e : Entry, (∃ i, e.candidate i ∈ c'.winners {} .paragraph 1) ↔
        ∃ i, e.candidate i ∈ c.winners {} .paragraph 1 := by
  intro group c c'
  have hsplits : c.Splits c' :=
    ⟨.author, _, _, rfl, ⟨[], _, _, [], .media ["print"] group [] [], rfl, rfl⟩, rfl⟩
  exact ⟨hsplits, resolve_splits hsplits {} .paragraph .initial 1⟩

end Cascade

end Css2
