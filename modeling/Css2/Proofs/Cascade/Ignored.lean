import Css2.Proofs.Cascade.LastWriter
import Css2.Proofs.Cascade.Settled

/-!
# Declarations that are ignored

A declaration that no style takes is ignored when it is applied.  But winners are chosen before
values are looked at, so such a declaration may win, and then it hides what it won against
(`Cascade.not_resolve_drops`).  That is all that it can do: without it the style is the same unless
it was a winner and a declaration that is not ignored wins in its place (`Cascade.resolve_drops`).
-/

namespace Css2

/-! ### Applying what is ignored -/

/-- No style takes the declaration, whatever the style of the parent is. -/
def Declaration.Ignored (d : Declaration) : Prop :=
  ∀ s parent : Style, s.applied? parent d = none

/-- The candidates whose declarations are not ignored. -/
noncomputable def legal (ws : List Candidate) : List Candidate := by
  classical exact ws.filter fun w => ¬ w.declaration.Ignored

theorem mem_legal {ws : List Candidate} {w : Candidate} :
    w ∈ legal ws ↔ w ∈ ws ∧ ¬ w.declaration.Ignored := by
  simp [legal]

theorem Style.run_legal (s parent : Style) (ws : List Candidate) :
    s.run parent (legal ws) = s.run parent ws := by
  induction ws generalizing s with
  | nil => rfl
  | cons w ws ih =>
    by_cases hw : w.declaration.Ignored
    · have hsame : s.apply parent w.declaration = s := by rw [apply, hw s parent]; rfl
      have hlegal : legal (w :: ws) = legal ws := by simp [legal, hw]
      rw [hlegal, ih]
      show s.run parent ws = (s.apply parent w.declaration).run parent ws
      rw [hsame]
    · have hlegal : legal (w :: ws) = w :: legal ws := by simp [legal, hw]
      rw [hlegal]
      exact ih (s.apply parent w.declaration)

/-! ### Positions -/

namespace Candidate

def renumber (f : ℕ → ℕ) (c : Candidate) : Candidate :=
  { c with order := f c.order }

variable {f : ℕ → ℕ}

theorem key_renumber_lt_iff (hf : StrictMono f) (a b : Candidate) :
    (a.renumber f).key < (b.renumber f).key ↔ a.key < b.key := by
  rw [SortKey.lt_iff_parts, SortKey.lt_iff_parts]
  simp only [key, renumber, hf.lt_iff_lt]

theorem turn_renumber_lt (hf : StrictMono f) {a b : Candidate} (h : a.turn < b.turn) :
    (a.renumber f).turn < (b.renumber f).turn := by
  rw [turn, turn, Prod.Lex.toLex_lt_toLex] at h ⊢
  exact h.imp_right fun h => h.imp_right (key_renumber_lt_iff hf a b).2

theorem renumber_injective (hf : StrictMono f) : Function.Injective (renumber f) := by
  intro a b h
  obtain ⟨_, _, _, _⟩ := a
  obtain ⟨_, _, _, _⟩ := b
  simp only [renumber, mk.injEq] at h ⊢
  exact h.imp_right fun h => h.imp_right fun h => h.imp_right fun h => hf.injective h

theorem Wins.eq {cs : List Candidate} {a b : Candidate} (ha : a.Wins cs) (hb : b.Wins cs)
    (hp : a.property = b.property) : a = b := by
  by_contra hne
  exact lt_asymm (hb.2 a ha.1 hp hne) (ha.2 b hb.1 hp.symm (Ne.symm hne))

end Candidate

theorem Style.run_map_renumber (s parent : Style) (f : ℕ → ℕ) (ws : List Candidate) :
    s.run parent (ws.map (Candidate.renumber f)) = s.run parent ws := by
  rw [run, run, List.map_map]
  rfl

/-! ### One more candidate -/

/-- The candidates `cs` are `x` and, at other positions in the same order, the candidates `ds`. -/
structure Adds (f : ℕ → ℕ) (x : Candidate) (cs ds : List Candidate) : Prop where
  mono : StrictMono f
  mem_iff : ∀ c, c ∈ cs ↔ c = x ∨ ∃ d ∈ ds, c = d.renumber f

namespace Adds

open Candidate Cascade

variable {f : ℕ → ℕ} {x : Candidate} {cs ds : List Candidate}

theorem mem (h : Adds f x cs ds) {d : Candidate} (hd : d ∈ ds) : d.renumber f ∈ cs :=
  (h.mem_iff _).2 (.inr ⟨d, hd, rfl⟩)

theorem wins (h : Adds f x cs ds) {d : Candidate} (hd : d ∈ ds) (hw : (d.renumber f).Wins cs) :
    d.Wins ds := by
  refine ⟨hd, ?_⟩
  intro c hc hp hne
  rw [← key_renumber_lt_iff h.mono]
  exact hw.2 _ (h.mem hc) hp ((renumber_injective h.mono).ne hne)

/-- What wins without the candidate wins with it, or the candidate wins in its place. -/
theorem wins_or_wins (h : Adds f x cs ds) (hcs : Numbered cs) {d : Candidate} (hw : d.Wins ds) :
    (d.renumber f).Wins cs ∨ x.Wins cs ∧ x.property = d.property := by
  obtain ⟨v, hv, hp⟩ := exists_wins hcs (h.mem hw.1)
  rcases (h.mem_iff v).1 hv.1 with rfl | ⟨c, hc, rfl⟩
  · exact .inr ⟨hv, hp⟩
  · obtain rfl := (h.wins hc hv).eq hw hp
    exact .inl hv

/-- If the candidate is ignored and nothing legal wins in its place, then the same legal candidates
have their turns, in the same order. -/
theorem legal_inTurn (h : Adds f x cs ds) (hcs : Numbered cs) (hds : Numbered ds)
    (hx : x.declaration.Ignored)
    (hhides : ∀ d : Candidate, d.Wins ds → x.Wins cs → x.property = d.property →
      d.declaration.Ignored) :
    legal (inTurn cs) = (legal (inTurn ds)).map (renumber f) := by
  have hsorted : ∀ {ws}, Numbered ws → (legal (inTurn ws)).Pairwise fun a b => a.turn < b.turn :=
    fun hws => (pairwise_inTurn hws).filter _
  refine eq_of_pairwise_turn (hsorted hcs) ?_ ?_
  · exact List.pairwise_map.2 ((hsorted hds).imp (turn_renumber_lt h.mono))
  · intro c
    rw [mem_legal, mem_inTurn_iff hcs, List.mem_map]
    constructor
    · rintro ⟨hw, hlegal⟩
      rcases (h.mem_iff c).1 hw.1 with rfl | ⟨d, hd, rfl⟩
      · exact absurd hx hlegal
      · exact ⟨d, mem_legal.2 ⟨(mem_inTurn_iff hds).2 (h.wins hd hw), hlegal⟩, rfl⟩
    · rintro ⟨d, hd, rfl⟩
      obtain ⟨hd, hlegal⟩ := mem_legal.1 hd
      have hw := (mem_inTurn_iff hds).1 hd
      refine ⟨(h.wins_or_wins hcs hw).resolve_right ?_, hlegal⟩
      intro hwins
      exact hlegal (hhides d hw hwins.1 hwins.2)

end Adds

/-! ### One more entry -/

namespace Entry

/-- The positions behind a new entry move on by one. -/
def shift (n i : ℕ) : ℕ :=
  if i < n then i else i + 1

theorem strictMono_shift (n : ℕ) : StrictMono (shift n) := by
  intro i j hij
  simp only [shift]
  split <;> split <;> omega

theorem getElem?_shift {α : Type} (as bs : List α) (a : α) (i : ℕ) :
    (as ++ a :: bs)[shift as.length i]? = (as ++ bs)[i]? := by
  by_cases hi : i < as.length
  · rw [shift, if_pos hi, List.getElem?_append_left hi, List.getElem?_append_left hi]
  · rw [shift, if_neg hi, List.getElem?_append_right (by omega),
      List.getElem?_append_right (by omega), Nat.succ_sub (by omega), List.getElem?_cons_succ]

theorem exists_shift_eq {n i : ℕ} (h : i ≠ n) : ∃ j, shift n j = i := by
  rcases Nat.lt_or_gt_of_ne h with hlt | hgt
  · exact ⟨i, if_pos hlt⟩
  · refine ⟨i - 1, ?_⟩
    rw [shift, if_neg (by omega)]
    omega

theorem adds_number (as bs : List Entry) (e : Entry) :
    Adds (shift as.length) (e.candidate as.length) (number (as ++ e :: bs))
      (number (as ++ bs)) where
  mono := strictMono_shift _
  mem_iff c := by
    rw [mem_number]
    constructor
    · rintro ⟨i, a, hget, rfl⟩
      by_cases hi : i = as.length
      · left
        rw [hi, List.getElem?_append_right le_rfl, Nat.sub_self, List.getElem?_cons_zero,
          Option.some_inj] at hget
        rw [hi, hget]
      · right
        obtain ⟨j, rfl⟩ := exists_shift_eq hi
        rw [getElem?_shift] at hget
        exact ⟨a.candidate j, mem_number.2 ⟨j, a, hget, rfl⟩, rfl⟩
    · rintro (rfl | ⟨d, hd, rfl⟩)
      · exact ⟨as.length, e, by simp, rfl⟩
      · obtain ⟨j, a, hget, rfl⟩ := mem_number.1 hd
        exact ⟨shift as.length j, a, by rw [getElem?_shift, hget], rfl⟩

end Entry

/-! ### Without a declaration -/

/-- The ruleset `r'` is `r` without one of the occurrences of a declaration. -/
def Ruleset.Drops (x : Declaration) (r r' : Ruleset) : Prop :=
  ∃ as bs, r.declarations = as ++ x :: bs ∧ r' = { r with declarations := as ++ bs }

/-- A statement without one of the occurrences of a declaration. -/
inductive Statement.Drops (x : Declaration) : Statement → Statement → Prop
  | ruleset {r r' : Ruleset} (h : r.Drops x r') : Drops x (.ruleset r) (.ruleset r')
  | media (names : List String) {r r' : Ruleset} (h : r.Drops x r') (as bs : List Ruleset) :
    Drops x (.media names (as ++ r :: bs)) (.media names (as ++ r' :: bs))
  | page (name pseudo : Option String) (as bs : List Declaration) :
    Drops x (.page name pseudo (as ++ x :: bs)) (.page name pseudo (as ++ bs))
  | fontFace (as bs : List Declaration) :
    Drops x (.fontFace (as ++ x :: bs)) (.fontFace (as ++ bs))

/-- The sheet `s'` is `s` without one of the occurrences of a declaration. -/
def Sheet.Drops (x : Declaration) (s s' : Sheet) : Prop :=
  ∃ as t t' bs, t.Drops x t' ∧ s.statements = as ++ t :: bs ∧ s' = ⟨as ++ t' :: bs⟩

/-- The cascade `c'` is `c` without one of the occurrences of a declaration, in any of the
sheets. -/
def Cascade.Drops (x : Declaration) (c c' : Cascade) : Prop :=
  ∃ o s s', c.sheet? o = some s ∧ s.Drops x s' ∧ c' = c.put o (some s')

/-- A list without an element that has the property `p`, or the list itself. -/
def Omits {α : Type} (p : α → Prop) (l l' : List α) : Prop :=
  l' = l ∨ ∃ as a bs, p a ∧ l = as ++ a :: bs ∧ l' = as ++ bs

namespace Omits

variable {α β : Type} {p : α → Prop}

theorem refl (l : List α) : Omits p l l :=
  .inl rfl

theorem append {l l' : List α} (h : Omits p l l') (as bs : List α) :
    Omits p (as ++ l ++ bs) (as ++ l' ++ bs) := by
  rcases h with rfl | ⟨cs, a, ds, ha, rfl, rfl⟩
  · exact .refl _
  · exact .inr ⟨as ++ cs, a, ds ++ bs, ha, by simp, by simp⟩

theorem flatMap {f : β → List α} {b b' : β} (h : Omits p (f b) (f b')) (as bs : List β) :
    Omits p ((as ++ b :: bs).flatMap f) ((as ++ b' :: bs).flatMap f) := by
  simpa using h.append (as.flatMap f) (bs.flatMap f)

end Omits

namespace Entry

variable {x : Declaration} (o : ResolveOptions) (d : Document) (id : Nat) (origin : Origin)

theorem omits_ofRuleset {r r' : Ruleset} (h : r.Drops x r') :
    Omits (fun e => e.declaration = x) (ofRuleset o d id origin r)
      (ofRuleset o d id origin r') := by
  obtain ⟨as, bs, hdecls, rfl⟩ := h
  rw [ofRuleset, ofRuleset]
  cases r.selector.matchSpecificity? o.matching d id with
  | none => exact .refl _
  | some s =>
    refine .inr ⟨as.map fun a => ⟨a, origin, s⟩, ⟨x, origin, s⟩, bs.map fun b => ⟨b, origin, s⟩,
      rfl, ?_, ?_⟩
    · simp [hdecls]
    · simp

theorem omits_ofStatement {t t' : Statement} (h : t.Drops x t') :
    Omits (fun e => e.declaration = x) (ofStatement o d id origin t)
      (ofStatement o d id origin t') := by
  cases h with
  | ruleset h => simpa [ofStatement, Statement.applicable] using omits_ofRuleset o d id origin h
  | media names h as bs =>
    rw [ofStatement, ofStatement, Statement.applicable, Statement.applicable]
    split
    · exact (omits_ofRuleset o d id origin h).flatMap as bs
    · exact .refl _
  | page | fontFace => exact .refl _

end Entry

namespace Cascade

variable {x : Declaration} {c c' : Cascade}

theorem sheet?_put_self (c : Cascade) (o : Origin) (s : Option Sheet) :
    (c.put o s).sheet? o = s := by
  cases o <;> rfl

theorem sheet?_put_of_ne (c : Cascade) {o a : Origin} (s : Option Sheet) (h : a ≠ o) :
    (c.put o s).sheet? a = c.sheet? a := by
  cases o <;> cases a <;> first | rfl | exact absurd rfl h

theorem sheets_put {o : Origin} {s : Sheet} (h : c.sheet? o = some s) (s' : Sheet) :
    ∃ as bs, c.sheets = as ++ (o, s) :: bs ∧ (c.put o (some s')).sheets = as ++ (o, s') :: bs := by
  obtain ⟨us, vs, hall⟩ := List.append_of_mem (show o ∈ Origin.all by cases o <;> decide)
  have hnodup : (us ++ o :: vs).Nodup := hall ▸ by decide
  obtain ⟨hnot, -⟩ := List.nodup_cons.1 (List.nodup_middle.1 hnodup)
  have hsame : ∀ a ∈ us ++ vs, (c.put o (some s')).sheet? a = c.sheet? a := by
    intro a ha
    exact sheet?_put_of_ne c _ fun heq => hnot (heq ▸ ha)
  refine ⟨us.filterMap fun a => (c.sheet? a).map fun t => (a, t),
    vs.filterMap fun a => (c.sheet? a).map fun t => (a, t), ?_, ?_⟩
  · rw [sheets, hall, List.filterMap_append, List.filterMap_cons, h]
    rfl
  · rw [sheets, hall, List.filterMap_append, List.filterMap_cons, sheet?_put_self]
    exact congrArg₂ (fun as bs => as ++ (o, s') :: bs)
      (List.filterMap_congr fun a ha => by rw [hsame a (List.mem_append_left _ ha)])
      (List.filterMap_congr fun a ha => by rw [hsame a (List.mem_append_right _ ha)])

theorem Drops.omits_entries (h : c.Drops x c') (o : ResolveOptions) (d : Document) (id : Nat) :
    Omits (fun e => e.declaration = x) (c.entries o d id) (c'.entries o d id) := by
  obtain ⟨origin, s, s', hs, ⟨as, t, t', bs, ht, hstatements, rfl⟩, rfl⟩ := h
  by_cases helement : d.isElement id = true
  · obtain ⟨us, vs, hsheets, hput⟩ := sheets_put hs ⟨as ++ t' :: bs⟩
    rw [entries_eq_flatMap _ o helement, entries_eq_flatMap _ o helement, hsheets, hput]
    refine Omits.flatMap ?_ us vs
    rw [hstatements]
    exact (Entry.omits_ofStatement o d id origin ht).flatMap as bs
  · rw [entries, entries, if_neg helement, if_neg helement]
    exact .refl _

/-! ### A paragraph -/

end Cascade

def Document.paragraph : Document :=
  ⟨[{ kind := .document, children := [1] }, { kind := .element "p" [], parent := some 0 }]⟩

def Selector.paragraphs : Selector :=
  ⟨[⟨[{ name := some "p" }]⟩]⟩

/-- A cascade with declarations of the author for paragraphs. -/
def Cascade.ofParagraphs (ds : List Declaration) : Cascade :=
  { author := some ⟨[.ruleset ⟨.paragraphs, ds⟩]⟩ }

/-- A declaration of the color of the text by a word. -/
def Declaration.color (word : String) : Declaration :=
  ⟨"color", [⟨.ident word, none, none⟩], false⟩

theorem Declaration.settings?_color {word : String} (hword : sameName "inherit" word = false)
    (em : Float) (parent : Style) : (color word).settings? em parent =
      (readColor ⟨.ident word, none, none⟩).map fun v => [⟨.color, v⟩] := by
  have hproperty : Property.ofName? (color word).property = some (.longhand .color) :=
    show Property.ofName? "color" = _ by decide +kernel
  have hinherit : (color word).isInherit = false := hword
  rw [settings?, hproperty, hinherit]
  rfl

theorem Declaration.ignored_color_foo : (color "foo").Ignored := by
  intro s parent
  have hread : readColor ⟨.ident "foo", none, none⟩ = none := by decide +kernel
  rw [Style.applied?, settings?_color (by decide +kernel), hread]
  rfl

theorem Style.color_finalize (s : Style) : s.finalize.color = s.color := by
  have hborder (t : Style) (side : Side) : (t.settleBorder side).color = t.color :=
    t.get_settleBorder_of_ne (l := .color) (by simp) (by simp)
  have hdisplay (t : Style) : t.settleDisplay.color = t.color :=
    t.get_settleDisplay_of_ne (l := .color) (by simp) (by simp)
  rw [finalize, hdisplay]
  simp only [Side.all, List.foldl_cons, List.foldl_nil, hborder]

namespace Cascade

theorem drops_ofParagraphs (as bs : List Declaration) (x : Declaration) :
    (ofParagraphs (as ++ x :: bs)).Drops x (ofParagraphs (as ++ bs)) :=
  ⟨.author, _, _, rfl, ⟨[], _, _, [], .ruleset ⟨as, bs, rfl, rfl⟩, rfl, rfl⟩, rfl⟩

theorem entries_ofParagraphs (ds : List Declaration) :
    (ofParagraphs ds).entries {} .paragraph 1 = ds.map fun x => ⟨x, .author, ⟨0, 0, 1⟩⟩ := by
  have hselects : Selector.paragraphs.matchSpecificity? {} .paragraph 1 = some ⟨0, 0, 1⟩ := by
    decide +kernel
  have hruleset : Entry.ofRuleset {} .paragraph 1 .author ⟨.paragraphs, ds⟩ =
      ds.map fun x => ⟨x, .author, ⟨0, 0, 1⟩⟩ := by
    simp only [Entry.ofRuleset, hselects]
  show Entry.ofRuleset {} .paragraph 1 .author ⟨.paragraphs, ds⟩ ++ [] = _
  rw [hruleset, List.append_nil]

theorem winners_colors (first second : String) :
    (ofParagraphs [.color first, .color second]).winners {} .paragraph 1 =
      [⟨.color second, .author, ⟨0, 0, 1⟩, 1⟩] := by
  rw [winners, candidates_eq, entries_ofParagraphs]
  refine compete_singleton_of_lt rfl ((SortKey.lt_iff_parts _ _).2 ?_)
  exact .inr ⟨rfl, .inr ⟨rfl, Nat.zero_lt_one⟩⟩

/-- The color of a paragraph with one winner is what that winner makes of the initial color. -/
theorem color_resolve_ofParagraphs {ds : List Declaration} {w : Candidate}
    (hw : (ofParagraphs ds).winners {} .paragraph 1 = [w]) :
    ((ofParagraphs ds).resolve {} .paragraph .initial 1).color =
      ((Style.inheritFrom .initial).apply .initial w.declaration).color := by
  have helement : Document.paragraph.isElement 1 = true := rfl
  rw [resolve_eq, if_pos helement, Style.color_finalize, assigned, sortedWinners, hw,
    List.mergeSort_singleton]
  rfl

/-! ### Without an ignored declaration -/

variable {x : Declaration} {c c' : Cascade}

/-- Where an ignored declaration hides nothing legal, the same values are assigned without it. -/
theorem Drops.assigned_eq {o : ResolveOptions} {d : Document} {id : Nat} (h : c.Drops x c')
    (hx : x.Ignored) (hhides : ∀ w ∈ c.winners o d id, ∀ v ∈ c'.winners o d id,
      w.declaration = x → v.property = w.property → v.declaration.Ignored) (parent : Style) :
    c'.assigned o d parent id = c.assigned o d parent id := by
  rcases h.omits_entries o d id with heq | ⟨as, e, bs, he, hc, hc'⟩
  · have hsorted : c'.sortedWinners o d id = c.sortedWinners o d id := by
      rw [sortedWinners, sortedWinners, winners, winners, candidates_eq, candidates_eq, heq]
    rw [assigned, assigned, hsorted]
  · obtain rfl : e.declaration = x := he
    have hadds := Entry.adds_number as bs e
    rw [← hc, ← hc', ← candidates_eq, ← candidates_eq] at hadds
    have hlegal : legal (c.sortedWinners o d id) =
        (legal (c'.sortedWinners o d id)).map (Candidate.renumber (Entry.shift as.length)) := by
      refine hadds.legal_inTurn (numbered_candidates c o d id) (numbered_candidates c' o d id) hx ?_
      intro v hv hw hp
      exact hhides _ (mem_winners_iff.2 hw) v (mem_winners_iff.2 hv) rfl hp.symm
    rw [assigned, assigned, ← Style.run_legal _ _ (c.sortedWinners o d id), hlegal,
      Style.run_map_renumber, Style.run_legal]

/-- **What an ignored declaration can do** is to win over one that is not ignored.  Without it the
style is the same, unless it was a winner and a legal declaration wins in its place. -/
theorem resolve_drops (o : ResolveOptions) (d : Document) (parent : Style) (id : Nat)
    (hdrops : c.Drops x c') (hx : x.Ignored) :
    c'.resolve o d parent id = c.resolve o d parent id ∨
      ∃ w ∈ c.winners o d id, ∃ v ∈ c'.winners o d id,
        w.declaration = x ∧ v.property = w.property ∧ ¬ v.declaration.Ignored := by
  by_cases hhides : ∀ w ∈ c.winners o d id, ∀ v ∈ c'.winners o d id,
      w.declaration = x → v.property = w.property → v.declaration.Ignored
  · left
    rw [resolve_eq, resolve_eq, hdrops.assigned_eq hx hhides]
  · right
    push Not at hhides
    exact hhides

/-- An ignored declaration that does not win does not matter. -/
theorem resolve_drops_color_foo :
    (ofParagraphs [.color "foo", .color "red"]).Drops (.color "foo") (ofParagraphs [.color "red"]) ∧
    (Declaration.color "foo").Ignored ∧
    (ofParagraphs [.color "red"]).resolve {} .paragraph .initial 1 =
      (ofParagraphs [.color "foo", .color "red"]).resolve {} .paragraph .initial 1 := by
  have hdrops : (ofParagraphs [.color "foo", .color "red"]).Drops (.color "foo")
      (ofParagraphs [.color "red"]) := drops_ofParagraphs [] [.color "red"] (.color "foo")
  have hignored := Declaration.ignored_color_foo
  refine ⟨hdrops, hignored, ?_⟩
  refine (resolve_drops {} .paragraph .initial 1 hdrops hignored).resolve_right ?_
  rintro ⟨w, hw, _, _, hfoo, _⟩
  have hred : w = ⟨.color "red", .author, ⟨0, 0, 1⟩, 1⟩ := by
    rw [winners_colors] at hw
    exact List.mem_singleton.1 hw
  rw [hred] at hfoo
  simp [Declaration.color] at hfoo

/-- **An ignored declaration may hide one that is not ignored**: `color: foo` behind `color: red`
makes a paragraph black. -/
theorem not_resolve_drops : ¬ ∀ (x : Declaration) (c c' : Cascade) (o : ResolveOptions)
    (d : Document) (parent : Style) (id : Nat), d.isElement id = true → c.Drops x c' →
      x.Ignored → c'.resolve o d parent id = c.resolve o d parent id := by
  intro h
  have hsame := h _ _ _ {} .paragraph .initial 1 rfl
    (drops_ofParagraphs [.color "red"] [] (.color "foo")) Declaration.ignored_color_foo
  have hread : readColor ⟨.ident "red", none, none⟩ = some ⟨255, 0, 0⟩ := by decide +kernel
  have hred : ((ofParagraphs [.color "red"]).resolve {} .paragraph .initial 1).color =
      ⟨255, 0, 0⟩ := by
    have hw : (ofParagraphs [.color "red"]).winners {} .paragraph 1 =
        [⟨.color "red", .author, ⟨0, 0, 1⟩, 0⟩] := by
      rw [winners, candidates_eq, entries_ofParagraphs]
      rfl
    rw [color_resolve_ofParagraphs hw, Style.apply, Style.applied?,
      Declaration.settings?_color (by decide +kernel), hread]
    rfl
  have hblack : ((ofParagraphs [.color "red", .color "foo"]).resolve {} .paragraph .initial
      1).color = .black := by
    rw [color_resolve_ofParagraphs (winners_colors _ _), Style.apply, Declaration.ignored_color_foo]
    rfl
  have hcolor : (⟨255, 0, 0⟩ : Rgb) = .black :=
    hred.symm.trans ((congrArg Style.color hsame).trans hblack)
  exact absurd hcolor (by decide)

end Cascade

end Css2
