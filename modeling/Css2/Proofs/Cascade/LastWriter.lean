import Css2.Proofs.Cascade.Competition
import Css2.Proofs.Style.Relative

/-!
# The last writer

Winners are applied one after the other, the size of the font before everything else, so a longhand
has the value that the last of them gives it (`Style.exists_last`).  A shorthand and its longhands
meet only here, and the last one is the one with the greatest key, since all winners that name a
longhand have their turns on the same side of the size of the font.

Behind the size of the font its size does not change any more (`Style.fontSize_run_of_turn`).  So
what is relative to it is relative to the size that the element has in the end, wherever that was
declared (`Cascade.get_assigned`).
-/

namespace Css2

/-! ### The size of the font -/

namespace Property

theorem ofName?_congr {a b : String} (h : sameName a b = true) : ofName? a = ofName? b := by
  have hlower : a.toLower = b.toLower := beq_iff_eq.1 h
  simp only [ofName?, sameName, hlower]

theorem ofName?_fontSize : ofName? "font-size" = some (longhand .fontSize) := by decide +kernel

end Property

/-- The candidates that are applied first are those that name the size of the font. -/
theorem Candidate.setsFontSize_iff (c : Candidate) :
    c.setsFontSize = true ↔ c.declaration.Names .fontSize := by
  constructor
  · intro h
    exact ⟨_, (Property.ofName?_congr h).trans Property.ofName?_fontSize, List.mem_singleton.2 rfl⟩
  · rintro ⟨p, hp, hl⟩
    rw [Property.eq_of_mem_longhands (.inl rfl) hl] at hp
    rw [Property.ofName?] at hp
    have hname := List.find?_some hp
    rw [setsFontSize, sameName, beq_iff_eq]
    exact (beq_iff_eq.1 hname).symm

/-- Winners that name the same longhand are applied in the order of their keys. -/
theorem Candidate.key_lt_of_turn_lt {a b : Candidate} {l : Longhand} (ha : a.declaration.Names l)
    (hb : b.declaration.Names l) (h : a.turn < b.turn) : a.key < b.key := by
  have hsame : a.setsFontSize = b.setsFontSize := by
    rw [Bool.eq_iff_iff, setsFontSize_iff, setsFontSize_iff]
    constructor
    · intro hfont
      rwa [← Declaration.eq_of_names (.inl rfl) hfont ha]
    · intro hfont
      rwa [← Declaration.eq_of_names (.inl rfl) hfont hb]
  rw [turn, turn, hsame, Prod.Lex.toLex_lt_toLex] at h
  exact (h.resolve_left (lt_irrefl _)).2

/-! ### Runs -/

namespace Style

/-- The style after some candidates have been applied. -/
def run (s parent : Style) (ws : List Candidate) : Style :=
  s.applyAll parent (ws.map Candidate.declaration)

variable {s parent : Style}

theorem run_append_singleton (ws : List Candidate) (w : Candidate) :
    s.run parent (ws ++ [w]) = (s.run parent ws).apply parent w.declaration := by
  simp [run, applyAll]

/-- A candidate writes a longhand when it names it and is applied when its turn comes. -/
def Writes (s parent : Style) (ws : List Candidate) (l : Longhand) (w : Candidate) : Prop :=
  w.declaration.Names l ∧ ∃ xs ys, ws = xs ++ w :: ys ∧
    ((s.run parent xs).applied? parent w.declaration).isSome

theorem Writes.mem {ws : List Candidate} {l : Longhand} {w : Candidate}
    (h : s.Writes parent ws l w) : w ∈ ws := by
  obtain ⟨_, xs, ys, rfl, _⟩ := h
  simp

theorem writes_append_singleton {ws : List Candidate} {l : Longhand} {c w : Candidate} :
    s.Writes parent (ws ++ [c]) l w ↔ s.Writes parent ws l w ∨
      w = c ∧ c.declaration.Sets (s.run parent ws).fontSize parent l := by
  constructor
  · rintro ⟨hnames, xs, ys, hsplit, happlied⟩
    rcases List.eq_nil_or_concat ys with rfl | ⟨ys, y, rfl⟩
    · obtain ⟨rfl, hc⟩ := List.append_inj' hsplit rfl
      obtain rfl := List.singleton_inj.1 hc
      rw [applied?, Option.isSome_map] at happlied
      exact .inr ⟨rfl, hnames, happlied⟩
    · rw [List.concat_eq_append, ← List.cons_append, ← List.append_assoc] at hsplit
      exact .inl ⟨hnames, xs, ys, (List.append_inj' hsplit rfl).1, happlied⟩
  · rintro (⟨hnames, xs, ys, rfl, happlied⟩ | ⟨rfl, hnames, hsome⟩)
    · exact ⟨hnames, xs, ys ++ [c], by simp, happlied⟩
    · exact ⟨hnames, ws, [], rfl, by rwa [applied?, Option.isSome_map]⟩

/-- **The last writer.**  A longhand has the value that the last of its writers gave it, or the one
that it had before the run if nothing writes it. -/
theorem exists_last {R : Candidate → Candidate → Prop} {ws : List Candidate} (h : ws.Pairwise R)
    (l : Longhand) :
    (∃ xs w ys, ws = xs ++ w :: ys ∧
      w.declaration.Sets (s.run parent xs).fontSize parent l ∧
      (∀ v, s.Writes parent ws l v → v ≠ w → R v w) ∧
      (s.run parent ws).get l = ((s.run parent xs).apply parent w.declaration).get l) ∨
    (∀ w, ¬ s.Writes parent ws l w) ∧ (s.run parent ws).get l = s.get l := by
  induction ws using List.reverseRecOn with
  | nil =>
    refine .inr ⟨?_, rfl⟩
    intro w hw
    cases hw.mem
  | append_singleton ws c ih =>
    obtain ⟨hws, -, hlast⟩ := List.pairwise_append.1 h
    rw [run_append_singleton]
    by_cases hc : c.declaration.Sets (s.run parent ws).fontSize parent l
    · -- the last one writes, and everything else came before it
      refine .inl ⟨ws, c, [], rfl, hc, ?_, rfl⟩
      intro v hv hne
      have hmem := (writes_append_singleton.1 hv).resolve_right fun heq => hne heq.1
      exact hlast v hmem.mem c (List.mem_singleton.2 rfl)
    · have hsame : ∀ v, s.Writes parent (ws ++ [c]) l v → s.Writes parent ws l v := by
        intro v hv
        exact (writes_append_singleton.1 hv).resolve_right fun heq => hc heq.2
      rw [get_apply_of_not_sets hc]
      rcases ih hws with ⟨xs, w, ys, rfl, hset, hbefore, hget⟩ | ⟨hnone, hget⟩
      · exact .inl ⟨xs, w, ys ++ [c], by simp, hset, fun v hv => hbefore v (hsame v hv), hget⟩
      · exact .inr ⟨fun w hw => hnone w (hsame w hw), hget⟩

theorem fontSize_run_append {xs ys : List Candidate} (h : ∀ y ∈ ys, y.setsFontSize = false) :
    (s.run parent (xs ++ ys)).fontSize = (s.run parent xs).fontSize := by
  induction ys using List.reverseRecOn with
  | nil => rw [List.append_nil]
  | append_singleton ys y ih =>
    have hy : ¬ y.declaration.Names .fontSize := by
      rw [← Candidate.setsFontSize_iff, h y (by simp)]
      exact Bool.false_ne_true
    rw [← List.append_assoc, run_append_singleton,
      ← ih fun z hz => h z (List.mem_append_left _ hz)]
    exact get_apply_of_not_sets (l := .fontSize) fun hset => hy hset.1

/-- When the turn of anything else comes, the font has the size that it has in the end. -/
theorem fontSize_run_of_turn {xs ys : List Candidate} {w : Candidate}
    (h : (xs ++ w :: ys).Pairwise fun a b => a.turn < b.turn) (hw : w.setsFontSize = false) :
    (s.run parent (xs ++ w :: ys)).fontSize = (s.run parent xs).fontSize := by
  apply fontSize_run_append
  intro y hy
  rcases List.mem_cons.1 hy with rfl | hy
  · exact hw
  · have hlt := (List.pairwise_cons.1 (List.pairwise_append.1 h).2.1).1 y hy
    rw [Candidate.turn, Candidate.turn, Prod.Lex.toLex_lt_toLex, hw] at hlt
    cases hfont : y.setsFontSize with
    | false => rfl
    | true =>
      simp [hfont, Bool.lt_iff] at hlt

end Style

/-! ### Values -/

/-- The size of the font that lengths are relative to: that of the parent for the size of the font
itself, and that of the element for everything else. -/
def Longhand.reference (l : Longhand) (s parent : Style) : Float :=
  if l = .fontSize then parent.fontSize else s.fontSize

/-- A longhand has the value that a declaration gives it. -/
structure Style.HasFrom (s parent : Style) (d : Declaration) (l : Longhand) : Prop where
  /-- It is the value that the declaration alone gives a style with the same size of the font. -/
  alone : ∀ t : Style, t.fontSize = s.fontSize →
    ∃ t', t.applied? parent d = some t' ∧ t'.get l = s.get l
  /-- Lengths relative to the font are relative to the size that it has in the end. -/
  absolute : ∀ t : Style, (l = .lineHeight → t.fontSize = s.fontSize) →
    ∃ t', t.applied? parent (d.absolute (l.reference s parent)) = some t' ∧ t'.get l = s.get l
  /-- So are percentages of the height of lines. -/
  percentage : l = .lineHeight → ∀ (t : Term) x, d.value = [t] → t.number? = some ⟨x, .percent⟩ →
    s.lineHeight = .px (s.fontSize * x / 100)

/-- A percentage that is a height of lines is taken of the size of the font. -/
theorem readLineHeight_of_percentage {em x : Float} {t : Term} {v : LineHeight}
    (hnumber : t.number? = some ⟨x, .percent⟩) (h : readLineHeight em t = some v) :
    v = .px (em * x / 100) := by
  have hident : t.ident? = none := by
    obtain ⟨v, sign, separator⟩ := t
    cases v <;> first | rfl | cases hnumber
  have hlength : readLength em t = some (.percent x) := by
    rw [readLength, hnumber]
  cases hneg : (Length.percent x).isNegative <;>
    simp [readLineHeight, Term.isIdent, hident, hnumber, readNonNegative, hlength, Option.filter,
      hneg] at h
  exact h.symm

namespace Style

theorem lineHeight_apply_of_percentage {s parent : Style} {d : Declaration} {t : Term} {x : Float}
    (hd : d.Sets s.fontSize parent .lineHeight) (hvalue : d.value = [t])
    (hnumber : t.number? = some ⟨x, .percent⟩) :
    (s.apply parent d).lineHeight = .px (s.fontSize * x / 100) := by
  obtain ⟨⟨p, hp, hl⟩, hsome⟩ := hd
  rw [Property.eq_of_mem_longhands (.inr rfl) hl] at hp
  have hinherit : d.isInherit = false := by
    rw [Declaration.isInherit, hvalue]
    obtain ⟨v, sign, separator⟩ := t
    cases v <;> first | rfl | cases hnumber
  have hsettings : d.settings? s.fontSize parent =
      (readLineHeight s.fontSize t).map fun v => [⟨.lineHeight, v⟩] := by
    rw [Declaration.settings?, hp, Option.bind_some, hinherit, hvalue]
    rfl
  rw [hsettings, Option.isSome_map] at hsome
  obtain ⟨v, hv⟩ := Option.isSome_iff_exists.1 hsome
  rw [apply, applied?, hsettings, hv, ← readLineHeight_of_percentage hnumber hv]
  rfl

/-- What the last writer gave stands for the style that the element has in the end, though the
writer was applied to an earlier one. -/
theorem hasFrom_of_sets {s t parent : Style} {d : Declaration} {l : Longhand}
    (hd : d.Sets t.fontSize parent l) (hfont : l ≠ .fontSize → s.fontSize = t.fontSize)
    (hget : s.get l = (t.apply parent d).get l) : s.HasFrom parent d l where
  alone := by
    intro u hu
    rw [hget]
    refine get_apply_of_sets hd ?_
    by_cases hl : l = .fontSize
    · exact Declaration.settings?_of_names_fontSize (hl ▸ hd.1) _ _ _
    · rw [hu, hfont hl]
  absolute := by
    intro u hu
    rw [hget]
    refine get_apply_of_sets hd ?_
    by_cases hl : l = .fontSize
    · have hnames : d.Names .fontSize := hl ▸ hd.1
      have hline : ¬ d.Names .lineHeight := by
        intro hline
        cases Declaration.eq_of_names (.inl rfl) hnames hline
      rw [Longhand.reference, if_pos hl,
        Declaration.settings?_absolute (fun h => absurd h hline) fun _ => rfl]
      exact Declaration.settings?_of_names_fontSize hnames _ _ _
    · rw [Longhand.reference, if_neg hl, hfont hl]
      apply Declaration.settings?_absolute
      · intro hline
        rw [hu (Declaration.eq_of_names (.inr rfl) hline hd.1), hfont hl]
      · intro hnames
        exact absurd (Declaration.eq_of_names (.inl rfl) hnames hd.1) hl
  percentage := by
    rintro rfl t' x hvalue hnumber
    rw [hfont (by decide)]
    exact Eq.trans hget (lineHeight_apply_of_percentage hd hvalue hnumber)

end Style

/-! ### Cascades -/

namespace Cascade

/-- The style of a node before the values are settled that depend on others. -/
def assigned (c : Cascade) (o : ResolveOptions) (d : Document) (parent : Style) (id : Nat) :
    Style :=
  (Style.inheritFrom parent).run parent (c.sortedWinners o d id)

theorem resolve_eq (c : Cascade) (o : ResolveOptions) (d : Document) (parent : Style) (id : Nat) :
    c.resolve o d parent id =
      if d.isElement id then (c.assigned o d parent id).finalize
      else c.assigned o d parent id := by
  by_cases helement : d.isElement id
  · rw [resolve, if_pos helement, if_pos helement]
    rfl
  · have hsorted : c.sortedWinners o d id = [] := by
      rw [sortedWinners, winners, candidates_eq, entries, if_neg helement]
      exact List.mergeSort_nil
    rw [resolve, if_neg helement, if_neg helement, assigned, hsorted]
    rfl

/-- **The last writer wins.**  Every winner has its turn.  Before the values are settled that depend
on others, a longhand has the value that is given to it by the greatest of the winners that name it,
or a shorthand that covers it, and can be applied; without such a winner it has the value that the
element begins with. -/
theorem get_assigned (c : Cascade) (o : ResolveOptions) (d : Document) (parent : Style) (id : Nat)
    (l : Longhand) :
    let s := c.assigned o d parent id
    let start := Style.inheritFrom parent
    let turns := c.sortedWinners o d id
    turns.Perm (c.winners o d id) ∧
    c.resolve o d parent id = (if d.isElement id then s.finalize else s) ∧
    ((∃ w ∈ c.winners o d id, start.Writes parent turns l w ∧
        (∀ v ∈ c.winners o d id, start.Writes parent turns l v → v ≠ w → v.key < w.key) ∧
        s.HasFrom parent w.declaration l) ∨
      (∀ w ∈ c.winners o d id, ¬ start.Writes parent turns l w) ∧ s.get l = start.get l) := by
  intro s start turns
  refine ⟨List.mergeSort_perm .., resolve_eq c o d parent id, ?_⟩
  have hturns : turns.Pairwise fun a b => a.turn < b.turn := pairwise_sortedWinners c o d id
  rcases Style.exists_last hturns l with ⟨xs, w, ys, hsplit, hset, hbefore, hget⟩ | ⟨hnone, hget⟩
  · have hmem : w ∈ turns := hsplit ▸ List.mem_append_cons_self
    have hwrites : start.Writes parent turns l w :=
      ⟨hset.1, xs, ys, hsplit, by rw [Style.applied?, Option.isSome_map]; exact hset.2⟩
    refine .inl ⟨w, List.mem_mergeSort.1 hmem, hwrites, ?_, ?_⟩
    · intro v _ hv hne
      exact Candidate.key_lt_of_turn_lt hv.1 hset.1 (hbefore v hv hne)
    · refine Style.hasFrom_of_sets hset ?_ hget
      intro hl
      have hfont : w.setsFontSize = false := by
        rw [Bool.eq_false_iff, Ne, Candidate.setsFontSize_iff]
        intro hnames
        exact hl (Declaration.eq_of_names (.inl rfl) hnames hset.1)
      have hfinal : (start.run parent (xs ++ w :: ys)).fontSize = (start.run parent xs).fontSize :=
        Style.fontSize_run_of_turn (hsplit ▸ hturns) hfont
      rwa [← hsplit] at hfinal
  · exact .inr ⟨fun w _ => hnone w, hget⟩

end Cascade

end Css2
