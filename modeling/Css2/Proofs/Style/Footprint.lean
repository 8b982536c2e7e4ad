import Css2.Style.Apply

/-!
# What a declaration changes

A declaration sets the longhands of its property and no others, and the values that it gives them
depend on the parent and on the size of the font alone (`Declaration.longhands_of_settings?`,
`Style.get_apply_of_sets`).  The size of the font itself is set by one property, whose values do not
depend on the size that the element has so far (`Declaration.settings?_of_names_fontSize`).
-/

namespace Css2

/-! ### Getting and setting -/

namespace Edges

variable {α : Type}

theorem get_set_self (e : Edges α) (side : Side) (a : α) : (e.set side a).get side = a := by
  cases side <;> rfl

theorem get_set_of_ne (e : Edges α) {side other : Side} (a : α) (h : side ≠ other) :
    (e.set side a).get other = e.get other := by
  cases side <;> cases other <;> first | rfl | exact absurd rfl h

end Edges

namespace Style

theorem get_set_self (s : Style) (l : Longhand) (v : l.Computed) : (s.set l v).get l = v := by
  cases l <;> first | rfl | exact Edges.get_set_self ..

theorem get_set_of_ne (s : Style) {l m : Longhand} (v : l.Computed) (h : l ≠ m) :
    (s.set l v).get m = s.get m := by
  cases l <;> cases m <;>
    first
    | rfl
    | exact absurd rfl h
    | exact Edges.get_set_of_ne _ _ fun hside => h (congrArg _ hside)

/-! ### Settings -/

theorem get_assign_of_notMem (s : Style) {xs : List Setting} {l : Longhand}
    (h : l ∉ xs.map Setting.longhand) : (s.assign xs).get l = s.get l := by
  induction xs generalizing s with
  | nil => rfl
  | cons x xs ih =>
    rw [List.map_cons, List.mem_cons, not_or] at h
    show ((s.set x.longhand x.value).assign xs).get l = s.get l
    rw [ih _ h.2, get_set_of_ne s x.value (Ne.symm h.1)]

/-- What settings give a longhand does not depend on the style that they are applied to. -/
theorem get_assign_congr (s t : Style) {xs : List Setting} {l : Longhand}
    (h : l ∈ xs.map Setting.longhand) : (s.assign xs).get l = (t.assign xs).get l := by
  induction xs generalizing s t with
  | nil => cases h
  | cons x xs ih =>
    show ((s.set x.longhand x.value).assign xs).get l = ((t.set x.longhand x.value).assign xs).get l
    by_cases hxs : l ∈ xs.map Setting.longhand
    · exact ih _ _ hxs
    · -- nothing behind it names the longhand, so this is the last setting for it
      obtain rfl : l = x.longhand := (List.mem_cons.1 h).resolve_right hxs
      rw [get_assign_of_notMem _ hxs, get_assign_of_notMem _ hxs, get_set_self, get_set_self]

end Style

/-! ### Properties -/

namespace Property

theorem longhands_of_readEdges {α : Type} {read : Term → Option α} {setting : Side → α → Setting}
    {long : Side → Longhand} {value : List Term} {xs : List Setting}
    (h : readEdges read setting value = some xs)
    (hlong : ∀ side a, (setting side a).longhand = long side) :
    xs.map Setting.longhand = Side.all.map long := by
  rw [readEdges] at h
  obtain ⟨values, _, h⟩ := Option.bind_eq_some_iff.1 h
  obtain ⟨edges, _, h⟩ := Option.bind_eq_some_iff.1 h
  cases h
  rw [List.map_map]
  exact List.map_congr_left fun side _ => hlong side _

theorem longhands_settings (b : BorderValue) (side : Side) :
    (b.settings side).map Setting.longhand = borderParts side :=
  rfl

/-- **Every property sets its own longhands**, whatever the value is. -/
theorem longhands_of_read {em : Float} {parent : Style} {p : Property} {value : List Term}
    {xs : List Setting} (h : p.read em parent value = some xs) :
    xs.map Setting.longhand = p.longhands := by
  cases p with
  | longhand l =>
    obtain ⟨v, _, rfl⟩ := Option.map_eq_some_iff.1 h
    rfl
  | margin =>
    rw [read] at h
    exact longhands_of_readEdges h fun _ _ => rfl
  | padding =>
    rw [read] at h
    exact longhands_of_readEdges h fun _ _ => rfl
  | borderWidth =>
    rw [read] at h
    exact longhands_of_readEdges h fun _ _ => rfl
  | borderStyle =>
    rw [read] at h
    exact longhands_of_readEdges h fun _ _ => rfl
  | borderColor =>
    rw [read] at h
    exact longhands_of_readEdges h fun _ _ => rfl
  | border =>
    obtain ⟨b, _, rfl⟩ := Option.map_eq_some_iff.1 h
    rfl
  | borderSide side =>
    obtain ⟨b, _, rfl⟩ := Option.map_eq_some_iff.1 h
    exact longhands_settings b side
  | background =>
    cases h
    rfl

theorem longhands_inherit (parent : Style) (p : Property) :
    (p.inherit parent).map Setting.longhand = p.longhands := by
  rw [inherit, List.map_map]
  exact List.map_id _

theorem eq_of_mem_longhands {p : Property} {l : Longhand} (hl : l = .fontSize ∨ l = .lineHeight)
    (h : l ∈ p.longhands) : p = longhand l := by
  cases p with
  | longhand m => rw [List.mem_singleton.1 h]
  | _ => rcases hl with rfl | rfl <;> simp [longhands, borderParts, Side.all] at h

end Property

/-! ### Declarations -/

namespace Declaration

/-- A declaration names a longhand, or a shorthand that covers it. -/
def Names (d : Declaration) (l : Longhand) : Prop :=
  ∃ p, Property.ofName? d.property = some p ∧ l ∈ p.longhands

/-- A declaration names a longhand, and its value has a meaning where the font has the size
`em`. -/
def Sets (d : Declaration) (em : Float) (parent : Style) (l : Longhand) : Prop :=
  d.Names l ∧ (d.settings? em parent).isSome

/-- **The footprint of a declaration** is the longhands of its property. -/
theorem longhands_of_settings? {d : Declaration} {em : Float} {parent : Style} {xs : List Setting}
    (h : d.settings? em parent = some xs) (l : Longhand) :
    l ∈ xs.map Setting.longhand ↔ d.Names l := by
  obtain ⟨p, hp, h⟩ := Option.bind_eq_some_iff.1 h
  have hlong : xs.map Setting.longhand = p.longhands := by
    split at h
    · cases h
      exact Property.longhands_inherit parent p
    · exact Property.longhands_of_read h
  rw [hlong]
  constructor
  · intro hl
    exact ⟨p, hp, hl⟩
  · rintro ⟨q, hq, hl⟩
    rw [hp, Option.some_inj] at hq
    rwa [hq]

/-- A declaration of the size of the font reads the same whatever size the element has so far. -/
theorem settings?_of_names_fontSize {d : Declaration} (h : d.Names .fontSize) (em em' : Float)
    (parent : Style) : d.settings? em parent = d.settings? em' parent := by
  obtain ⟨p, hp, hl⟩ := h
  rw [Property.eq_of_mem_longhands (.inl rfl) hl] at hp
  simp only [settings?, hp, Option.bind_some, Property.read, Longhand.read, Longhand.readTerm]

/-- A declaration of the size of the font or of the height of lines names nothing else. -/
theorem eq_of_names {d : Declaration} {l m : Longhand} (hl : l = .fontSize ∨ l = .lineHeight)
    (h : d.Names l) (hm : d.Names m) : m = l := by
  obtain ⟨p, hp, hmem⟩ := h
  obtain ⟨q, hq, hm⟩ := hm
  rw [hp, Option.some_inj] at hq
  rw [← hq, Property.eq_of_mem_longhands hl hmem] at hm
  exact List.mem_singleton.1 hm

end Declaration

/-! ### One step -/

namespace Style

theorem get_apply_of_not_sets {s parent : Style} {d : Declaration} {l : Longhand}
    (h : ¬ d.Sets s.fontSize parent l) : (s.apply parent d).get l = s.get l := by
  rw [apply, applied?]
  cases hx : d.settings? s.fontSize parent with
  | none => rfl
  | some xs =>
    refine get_assign_of_notMem s fun hmem => h ⟨?_, by rw [hx]; rfl⟩
    exact (Declaration.longhands_of_settings? hx l).1 hmem

/-- **The value that a declaration gives a longhand** does not depend on the style, so a declaration
with the same settings gives it that value anywhere. -/
theorem get_apply_of_sets {s t parent : Style} {d e : Declaration} {l : Longhand}
    (hd : d.Sets s.fontSize parent l)
    (h : e.settings? t.fontSize parent = d.settings? s.fontSize parent) :
    ∃ t', t.applied? parent e = some t' ∧ t'.get l = (s.apply parent d).get l := by
  obtain ⟨hnames, hsome⟩ := hd
  obtain ⟨xs, hx⟩ := Option.isSome_iff_exists.1 hsome
  refine ⟨t.assign xs, by rw [applied?, h, hx]; rfl, ?_⟩
  rw [apply, applied?, hx]
  exact get_assign_congr t s ((Declaration.longhands_of_settings? hx l).2 hnames)

end Style

end Css2
