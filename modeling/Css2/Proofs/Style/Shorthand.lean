import Mathlib.Data.List.Nodup
import Css2.Proofs.Style.Writing

/-!
# Shorthands

A shorthand stands for its longhands.  What `border` writes is what the borders of the four sides
write one after the other, and a property of a box that is accepted writes what its four sides do,
each with the term that falls to it; with `inherit` it does not matter in which order the longhands
come (`Style.carryOut_shorthand`).

A property of a box accepts what its sides accept (`Style.carryOut_box_iff`), whatever stands
between the terms: commas and slashes are not looked at (`Style.not_carryOut_box_iff`).
-/

namespace Css2

theorem Side.forall_iff {P : Side → Prop} :
    (∀ side, P side) ↔ P .top ∧ P .right ∧ P .bottom ∧ P .left :=
  ⟨fun h => ⟨h _, h _, h _, h _⟩, fun h side => by cases side <;> simp [h]⟩

theorem Side.exists_iff {P : Side → Prop} :
    (∃ side, P side) ↔ P .top ∨ P .right ∨ P .bottom ∨ P .left := by
  constructor
  · rintro ⟨side, h⟩
    cases side <;> simp [h]
  · rintro (h | h | h | h) <;> exact ⟨_, h⟩

/-! ### Edges -/

namespace Edges

variable {α β : Type}

theorem ext_get {e f : Edges α} (h : ∀ side, e.get side = f.get side) : e = f := by
  cases e
  cases f
  rw [mk.injEq]
  exact Side.forall_iff.1 h

def ofSides (v : Side → α) : Edges α := ⟨v .top, v .right, v .bottom, v .left⟩

theorem get_ofSides (v : Side → α) (side : Side) : (ofSides v).get side = v side := by
  cases side <;> rfl

theorem get_same (a : α) (side : Side) : (same a).get side = a := by
  cases side <;> rfl

theorem ofList?_isSome_iff (l : List α) : (ofList? l).isSome ↔ 1 ≤ l.length ∧ l.length ≤ 4 := by
  match l with
  | [] | [_] | [_, _] | [_, _, _] | [_, _, _, _] => simp [ofList?]
  | _ :: _ :: _ :: _ :: _ :: _ => simp [ofList?]

/-- The first value is for the top, the second one for the right, the third one for the bottom and
the fourth one for the left.  Without one of its own, the left has that of the right, and the right
and the bottom have that of the top. -/
theorem ofList?_eq_some_iff {l : List α} {e : Edges α} :
    ofList? l = some e ↔ l.length ≤ 4 ∧ l[0]? = some e.top ∧ e.right = l[1]?.getD e.top ∧
      e.bottom = l[2]?.getD e.top ∧ e.left = l[3]?.getD e.right := by
  obtain ⟨top, right, bottom, left⟩ := e
  match l with
  | [] => simp [ofList?]
  | [_] | [_, _] | [_, _, _] | [_, _, _, _] =>
    simp [ofList?]
    grind
  | _ :: _ :: _ :: _ :: _ :: _ => simp [ofList?]

theorem mem_iff_of_ofList? {l : List α} {e : Edges α} (h : ofList? l = some e) (a : α) :
    a ∈ l ↔ ∃ side, e.get side = a := by
  match l with
  | [] => cases h
  | [_] | [_, _] | [_, _, _] | [_, _, _, _] =>
    cases h
    simp only [List.mem_cons, List.not_mem_nil, or_false, Side.exists_iff, get]
    grind
  | _ :: _ :: _ :: _ :: _ :: _ => cases h

theorem length_of_mapM {read : β → Option α} {l : List β} {as : List α}
    (h : l.mapM read = some as) : as.length = l.length := by
  induction l generalizing as with
  | nil =>
    cases h
    rfl
  | cons b l ih =>
    rw [List.mapM_cons] at h
    obtain ⟨a, _, h⟩ := Option.bind_eq_some_iff.1 h
    obtain ⟨as, has, h⟩ := Option.bind_eq_some_iff.1 h
    cases h
    rw [List.length_cons, List.length_cons, ih has]

/-- **Values are read as they fall to the sides**: they may as well be laid out before they are
read. -/
theorem mapM_bind_ofList?_eq_some_iff {read : β → Option α} {l : List β} {e : Edges α} :
    (l.mapM read).bind ofList? = some e ↔
      ∃ e', ofList? l = some e' ∧ ∀ side, read (e'.get side) = some (e.get side) := by
  obtain ⟨top, right, bottom, left⟩ := e
  match l with
  | [] => simp [ofList?]
  | [a] | [a, b] | [a, b, c] =>
    simp [ofList?, Side.forall_iff, get, Option.bind_eq_some_iff]
    grind
  | [a, b, c, d] => simp [ofList?, Side.forall_iff, get, Option.bind_eq_some_iff]
  | a :: b :: c :: d :: f :: rest =>
    -- five values or more cannot be laid out, read or not
    have hnone {γ : Type} {m : List γ} (hm : m.length = (a :: b :: c :: d :: f :: rest).length) :
        ofList? m = none := by
      rw [← Option.not_isSome_iff_eq_none, ofList?_isSome_iff, hm]
      simp
    constructor
    · intro h
      obtain ⟨as, has, h⟩ := Option.bind_eq_some_iff.1 h
      rw [hnone (length_of_mapM has)] at h
      cases h
    · rintro ⟨e', h, -⟩
      rw [hnone rfl] at h
      cases h

end Edges

/-! ### Styles -/

namespace Style

theorem ext_get {s t : Style} (h : ∀ l, s.get l = t.get l) : s = t := by
  cases s
  cases t
  rw [mk.injEq]
  exact ⟨h .display, h .position, h .floating, h .clear, Edges.ext_get fun side => h (.offset side),
    h .zIndex, h .width, h .height, h .minWidth, h .maxWidth, h .minHeight, h .maxHeight,
    h .lineHeight, h .visibility, Edges.ext_get fun side => h (.margin side),
    Edges.ext_get fun side => h (.padding side), Edges.ext_get fun side => h (.borderWidth side),
    Edges.ext_get fun side => h (.borderStyle side),
    Edges.ext_get fun side => h (.borderColor side), h .color, h .backgroundColor, h .fontFamily,
    h .fontSize, h .fontStyle, h .fontVariant, h .fontWeight, h .textAlign, h .textIndent,
    h .whiteSpace, h .listStyle⟩

theorem assign_append (s : Style) (xs ys : List Setting) :
    s.assign (xs ++ ys) = (s.assign xs).assign ys :=
  List.foldl_append

theorem value_of_mem_map {parent : Style} {ls : List Longhand} {x : Setting}
    (h : x ∈ ls.map fun l => (⟨l, parent.get l⟩ : Setting)) :
    x.value = parent.get x.longhand := by
  obtain ⟨l, -, rfl⟩ := List.mem_map.1 h
  rfl

theorem get_assign_of_forall_eq {s parent : Style} {xs : List Setting}
    (h : ∀ x ∈ xs, x.value = parent.get x.longhand) (l : Longhand) :
    (s.assign xs).get l = if l ∈ xs.map Setting.longhand then parent.get l else s.get l := by
  induction xs generalizing s with
  | nil => rfl
  | cons x xs ih =>
    show ((s.set x.longhand x.value).assign xs).get l = _
    rw [ih fun y hy => h y (List.mem_cons_of_mem x hy), h x List.mem_cons_self, List.map_cons]
    by_cases hxs : l ∈ xs.map Setting.longhand
    · rw [if_pos hxs, if_pos (List.mem_cons_of_mem _ hxs)]
    · rw [if_neg hxs]
      by_cases hl : l = x.longhand
      · subst hl
        rw [get_set_self, if_pos List.mem_cons_self]
      · rw [get_set_of_ne s _ (Ne.symm hl), if_neg fun hmem => (List.mem_cons.1 hmem).elim hl hxs]

/-- Settings that all come from one style may be given in any order, and more than once. -/
theorem assign_congr_of_forall_eq {s parent : Style} {xs ys : List Setting}
    (hx : ∀ x ∈ xs, x.value = parent.get x.longhand)
    (hy : ∀ y ∈ ys, y.value = parent.get y.longhand)
    (h : ∀ l, l ∈ xs.map Setting.longhand ↔ l ∈ ys.map Setting.longhand) :
    s.assign xs = s.assign ys := by
  refine ext_get fun l => ?_
  rw [get_assign_of_forall_eq hx, get_assign_of_forall_eq hy]
  exact if_congr (h l) rfl rfl

end Style

/-! ### Properties -/

theorem readEdges_eq_some_iff {α : Type} {read : Term → Option α} {setting : Side → α → Setting}
    {value : List Term} {xs : List Setting} :
    readEdges read setting value = some xs ↔
      ∃ (terms : Edges Term) (v : Side → α), Edges.ofList? value = some terms ∧
        (∀ side, read (terms.get side) = some (v side)) ∧
        xs = Side.all.map fun side => setting side (v side) := by
  have hread : readEdges read setting value = ((value.mapM read).bind Edges.ofList?).map
      fun e => Side.all.map fun side => setting side (e.get side) := by
    rw [readEdges, Option.map_eq_bind, Option.bind_assoc]
    rfl
  rw [hread, Option.map_eq_some_iff]
  constructor
  · rintro ⟨e, he, rfl⟩
    obtain ⟨terms, hterms, h⟩ := Edges.mapM_bind_ofList?_eq_some_iff.1 he
    exact ⟨terms, e.get, hterms, h, rfl⟩
  · rintro ⟨terms, v, hterms, h, rfl⟩
    have he : (value.mapM read).bind Edges.ofList? = some (.ofSides v) := by
      refine Edges.mapM_bind_ofList?_eq_some_iff.2 ⟨terms, hterms, fun side => ?_⟩
      rw [h side, Edges.get_ofSides]
    exact ⟨.ofSides v, he, List.map_congr_left fun side _ => by rw [Edges.get_ofSides]⟩

/-! ### Keywords -/

theorem Term.ident_of_isIdent {keyword : String} (hlower : keyword.toLower = keyword) {t : Term}
    (h : t.isIdent keyword = true) :
    ∃ name sign separator, t = ⟨.ident name, sign, separator⟩ ∧ name.toLower = keyword := by
  obtain ⟨v, sign, separator⟩ := t
  cases v with
  | ident name =>
    have hname : keyword.toLower = name.toLower := beq_iff_eq.1 h
    exact ⟨name, sign, separator, rfl, by rw [← hname, hlower]⟩
  | _ => cases h

theorem toLower_inherit : "inherit".toLower = "inherit" := by decide +kernel

namespace Property

variable {p : Property} {long : Side → Longhand} {em : Float} {parent : Style}

theorem mem_all (p : Property) : p ∈ all := by
  have hlong (l : Longhand) : l ∈ Longhand.all := by
    cases l with
    | offset side | margin side | padding side | borderWidth side | borderStyle side
    | borderColor side => cases side <;> decide
    | _ => decide
  cases p with
  | longhand l =>
    exact List.mem_append_left _ (List.mem_append_left _ (List.mem_map_of_mem (hlong l)))
  | borderSide side => cases side <;> decide
  | _ => decide

theorem toLower_name : ∀ p ∈ all, p.name.toLower = p.name := by decide +kernel

theorem nodup_names : (all.map name).Nodup := by decide +kernel

/-- **A property is found by its name.** -/
theorem ofName?_name (p : Property) : ofName? p.name = some p := by
  obtain ⟨q, hq⟩ : ∃ q, ofName? p.name = some q :=
    Option.isSome_iff_exists.1
      (List.find?_isSome.2 ⟨p, p.mem_all, beq_self_eq_true p.name.toLower⟩)
  have hsame : sameName q.name p.name = true :=
    List.find?_some (p := fun r : Property => sameName r.name p.name) hq
  have hname : q.name = p.name := by
    rw [← toLower_name q q.mem_all, ← toLower_name p p.mem_all]
    exact beq_iff_eq.1 hsame
  rw [hq, List.inj_on_of_nodup_map nodup_names q.mem_all p.mem_all hname]

/-- The longhand on each side, for the properties of a box that take one to four values. -/
def sideLonghand? : Property → Option (Side → Longhand)
  | margin => some .margin
  | padding => some .padding
  | borderWidth => some .borderWidth
  | borderStyle => some .borderStyle
  | borderColor => some .borderColor
  | _ => none

theorem longhands_of_sideLonghand? (h : p.sideLonghand? = some long) :
    p.longhands = Side.all.map long := by
  cases p <;> cases h <;> rfl

theorem isShorthand_of_sideLonghand? (h : p.sideLonghand? = some long) : p.isShorthand = true := by
  cases p <;> cases h <;> rfl

/-- **A property of a box reads what its sides read**, each side from the term that falls to it. -/
theorem read_eq_some_iff_of_sideLonghand? (h : p.sideLonghand? = some long) {value : List Term}
    {xs : List Setting} :
    p.read em parent value = some xs ↔
      ∃ (terms : Edges Term) (v : (side : Side) → (long side).Computed),
        Edges.ofList? value = some terms ∧
        (∀ side, (long side).read em parent [terms.get side] = some (v side)) ∧
        xs = Side.all.map fun side => ⟨long side, v side⟩ := by
  cases p with
  | margin | padding | borderWidth | borderStyle | borderColor =>
    cases h
    exact readEdges_eq_some_iff
  | _ => cases h

theorem isSome_read_iff_of_sideLonghand? (h : p.sideLonghand? = some long) {value : List Term} :
    (p.read em parent value).isSome ↔ ∃ terms, Edges.ofList? value = some terms ∧
      ∀ side, ((long side).read em parent [terms.get side]).isSome := by
  rw [Option.isSome_iff_exists]
  constructor
  · rintro ⟨xs, hxs⟩
    obtain ⟨terms, v, hterms, hread, -⟩ := (read_eq_some_iff_of_sideLonghand? h).1 hxs
    exact ⟨terms, hterms, fun side => by rw [hread]; rfl⟩
  · rintro ⟨terms, hterms, hread⟩
    choose v hv using fun side => Option.isSome_iff_exists.1 (hread side)
    exact ⟨_, (read_eq_some_iff_of_sideLonghand? h).2 ⟨terms, v, hterms, hv, rfl⟩⟩

/-- The keyword that stands for the value of the parent is no value of a side of a box. -/
theorem read_side_of_isIdent_inherit (h : p.sideLonghand? = some long) {t : Term}
    (ht : t.isIdent "inherit" = true) (side : Side) : (long side).read em parent [t] = none := by
  obtain ⟨name, sign, separator, rfl, hlower⟩ := Term.ident_of_isIdent toLower_inherit ht
  -- the readers compare the name with the names that they know
  cases p with
  | margin =>
    cases h
    have hauto : sameName "auto" name = false := by
      rw [sameName, hlower]
      decide +kernel
    simp [Longhand.read, Longhand.readTerm, readExtent, readLength, Term.isIdent, Term.ident?,
      Term.number?, hauto]
  | padding =>
    cases h
    rfl
  | borderWidth =>
    cases h
    have hname : sameName name "thin" = false ∧ sameName name "medium" = false ∧
        sameName name "thick" = false := by
      simp only [sameName, hlower]
      decide +kernel
    simp [Longhand.read, Longhand.readTerm, readBorderWidth, Term.ident?, hname]
  | borderStyle =>
    cases h
    show (Keyword.all (α := BorderStyle)).find? (fun k => sameName (Keyword.text k) name) = none
    simp only [sameName, hlower]
    decide +kernel
  | borderColor =>
    cases h
    show readPaint ⟨.ident name, sign, separator⟩ = none
    simp only [readPaint, Rgb.ofName?, sameName, hlower]
    decide +kernel
  | _ => cases h

theorem isIdent_inherit_of_read_side (h : p.sideLonghand? = some long) {t : Term} {side : Side}
    (hread : ((long side).read em parent [t]).isSome) : t.isIdent "inherit" = false := by
  by_contra ht
  rw [read_side_of_isIdent_inherit h (eq_true_of_ne_false ht)] at hread
  cases hread

theorem fontSize_notMem_longhands (h : p.isShorthand = true) : .fontSize ∉ p.longhands := by
  intro hmem
  rw [eq_of_mem_longhands (.inl rfl) hmem] at h
  cases h

end Property

/-! ### Declarations -/

namespace Declaration

variable {d : Declaration} {p : Property} {em : Float} {parent : Style}

/-- The declaration for another property, of another value. -/
def recast (d : Declaration) (p : Property) (value : List Term) : Declaration :=
  { d with property := p.name, value }

theorem ofName?_recast (d : Declaration) (p : Property) (value : List Term) :
    Property.ofName? (d.recast p value).property = some p :=
  p.ofName?_name

theorem eq_of_isInherit (h : d.isInherit = true) :
    ∃ t, d.value = [t] ∧ t.isIdent "inherit" = true := by
  rw [isInherit] at h
  split at h
  · exact ⟨_, ‹_›, h⟩
  · cases h

theorem settings?_of_isInherit (hp : Property.ofName? d.property = some p)
    (hd : d.isInherit = true) : d.settings? em parent = some (p.inherit parent) := by
  rw [settings?, hp, Option.bind_some, if_pos hd]

theorem settings?_of_not_isInherit (hp : Property.ofName? d.property = some p)
    (hd : d.isInherit = false) : d.settings? em parent = p.read em parent d.value := by
  rw [settings?, hp, Option.bind_some, hd]
  rfl

theorem not_names_fontSize (hp : Property.ofName? d.property = some p)
    (h : .fontSize ∉ p.longhands) : ¬d.Names .fontSize := by
  rintro ⟨q, hq, hmem⟩
  rw [hp, Option.some_inj] at hq
  exact h (hq ▸ hmem)

/-- **The border is its four sides**: their settings one after the other, if there are any. -/
theorem settings?_border (em : Float) (parent : Style)
    (hp : Property.ofName? d.property = some .border) :
    (d.settings? em parent = none ∧
      ∀ side, (d.recast (.borderSide side) d.value).settings? em parent = none) ∨
    ∃ plan : Side → List Setting, d.settings? em parent = some (Side.all.flatMap plan) ∧
      ∀ side, (d.recast (.borderSide side) d.value).settings? em parent = some (plan side) := by
  cases hd : d.isInherit with
  | true =>
    refine .inr ⟨fun side => (Property.borderSide side).inherit parent, ?_, fun side => ?_⟩
    · exact settings?_of_isInherit hp hd
    · exact settings?_of_isInherit (ofName?_recast ..) hd
  | false =>
    have hside (side : Side) : (d.recast (.borderSide side) d.value).settings? em parent =
        (readBorder em d.value).map fun b => b.settings side :=
      settings?_of_not_isInherit (ofName?_recast ..) hd
    rw [settings?_of_not_isInherit hp hd, Property.read]
    cases hb : readBorder em d.value with
    | none => exact .inl ⟨rfl, fun side => by rw [hside, hb]; rfl⟩
    | some b => exact .inr ⟨b.settings, rfl, fun side => by rw [hside, hb]; rfl⟩

/-- A side of a box that can be read has that value, which is not the one of the parent. -/
theorem settings?_side {long : Side → Longhand} (hlong : p.sideLonghand? = some long) {side : Side}
    {t : Term} {v : (long side).Computed} (h : (long side).read em parent [t] = some v) :
    (d.recast (.longhand (long side)) [t]).settings? em parent = some [⟨long side, v⟩] := by
  have hd : (d.recast (.longhand (long side)) [t]).isInherit = false :=
    Property.isIdent_inherit_of_read_side hlong (by rw [h]; rfl)
  rw [settings?_of_not_isInherit (ofName?_recast ..) hd]
  show ((long side).read em parent [t]).map _ = _
  rw [h]
  rfl

/-- **A property of a box is its four sides**: where it has settings, the side has the one that its
term gives it. -/
theorem settings?_box {long : Side → Longhand} {xs : List Setting}
    (hp : Property.ofName? d.property = some p) (hlong : p.sideLonghand? = some long)
    (h : d.settings? em parent = some xs) :
    ∃ (terms : Edges Term) (v : (side : Side) → (long side).Computed),
      Edges.ofList? d.value = some terms ∧
      xs = Side.all.flatMap (fun side => [⟨long side, v side⟩]) ∧
      ∀ side, (d.recast (.longhand (long side)) [terms.get side]).settings? em parent =
        some [⟨long side, v side⟩] := by
  cases hd : d.isInherit with
  | true =>
    obtain ⟨t, hvalue, ht⟩ := eq_of_isInherit hd
    rw [settings?_of_isInherit hp hd, Option.some_inj] at h
    refine ⟨.same t, fun side => parent.get (long side), by rw [hvalue]; rfl, ?_, fun side => ?_⟩
    · rw [← h, Property.inherit, Property.longhands_of_sideLonghand? hlong]
      rfl
    · refine settings?_of_isInherit (ofName?_recast ..) ?_
      rwa [Edges.get_same]
  | false =>
    rw [settings?_of_not_isInherit hp hd] at h
    obtain ⟨terms, v, hterms, hread, rfl⟩ :=
      (Property.read_eq_some_iff_of_sideLonghand? hlong).1 h
    exact ⟨terms, v, hterms, rfl, fun side => settings?_side hlong (hread side)⟩

theorem not_names_fontSize_recast {l : Longhand} (hshort : p.isShorthand = true)
    (hl : l ∈ p.longhands) (value : List Term) :
    ¬(d.recast (.longhand l) value).Names .fontSize := by
  refine not_names_fontSize (ofName?_recast ..) fun hmem => ?_
  rw [← List.mem_singleton.1 hmem] at hl
  exact Property.fontSize_notMem_longhands hshort hl

end Declaration

/-! ### Carrying out several declarations -/

namespace Style

variable {ι : Type} {s parent : Style} {d : Declaration} {is : List ι} {f : ι → Declaration}

theorem carryOut_fst (s parent : Style) (d : Declaration) :
    (s.carryOut parent d).1 = (d.settings? s.fontSize parent).isSome := by
  rw [carryOut_eq, applied?, Option.isSome_map]

/-- Declarations that have settings, and leave the size of the font alone, write all of them. -/
theorem carryOutEach_of_settings {plan : ι → List Setting}
    (hfont : ∀ i ∈ is, ¬(f i).Names .fontSize)
    (h : ∀ i ∈ is, (f i).settings? s.fontSize parent = some (plan i)) :
    s.carryOutEach parent (is.map f) = (is.map fun _ => true, s.assign (is.flatMap plan)) := by
  induction is generalizing s with
  | nil => rfl
  | cons i is ih =>
    have hi := h i List.mem_cons_self
    have hsize : (s.assign (plan i)).fontSize = s.fontSize := by
      refine get_assign_of_notMem s (l := .fontSize) fun hmem => hfont i List.mem_cons_self ?_
      exact (Declaration.longhands_of_settings? hi _).1 hmem
    have hmore := ih (s := s.assign (plan i)) (fun j hj => hfont j (List.mem_cons_of_mem i hj))
      fun j hj => by rw [hsize]; exact h j (List.mem_cons_of_mem i hj)
    rw [List.map_cons, carryOutEach, carryOut_of_settings hi]
    simp only [hmore, List.map_cons, List.flatMap_cons, assign_append]

theorem carryOutEach_of_not_settings (h : ∀ i ∈ is, (f i).settings? s.fontSize parent = none) :
    s.carryOutEach parent (is.map f) = (is.map fun _ => false, s) := by
  induction is with
  | nil => rfl
  | cons i is ih =>
    rw [List.map_cons, carryOutEach, carryOut_of_not_settings (h i List.mem_cons_self)]
    simp only [ih fun j hj => h j (List.mem_cons_of_mem i hj), List.map_cons]

/-! ### Shorthands and their longhands -/

variable {p : Property} {long : Side → Longhand}

theorem carryOutEach_border (s parent : Style)
    (hp : Property.ofName? d.property = some .border) :
    s.carryOutEach parent (Side.all.map fun side => d.recast (.borderSide side) d.value) =
      (Side.all.map fun _ => (s.carryOut parent d).1, (s.carryOut parent d).2) := by
  have hfont (side : Side) : ¬(d.recast (.borderSide side) d.value).Names .fontSize :=
    Declaration.not_names_fontSize (Declaration.ofName?_recast ..)
      (Property.fontSize_notMem_longhands rfl)
  rcases Declaration.settings?_border s.fontSize parent hp with ⟨h, hside⟩ | ⟨plan, h, hside⟩
  · rw [carryOutEach_of_not_settings fun side _ => hside side, carryOut_of_not_settings h]
  · rw [carryOutEach_of_settings (fun side _ => hfont side) fun side _ => hside side,
      carryOut_of_settings h]

theorem carryOutEach_box (hp : Property.ofName? d.property = some p)
    (hlong : p.sideLonghand? = some long) (h : (s.carryOut parent d).1 = true) :
    ∃ terms, Edges.ofList? d.value = some terms ∧
      s.carryOutEach parent
          (Side.all.map fun side => d.recast (.longhand (long side)) [terms.get side]) =
        (Side.all.map fun _ => true, (s.carryOut parent d).2) := by
  rw [carryOut_fst] at h
  obtain ⟨xs, hxs⟩ := Option.isSome_iff_exists.1 h
  obtain ⟨terms, v, hterms, rfl, hside⟩ := Declaration.settings?_box hp hlong hxs
  have hfont (side : Side) (_ : side ∈ Side.all) :
      ¬(d.recast (.longhand (long side)) [terms.get side]).Names .fontSize := by
    refine Declaration.not_names_fontSize_recast (Property.isShorthand_of_sideLonghand? hlong) ?_ _
    rw [Property.longhands_of_sideLonghand? hlong]
    exact List.mem_map_of_mem (by cases side <;> decide)
  refine ⟨terms, hterms, ?_⟩
  rw [carryOutEach_of_settings hfont fun side _ => hside side, carryOut_of_settings hxs]

theorem carryOutEach_inherit (s parent : Style) (hp : Property.ofName? d.property = some p)
    (hshort : p.isShorthand = true) (hd : d.isInherit = true) {ls : List Longhand}
    (hls : ∀ l, l ∈ ls ↔ l ∈ p.longhands) :
    s.carryOutEach parent (ls.map fun l => d.recast (.longhand l) d.value) =
      (ls.map fun _ => true, (s.carryOut parent d).2) := by
  have hfont (l : Longhand) (hl : l ∈ ls) : ¬(d.recast (.longhand l) d.value).Names .fontSize :=
    Declaration.not_names_fontSize_recast hshort ((hls l).1 hl) _
  have hplan (l : Longhand) (_ : l ∈ ls) :
      (d.recast (.longhand l) d.value).settings? s.fontSize parent =
        some ((Property.longhand l).inherit parent) :=
    Declaration.settings?_of_isInherit (Declaration.ofName?_recast ..) hd
  rw [carryOutEach_of_settings hfont hplan,
    carryOut_of_settings (Declaration.settings?_of_isInherit hp hd)]
  have hflat : (ls.flatMap fun l => (Property.longhand l).inherit parent) =
      ls.map fun l => ⟨l, parent.get l⟩ := List.flatMap_pure_eq_map ..
  have hsame : s.assign (ls.map fun l => ⟨l, parent.get l⟩) = s.assign (p.inherit parent) := by
    -- all the values are those of the parent
    refine assign_congr_of_forall_eq (fun _ => value_of_mem_map) (fun _ => value_of_mem_map)
      fun l => ?_
    rw [Property.longhands_inherit, List.map_map]
    simpa [Function.comp_def] using hls l
  rw [hflat, hsame]

/-- **A shorthand does what its longhands do.**  `border` is accepted when the borders of the four
sides are, and leaves the style that they leave.  A property of a box that is accepted has one to
four terms, and it leaves the style that its sides leave: the top with the first term, the right
with the second one or the first, the bottom with the third one or the first, and the left with the
fourth one, the second or the first.  With `inherit`, a shorthand leaves the style that all its
longhands leave, in whatever order they come. -/
theorem carryOut_shorthand (s parent : Style) (hp : Property.ofName? d.property = some p) :
    (p = .border →
      s.carryOutEach parent (Side.all.map fun side => d.recast (.borderSide side) d.value) =
        (Side.all.map fun _ => (s.carryOut parent d).1, (s.carryOut parent d).2)) ∧
    (∀ long, p.sideLonghand? = some long → (s.carryOut parent d).1 = true →
      ∃ terms, Edges.ofList? d.value = some terms ∧
        (d.value.length ≤ 4 ∧ d.value[0]? = some terms.top ∧
          terms.right = d.value[1]?.getD terms.top ∧ terms.bottom = d.value[2]?.getD terms.top ∧
          terms.left = d.value[3]?.getD terms.right) ∧
        s.carryOutEach parent
            (Side.all.map fun side => d.recast (.longhand (long side)) [terms.get side]) =
          (Side.all.map fun _ => true, (s.carryOut parent d).2)) ∧
    (p.isShorthand = true → d.isInherit = true →
      ∀ ls : List Longhand, (∀ l, l ∈ ls ↔ l ∈ p.longhands) →
        (s.carryOut parent d).1 = true ∧
          s.carryOutEach parent (ls.map fun l => d.recast (.longhand l) d.value) =
            (ls.map fun _ => true, (s.carryOut parent d).2)) := by
  refine ⟨?_, fun long hlong h => ?_, fun hshort hd ls hls => ⟨?_, ?_⟩⟩
  · rintro rfl
    exact carryOutEach_border s parent hp
  · obtain ⟨terms, hterms, heach⟩ := carryOutEach_box hp hlong h
    exact ⟨terms, hterms, Edges.ofList?_eq_some_iff.1 hterms, heach⟩
  · rw [carryOut_of_settings (Declaration.settings?_of_isInherit hp hd)]
  · exact carryOutEach_inherit s parent hp hshort hd hls

/-- A border with one style, three styles for four sides, and a background that is inherited. -/
theorem carryOut_shorthand_words :
    let border := Declaration.ofWords "border" ["solid"]
    let styles := Declaration.ofWords "border-style" ["solid", "dotted", "dashed"]
    let background := Declaration.ofWords "background" ["inherit"]
    initial.carryOutEach initial
        (Side.all.map fun side => border.recast (.borderSide side) border.value) =
      (Side.all.map fun _ => (initial.carryOut initial border).1,
        (initial.carryOut initial border).2) ∧
    initial.carryOutEach initial
        [styles.recast (.longhand (.borderStyle .top)) [{ value := .ident "solid" }],
          styles.recast (.longhand (.borderStyle .right)) [{ value := .ident "dotted" }],
          styles.recast (.longhand (.borderStyle .bottom)) [{ value := .ident "dashed" }],
          styles.recast (.longhand (.borderStyle .left)) [{ value := .ident "dotted" }]] =
      ([true, true, true, true], (initial.carryOut initial styles).2) ∧
    initial.carryOutEach initial ([Longhand.backgroundColor].map fun l =>
        background.recast (.longhand l) background.value) =
      ([Longhand.backgroundColor].map fun _ => true, (initial.carryOut initial background).2) := by
  intro border styles background
  have hborder : Property.ofName? "border" = some .border := Property.ofName?_name .border
  have hstyles : Property.ofName? "border-style" = some .borderStyle :=
    Property.ofName?_name .borderStyle
  have hbackground : Property.ofName? "background" = some .background :=
    Property.ofName?_name .background
  have hinherit : background.isInherit = true := by decide +kernel
  refine ⟨?_, ?_, ?_⟩
  · exact (carryOut_shorthand (d := border) initial initial hborder).1 rfl
  · have haccepted : (initial.carryOut initial styles).1 = true := by
      rw [carryOut_fst, Declaration.settings?_of_not_isInherit hstyles rfl]
      decide +kernel
    obtain ⟨terms, hterms, -, heach⟩ :=
      (carryOut_shorthand (d := styles) initial initial hstyles).2.1 .borderStyle rfl haccepted
    cases hterms
    exact heach
  · exact ((carryOut_shorthand (d := background) initial initial hbackground).2.2 rfl hinherit
      [.backgroundColor] fun _ => Iff.rfl).2

/-! ### What a property of a box accepts -/

theorem carryOut_side_fst {side : Side} {t : Term} (ht : t.isIdent "inherit" = false) :
    (s.carryOut parent (d.recast (.longhand (long side)) [t])).1 =
      ((long side).read s.fontSize parent [t]).isSome := by
  have hd : (d.recast (.longhand (long side)) [t]).isInherit = false := ht
  rw [carryOut_fst, Declaration.settings?_of_not_isInherit (Declaration.ofName?_recast ..) hd,
    Property.read, Option.isSome_map]
  rfl

/-- **A property of a box accepts one to four terms**, none of them `inherit`, that its sides
accept.  It is not asked what stands between them. -/
theorem carryOut_box_iff (s parent : Style) (hp : Property.ofName? d.property = some p)
    (hlong : p.sideLonghand? = some long) (hd : d.isInherit = false) :
    (s.carryOut parent d).1 = true ↔
      (1 ≤ d.value.length ∧ d.value.length ≤ 4) ∧ (∀ t ∈ d.value, t.isIdent "inherit" = false) ∧
        ∀ terms, Edges.ofList? d.value = some terms → ∀ side,
          (s.carryOut parent (d.recast (.longhand (long side)) [terms.get side])).1 = true := by
  rw [carryOut_fst, Declaration.settings?_of_not_isInherit hp hd,
    Property.isSome_read_iff_of_sideLonghand? hlong, ← Edges.ofList?_isSome_iff]
  have hside {terms : Edges Term} (hterms : Edges.ofList? d.value = some terms) (side : Side) :
      terms.get side ∈ d.value :=
    (Edges.mem_iff_of_ofList? hterms _).2 ⟨side, rfl⟩
  constructor
  · rintro ⟨terms, hterms, hread⟩
    have hinherit (t : Term) (ht : t ∈ d.value) : t.isIdent "inherit" = false := by
      obtain ⟨side, rfl⟩ := (Edges.mem_iff_of_ofList? hterms t).1 ht
      exact Property.isIdent_inherit_of_read_side hlong (hread side)
    refine ⟨by rw [hterms]; rfl, hinherit, fun terms' hterms' side => ?_⟩
    rw [hterms, Option.some_inj] at hterms'
    rw [← hterms', carryOut_side_fst (hinherit _ (hside hterms side))]
    exact hread side
  · rintro ⟨hlength, hinherit, haccepted⟩
    obtain ⟨terms, hterms⟩ := Option.isSome_iff_exists.1 hlength
    refine ⟨terms, hterms, fun side => ?_⟩
    rw [← carryOut_side_fst (hinherit _ (hside hterms side))]
    exact haccepted terms hterms side

/-- Only alone is `inherit` a value. -/
theorem carryOut_box_auto_inherit :
    (initial.carryOut initial (.ofWords "margin" ["auto", "inherit"])).1 = false := by
  have hmargin : Property.ofName? "margin" = some .margin := Property.ofName?_name .margin
  rw [Bool.eq_false_iff]
  intro h
  have hterms := ((carryOut_box_iff (d := .ofWords "margin" ["auto", "inherit"]) initial initial
    hmargin rfl rfl).1 h).2.1
  have hword : Term.isIdent "inherit" { value := .ident "inherit" } = false :=
    hterms _ (List.mem_cons_of_mem _ List.mem_cons_self)
  rw [Term.isIdent, Term.ident?, Option.any_some, sameName, beq_self_eq_true] at hword
  cases hword

/-- The grammar of a property of a box has blanks between the terms, but `margin: auto, auto` is
accepted. -/
theorem not_carryOut_box_iff :
    ¬∀ (s parent : Style) (d : Declaration) (p : Property) (long : Side → Longhand),
      Property.ofName? d.property = some p → p.sideLonghand? = some long → d.isInherit = false →
        ((s.carryOut parent d).1 = true ↔
          (1 ≤ d.value.length ∧ d.value.length ≤ 4) ∧
            (∀ t ∈ d.value.dropLast, t.separator = none) ∧
            (∀ t ∈ d.value, t.isIdent "inherit" = false) ∧
            ∀ terms, Edges.ofList? d.value = some terms → ∀ side,
              (s.carryOut parent
                (d.recast (.longhand (long side)) [terms.get side])).1 = true) := by
  intro h
  have hmargin : Property.ofName? "margin" = some .margin := Property.ofName?_name .margin
  have haccepted : (initial.carryOut initial
      ⟨"margin", [⟨.ident "auto", none, some .comma⟩, ⟨.ident "auto", none, none⟩], false⟩).1 =
        true := by
    rw [carryOut_fst, Declaration.settings?_of_not_isInherit hmargin rfl]
    decide +kernel
  have hseparator := ((h _ _ _ _ _ hmargin rfl rfl).1 haccepted).2.1
  cases hseparator _ List.mem_cons_self

end Style

end Css2
