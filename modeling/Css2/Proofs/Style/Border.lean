import Mathlib.Data.List.Basic
import Css2.Proofs.Style.Shorthand

/-!
# The parts of a border

A border has a width, a style and a color, and each of its terms is taken for one of them that is
not given yet.  No word names two parts (`BorderPart.nodup_words`), so a term is one part or none
(`readBorderPart`), and adding a term puts its part into a slot that has to be free
(`BorderValue.add_eq`).

Two parts may then be put in either order (`BorderValue.put_comm`), and the terms of a border come
in any order: each order is accepted when the others are, and leaves the same style
(`Style.carryOut_border_perm`).
-/

namespace Css2

/-! ### Words -/

inductive BorderPart where
  | width (w : Float)
  | style (b : BorderStyle)
  | color (p : Paint)

namespace BorderPart

def widthWords : List String := ["thin", "medium", "thick"]

def styleWords : List String := (Keyword.all (α := BorderStyle)).map Keyword.text

def colorWords : List String := "transparent" :: Rgb.named.map Prod.fst

/-- **No word names two parts.** -/
theorem nodup_words :
    (widthWords.map String.toLower ++
      (styleWords.map String.toLower ++ colorWords.map String.toLower)).Nodup := by
  decide +kernel

variable {em : Float} {name : String} {sign : Option Sign} {separator : Option Separator}

theorem mem_widthWords {w : Float}
    (h : readBorderWidth em ⟨.ident name, sign, separator⟩ = some w) :
    name.toLower ∈ widthWords.map String.toLower := by
  have hmem {word : String} (hname : sameName name word = true) (hword : word ∈ widthWords) :
      name.toLower ∈ widthWords.map String.toLower :=
    List.mem_map.2 ⟨word, hword, (beq_iff_eq.1 hname).symm⟩
  simp only [readBorderWidth, Term.ident?] at h
  split at h
  · next hthin => exact hmem hthin (by decide)
  · split at h
    · next hmedium => exact hmem hmedium (by decide)
    · split at h
      · next hthick => exact hmem hthick (by decide)
      · cases h

theorem mem_styleWords {b : BorderStyle}
    (h : readKeyword ⟨.ident name, sign, separator⟩ = some b) :
    name.toLower ∈ styleWords.map String.toLower := by
  have hfind : (Keyword.all (α := BorderStyle)).find? (fun k => sameName (Keyword.text k) name) =
      some b := h
  have hsame : sameName (Keyword.text b) name = true :=
    List.find?_some (p := fun k : BorderStyle => sameName (Keyword.text k) name) hfind
  exact List.mem_map.2 ⟨_, List.mem_map_of_mem (List.mem_of_find?_eq_some hfind),
    beq_iff_eq.1 hsame⟩

theorem mem_colorWords {p : Paint} (h : readPaint ⟨.ident name, sign, separator⟩ = some p) :
    name.toLower ∈ colorWords.map String.toLower := by
  simp only [readPaint] at h
  split at h
  · next hname => exact List.mem_map.2 ⟨_, List.mem_cons_self, (beq_iff_eq.1 hname).symm⟩
  · obtain ⟨c, hc, -⟩ := Option.map_eq_some_iff.1 h
    obtain ⟨entry, hfind, -⟩ := Option.map_eq_some_iff.1 hc
    have hsame : sameName entry.1 name = true :=
      List.find?_some (p := fun entry : String × Rgb => sameName entry.1 name) hfind
    have hmem : entry.1 ∈ colorWords :=
      List.mem_cons_of_mem _ (List.mem_map_of_mem (List.mem_of_find?_eq_some hfind))
    exact List.mem_map.2 ⟨_, hmem, beq_iff_eq.1 hsame⟩

end BorderPart

/-! ### Terms -/

section Terms

open BorderPart

variable {em : Float} {t : Term}

theorem readBorderWidth_excludes {w : Float} (h : readBorderWidth em t = some w) :
    (readKeyword t : Option BorderStyle) = none ∧ readPaint t = none := by
  obtain ⟨v, sign, separator⟩ := t
  cases v with
  | ident name =>
    have hdisjoint := List.disjoint_of_nodup_append nodup_words (mem_widthWords h)
    rw [imp_false, List.mem_append, not_or] at hdisjoint
    refine ⟨Option.eq_none_iff_forall_ne_some.2 fun b hb => ?_,
      Option.eq_none_iff_forall_ne_some.2 fun p hp => ?_⟩
    · exact hdisjoint.1 (mem_styleWords hb)
    · exact hdisjoint.2 (mem_colorWords hp)
  | number q => exact ⟨rfl, rfl⟩
  | _ => cases h

theorem readStyle_excludes {b : BorderStyle} (h : readKeyword t = some b) : readPaint t = none := by
  obtain ⟨v, sign, separator⟩ := t
  cases v with
  | ident name =>
    have hdisjoint := List.disjoint_of_nodup_append (List.nodup_append'.1 nodup_words).2.1
      (mem_styleWords h)
    exact Option.eq_none_iff_forall_ne_some.2 fun p hp => hdisjoint (mem_colorWords hp)
  | _ => cases h

def readBorderPart (em : Float) (t : Term) : Option BorderPart :=
  (readBorderWidth em t).map .width <|> (readKeyword t).map .style <|> (readPaint t).map .color

end Terms

namespace BorderValue

def put (b : BorderValue) : BorderPart → Option BorderValue
  | .width w => if b.width.isNone then some { b with width := some w } else none
  | .style s => if b.style.isNone then some { b with style := some s } else none
  | .color p => if b.color.isNone then some { b with color := some p } else none

/-- **A term is put where it belongs**, since it belongs to one slot only. -/
theorem add_eq (em : Float) (b : BorderValue) (t : Term) :
    b.add em t = if t.separator.isSome then none else (readBorderPart em t).bind b.put := by
  rw [add, readBorderPart]
  split
  · rfl
  · obtain ⟨width, style, color⟩ := b
    cases hwidth : readBorderWidth em t with
    | some w =>
      obtain ⟨hstyle, hcolor⟩ := readBorderWidth_excludes hwidth
      cases width <;> simp [hstyle, hcolor, put]
    | none =>
      cases hstyle : (readKeyword t : Option BorderStyle) with
      | some s =>
        have hcolor := readStyle_excludes hstyle
        cases style <;> simp [hcolor, put]
      | none =>
        cases hcolor : readPaint t <;> cases color <;> simp [put]

/-- **Two parts may be put in either order**: they go to different slots, or to the same one, which
then is not free for the second. -/
theorem put_comm (b : BorderValue) (p q : BorderPart) :
    (b.put p).bind (·.put q) = (b.put q).bind (·.put p) := by
  obtain ⟨width, style, color⟩ := b
  cases p <;> cases q <;> cases width <;> cases style <;> cases color <;> rfl

theorem add_comm (em : Float) (b : BorderValue) (t u : Term) :
    (b.add em t).bind (·.add em u) = (b.add em u).bind (·.add em t) := by
  simp only [add_eq]
  cases t.separator <;> cases u.separator <;>
    cases readBorderPart em t <;> cases readBorderPart em u <;> simp [put_comm]

end BorderValue

/-! ### Values -/

/-- **The terms of a border come in any order.** -/
theorem readBorder_perm (em : Float) {value value' : List Term} (h : value.Perm value') :
    readBorder em value = readBorder em value' := by
  rw [readBorder, readBorder, List.foldlM_eq_foldl, List.foldlM_eq_foldl]
  refine h.foldl_eq' (fun t _ u _ b => ?_) _
  cases b with
  | none => rfl
  | some b => exact BorderValue.add_comm em b t u

namespace Declaration

variable {d : Declaration} {value : List Term}

theorem isInherit_iff (d : Declaration) :
    d.isInherit = true ↔ ∃ t, d.value = [t] ∧ t.isIdent "inherit" = true := by
  refine ⟨eq_of_isInherit, ?_⟩
  rintro ⟨t, hvalue, ht⟩
  rwa [isInherit, hvalue]

/-- A value that is `inherit` has only one order. -/
theorem isInherit_perm (h : d.value.Perm value) : { d with value }.isInherit = d.isInherit := by
  rw [Bool.eq_iff_iff, isInherit_iff, isInherit_iff]
  refine exists_congr fun t => and_congr_left' ⟨?_, ?_⟩
  · rintro rfl
    exact List.perm_singleton.1 h
  · intro hd
    exact List.perm_singleton.1 (hd ▸ h.symm)

theorem settings?_border_perm {p : Property} (em : Float) (parent : Style)
    (hp : Property.ofName? d.property = some p)
    (hborder : p = .border ∨ ∃ side, p = .borderSide side) (h : d.value.Perm value) :
    { d with value }.settings? em parent = d.settings? em parent := by
  have hread : p.read em parent value = p.read em parent d.value := by
    rcases hborder with rfl | ⟨side, rfl⟩ <;>
      rw [Property.read, Property.read, readBorder_perm em h]
  rw [settings?, settings?, isInherit_perm h]
  simp only [hp, Option.bind_some, hread]

end Declaration

namespace Style

/-- **The parts of a border come in any order.**  A border, or the border of one side, that has its
terms in another order is accepted when it is accepted as it stands, and leaves the same style.
Terms with separators are no exception: with one of them, every order is rejected. -/
theorem carryOut_border_perm (s parent : Style) {d : Declaration} {p : Property}
    {value : List Term} (hp : Property.ofName? d.property = some p)
    (hborder : p = .border ∨ ∃ side, p = .borderSide side) (h : d.value.Perm value) :
    s.carryOut parent { d with value } = s.carryOut parent d := by
  have hsettings := Declaration.settings?_border_perm s.fontSize parent hp hborder h
  rw [carryOut_eq, carryOut_eq, apply, apply, applied?, applied?, hsettings]

/-- The three parts of a border, with the width first and with the width last. -/
theorem carryOut_border_perm_words :
    initial.carryOut initial (.ofWords "border" ["solid", "red", "thin"]) =
      initial.carryOut initial (.ofWords "border" ["thin", "solid", "red"]) := by
  have hborder : Property.ofName? "border" = some .border := Property.ofName?_name .border
  have hwords : ["thin", "solid", "red"].Perm ["solid", "red", "thin"] := by decide
  exact carryOut_border_perm (d := .ofWords "border" ["thin", "solid", "red"]) initial initial
    hborder (.inl rfl) (hwords.map fun word => (⟨.ident word, none, none⟩ : Term))

end Style

end Css2
