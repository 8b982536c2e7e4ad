import Css2.Proofs.Style.Shorthand

/-!
# Inheritance

What an element takes over from its parent is said three times: by the table of properties
(`Property.isInherited`), by the style that an element begins with (`Style.inheritFrom`), and by the
work that the value `inherit` does (`Writing.inherited`).  The three agree
(`Style.carryOut_inherit`).  An inherited property begins with the value of the parent, so that
`inherit` changes nothing there; any other begins with its initial value, and `inherit` writes the
values of the parent to the longhands of the property and to no others.
-/

namespace Css2

/-! ### The table -/

/-- **A property is inherited when its longhands are.**  The longhands of a shorthand are not. -/
theorem Property.isInherited_of_mem_longhands {p : Property} {l : Longhand}
    (h : l ∈ p.longhands) : l.isInherited = p.isInherited := by
  cases p with
  | longhand m => rw [List.mem_singleton.1 h, isInherited]
  | margin | padding | borderWidth | borderStyle | borderColor =>
    obtain ⟨side, -, rfl⟩ := List.mem_map.1 h
    rfl
  | border =>
    obtain ⟨side, -, h⟩ := List.mem_flatMap.1 h
    simp only [borderParts, List.mem_cons, List.not_mem_nil, or_false] at h
    rcases h with rfl | rfl | rfl <;> rfl
  | borderSide side =>
    simp only [longhands, borderParts, List.mem_cons, List.not_mem_nil, or_false] at h
    rcases h with rfl | rfl | rfl <;> rfl
  | background =>
    rw [List.mem_singleton.1 h]
    rfl

namespace Style

variable {s parent : Style} {d : Declaration} {p : Property}

/-! ### The style that an element begins with -/

/-- **An element begins with the values of its parent where the table says so**, and with initial
values elsewhere. -/
theorem get_inheritFrom (parent : Style) (l : Longhand) :
    (inheritFrom parent).get l = if l.isInherited then parent.get l else initial.get l := by
  cases l <;> rfl

/-! ### The value `inherit` -/

/-- The settings of `inherit` are values of the parent. -/
theorem get_assign_inherit (s parent : Style) (p : Property) (l : Longhand) :
    (s.assign (p.inherit parent)).get l =
      if l ∈ p.longhands then parent.get l else s.get l := by
  have hvalues : ∀ x ∈ p.inherit parent, x.value = parent.get x.longhand :=
    fun _ => value_of_mem_map
  rw [get_assign_of_forall_eq hvalues, Property.longhands_inherit]

theorem assign_inherit_eq_self (h : ∀ l ∈ p.longhands, s.get l = parent.get l) :
    s.assign (p.inherit parent) = s := by
  refine ext_get fun l => ?_
  rw [get_assign_inherit]
  split
  · next hl => exact (h l hl).symm
  · rfl

/-- **The three statements of inheritance agree**, for longhands and for shorthands.  Where a
property is inherited, `inherit` does not change the style that an element begins with.  Where it is
not, its longhands begin with their initial values.  The value `inherit` is always accepted, and it
gives these longhands the values of the parent and changes no others. -/
theorem carryOut_inherit (s parent : Style) (hp : Property.ofName? d.property = some p)
    (hd : d.isInherit = true) :
    (p.isInherited = true →
      (inheritFrom parent).carryOut parent d = (true, inheritFrom parent)) ∧
    (p.isInherited = false → ∀ l ∈ p.longhands, (inheritFrom parent).get l = initial.get l) ∧
    (s.carryOut parent d).1 = true ∧
      (∀ l ∈ p.longhands, (s.carryOut parent d).2.get l = parent.get l) ∧
      ∀ l ∉ p.longhands, (s.carryOut parent d).2.get l = s.get l := by
  have hcarry (t : Style) : t.carryOut parent d = (true, t.assign (p.inherit parent)) :=
    carryOut_of_settings (Declaration.settings?_of_isInherit hp hd)
  refine ⟨fun hinherited => ?_, fun hinherited l hl => ?_, ?_, fun l hl => ?_, fun l hl => ?_⟩
  · have hbegin : ∀ l ∈ p.longhands, (inheritFrom parent).get l = parent.get l := by
      intro l hl
      rw [get_inheritFrom, Property.isInherited_of_mem_longhands hl, if_pos hinherited]
    rw [hcarry, assign_inherit_eq_self hbegin]
  · rw [get_inheritFrom, Property.isInherited_of_mem_longhands hl, hinherited]
    rfl
  · rw [hcarry]
  · rw [hcarry, get_assign_inherit, if_pos hl]
  · rw [hcarry, get_assign_inherit, if_neg hl]

/-- The alignment of text, which is inherited, and the way in which a box is displayed, which is
not. -/
theorem carryOut_inherit_words :
    let parent : Style := { textAlign := .center, display := .block }
    (inheritFrom parent).carryOut parent (.ofWords "text-align" ["inherit"]) =
      (true, inheritFrom parent) ∧
    (inheritFrom parent).display = .inline ∧
    (initial.carryOut parent (.ofWords "display" ["inherit"])).1 = true ∧
    (initial.carryOut parent (.ofWords "display" ["inherit"])).2.display = .block ∧
    (initial.carryOut parent (.ofWords "display" ["inherit"])).2.textAlign = .left := by
  intro parent
  have halign : Property.ofName? "text-align" = some (.longhand .textAlign) :=
    Property.ofName?_name (.longhand .textAlign)
  have hdisplay : Property.ofName? "display" = some (.longhand .display) :=
    Property.ofName?_name (.longhand .display)
  have hinherit : Term.isIdent "inherit" { value := .ident "inherit" } = true := by decide +kernel
  obtain ⟨hsame, -⟩ := carryOut_inherit (d := .ofWords "text-align" ["inherit"]) initial parent
    halign hinherit
  obtain ⟨-, hbegin, haccepted, hpart, hother⟩ :=
    carryOut_inherit (d := .ofWords "display" ["inherit"]) initial parent hdisplay hinherit
  exact ⟨hsame rfl, hbegin rfl .display List.mem_cons_self, haccepted,
    hpart .display List.mem_cons_self, hother .textAlign (by decide)⟩

end Style

end Css2
