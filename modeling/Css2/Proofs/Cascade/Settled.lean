import Mathlib.Data.List.Basic
import Mathlib.Data.List.Induction
import Css2.Cascade.Resolve
import Css2.Proofs.Style.Footprint

/-!
# Settled styles

Some values of a style depend on others: a border without a style has no width, a border color is
that of the text unless it is given, and a box that floats or is out of the flow is a block.  A
style in which all of them agree is settled (`Style.Settled`).

`Style.finalize` settles one side after the other and then the box.  Each step settles its own part
and leaves the parts alone that are settled already, so that the outcome is settled, and there is
nothing left to do in a settled style (`Style.finalize_eq_self_iff`).  The style that an element
resolves to is one of these (`Cascade.resolve_settled`).
-/

namespace Css2

theorem Display.blockified_blockified (d : Display) : d.blockified.blockified = d.blockified := by
  cases d <;> rfl

namespace Style

/-! ### Settled values -/

/-- The border on a side has a color, and has no width where it has no style. -/
structure BorderSettled (s : Style) (side : Side) : Prop where
  color : s.borderColor.get side ≠ .current
  width : s.borderStyle.get side = .none ∨ s.borderStyle.get side = .hidden →
    s.borderWidth.get side = 0

/-- A box that is displayed does not float if it is out of the flow, and is a block if it is out of
the flow or floats. -/
structure BoxSettled (s : Style) : Prop where
  floating : s.display ≠ .none → s.position = .absolute ∨ s.position = .fixed → s.floating = .none
  display : s.display ≠ .none →
    (s.position = .absolute ∨ s.position = .fixed) ∨ s.floating ≠ .none →
    s.display.blockified = s.display

/-- The values agree that depend on one another. -/
structure Settled (s : Style) : Prop where
  border : ∀ side, s.BorderSettled side
  box : s.BoxSettled

theorem hasNoWidth_iff (b : BorderStyle) : b.hasNoWidth = true ↔ b = .none ∨ b = .hidden := by
  cases b <;> decide

theorem isAbsolute_iff (s : Style) :
    s.isAbsolute = true ↔ s.position = .absolute ∨ s.position = .fixed := by
  simp [isAbsolute]

/-! ### Borders -/

theorem set_borderWidth_self (s : Style) (side : Side) :
    s.set (.borderWidth side) (s.borderWidth.get side) = s := by
  cases side <;> rfl

theorem set_borderColor_self (s : Style) (side : Side) :
    s.set (.borderColor side) (s.borderColor.get side) = s := by
  cases side <;> rfl

theorem settleBorder_eq (s : Style) (side : Side) :
    s.settleBorder side =
      (s.set (.borderWidth side)
        (if (s.borderStyle.get side).hasNoWidth then 0 else s.borderWidth.get side)).set
      (.borderColor side)
        (if s.borderColor.get side = .current then .rgb s.color else s.borderColor.get side) := by
  -- the color is looked at when the width is written, which makes no difference to it
  have hcolor (w : Float) : (s.set (.borderWidth side) w).borderColor = s.borderColor := rfl
  by_cases hcurrent : s.borderColor.get side = .current
  · by_cases hstyle : (s.borderStyle.get side).hasNoWidth
    · simp only [settleBorder, if_pos hstyle, hcolor, if_pos hcurrent]
      rfl
    · simp only [settleBorder, if_neg hstyle, if_pos hcurrent, set_borderWidth_self]
  · rw [if_neg hcurrent]
    by_cases hstyle : (s.borderStyle.get side).hasNoWidth
    · simp only [settleBorder, if_pos hstyle, hcolor, if_neg hcurrent]
      exact (set_borderColor_self (s.set (.borderWidth side) 0) side).symm
    · simp only [settleBorder, if_neg hstyle, if_neg hcurrent, set_borderWidth_self,
        set_borderColor_self]

theorem get_settleBorder_of_ne (s : Style) {side : Side} {l : Longhand}
    (hwidth : l ≠ .borderWidth side) (hcolor : l ≠ .borderColor side) :
    (s.settleBorder side).get l = s.get l := by
  rw [settleBorder_eq, get_set_of_ne _ _ (Ne.symm hcolor), get_set_of_ne _ _ (Ne.symm hwidth)]

/-- **A step settles its side.** -/
theorem borderSettled_settleBorder (s : Style) (side : Side) :
    (s.settleBorder side).BorderSettled side := by
  have hcolor : (s.settleBorder side).borderColor.get side =
      if s.borderColor.get side = .current then .rgb s.color else s.borderColor.get side := by
    rw [settleBorder_eq]
    exact get_set_self _ (.borderColor side) _
  have hwidth : (s.settleBorder side).borderWidth.get side =
      if (s.borderStyle.get side).hasNoWidth then 0 else s.borderWidth.get side := by
    rw [settleBorder_eq]
    exact (get_set_of_ne _ (m := .borderWidth side) _ (by simp)).trans (get_set_self ..)
  have hstyle : (s.settleBorder side).borderStyle.get side = s.borderStyle.get side :=
    get_settleBorder_of_ne s (l := .borderStyle side) (by simp) (by simp)
  constructor
  · rw [hcolor]
    split
    · simp
    · assumption
  · rw [hstyle, hwidth, ← hasNoWidth_iff]
    exact fun h => if_pos h

theorem BorderSettled.congr {s t : Style} {side : Side} (h : s.BorderSettled side)
    (hparts : ∀ l ∈ Property.borderParts side, t.get l = s.get l) : t.BorderSettled side := by
  have hwidth : t.borderWidth.get side = s.borderWidth.get side :=
    hparts (.borderWidth side) (by simp [Property.borderParts])
  have hstyle : t.borderStyle.get side = s.borderStyle.get side :=
    hparts (.borderStyle side) (by simp [Property.borderParts])
  have hcolor : t.borderColor.get side = s.borderColor.get side :=
    hparts (.borderColor side) (by simp [Property.borderParts])
  constructor
  · rw [hcolor]
    exact h.color
  · rw [hstyle, hwidth]
    exact h.width

/-- **A step keeps the sides settled that are settled already.** -/
theorem BorderSettled.settleBorder {s : Style} {side : Side} (h : s.BorderSettled side)
    (other : Side) : (s.settleBorder other).BorderSettled side := by
  by_cases hside : side = other
  · exact hside ▸ borderSettled_settleBorder s side
  · refine h.congr fun l hl => get_settleBorder_of_ne s ?_ ?_
    all_goals
      rintro rfl
      simp [Property.borderParts, Ne.symm hside] at hl

/-- **A run over some sides settles them.** -/
theorem borderSettled_foldl (s : Style) {sides : List Side} {side : Side} (h : side ∈ sides) :
    (sides.foldl settleBorder s).BorderSettled side := by
  induction sides using List.reverseRecOn with
  | nil => cases h
  | append_singleton sides last ih =>
    rw [List.foldl_append]
    rcases List.mem_append.1 h with h | h
    · exact (ih h).settleBorder last
    · obtain rfl := List.mem_singleton.1 h
      exact borderSettled_settleBorder _ side

theorem BorderSettled.settleBorder_eq_self {s : Style} {side : Side} (h : s.BorderSettled side) :
    s.settleBorder side = s := by
  have hwidth : (if (s.borderStyle.get side).hasNoWidth then 0 else s.borderWidth.get side) =
      s.borderWidth.get side := by
    split
    · next hstyle => exact (h.width ((hasNoWidth_iff _).1 hstyle)).symm
    · rfl
  rw [settleBorder_eq, hwidth, if_neg h.color, set_borderWidth_self, set_borderColor_self]

/-! ### Boxes -/

theorem get_settleDisplay_of_ne (s : Style) {l : Longhand} (hdisplay : l ≠ .display)
    (hfloating : l ≠ .floating) : s.settleDisplay.get l = s.get l := by
  have hset (t : Style) (v : Display) : (t.set .display v).get l = t.get l :=
    get_set_of_ne t v (Ne.symm hdisplay)
  rw [settleDisplay]
  split
  · rfl
  · split
    · exact (hset (s.set .floating .none) _).trans (get_set_of_ne s _ (Ne.symm hfloating))
    · split
      · rfl
      · exact hset s _

theorem boxSettled_settleDisplay (s : Style) : s.settleDisplay.BoxSettled := by
  have hblock := s.display.blockified_blockified
  rw [settleDisplay]
  split
  · next hnone => exact ⟨fun h => absurd hnone h, fun h => absurd hnone h⟩
  · split
    · exact ⟨fun _ _ => rfl, fun _ _ => hblock⟩
    · next habsolute =>
      rw [isAbsolute_iff] at habsolute
      split
      · next hfloating =>
        exact ⟨fun _ h => absurd h habsolute,
          fun _ h => (h.elim habsolute fun h => h hfloating).elim⟩
      · exact ⟨fun _ h => absurd h habsolute, fun _ _ => hblock⟩

theorem BoxSettled.settleDisplay_eq_self {s : Style} (h : s.BoxSettled) : s.settleDisplay = s := by
  rw [settleDisplay]
  split
  · rfl
  · next hnone =>
    split
    · next habsolute =>
      rw [isAbsolute_iff] at habsolute
      rw [h.display hnone (.inl habsolute), ← h.floating hnone habsolute]
    · split
      · rfl
      · next hfloating => rw [h.display hnone (.inr hfloating)]

/-! ### All values -/

/-- **Settling makes a style settled.** -/
theorem settled_finalize (s : Style) : s.finalize.Settled := by
  refine ⟨fun side => ?_, boxSettled_settleDisplay _⟩
  have hside : side ∈ Side.all := by cases side <;> decide
  refine (borderSettled_foldl s hside).congr fun l hl => get_settleDisplay_of_ne _ ?_ ?_
  all_goals
    rintro rfl
    simp [Property.borderParts] at hl

/-- **The settled styles are those that settling leaves as they are.** -/
theorem finalize_eq_self_iff (s : Style) : s.finalize = s ↔ s.Settled := by
  constructor
  · intro h
    exact h ▸ settled_finalize s
  · intro h
    rw [finalize, List.foldl_fixed' fun side => (h.border side).settleBorder_eq_self]
    exact h.box.settleDisplay_eq_self

end Style

/-- **The style that an element resolves to is settled**, and to settle it again changes nothing. -/
theorem Cascade.resolve_settled (c : Cascade) (o : ResolveOptions) (d : Document) (parent : Style)
    (id : Nat) (h : d.isElement id = true) :
    (c.resolve o d parent id).finalize = c.resolve o d parent id ∧
      (c.resolve o d parent id).Settled := by
  rw [Style.finalize_eq_self_iff, and_self, resolve, if_pos h]
  exact Style.settled_finalize _

/-- A paragraph that floats, with a border that has a width but no style. -/
theorem Cascade.resolve_settled_floating :
    let d : Document := (Document.empty.alloc (.element "p" [])).append 0 1
    let left : Declaration := ⟨"float", [⟨.ident "left", none, none⟩], false⟩
    let thick : Declaration := ⟨"border-top-width", [⟨.ident "thick", none, none⟩], false⟩
    let c : Cascade :=
      { author := some ⟨[.ruleset ⟨⟨[⟨[{ name := some "p" }]⟩]⟩, [left, thick]⟩]⟩ }
    (c.resolve {} d .initial 1).finalize = c.resolve {} d .initial 1 ∧
      (c.resolve {} d .initial 1).Settled := by
  intro d left thick c
  exact resolve_settled c {} d .initial 1 (by decide)

end Css2
