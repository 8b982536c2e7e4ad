import Css2.Proofs.Style.Footprint
import Css2.Style.Write

/-!
# Checking before writing

A style that is written to is in danger of being left half done, by a property that writes to some
of its fields and then comes upon a value that it has to reject.  No property does so: whatever it
needs of the terms it reads first (`Writing.Carries`), and what it does from then on cannot fail
(`Writing.Writes`).

So carrying out a declaration leaves behind what `Style.apply` says (`Style.carryOut_eq`), several
of them in turn what `Style.applyAll` says (`Style.carryOutEach_snd`), and a declaration that is
rejected leaves the style as it was (`Style.carryOut_rejected`).
-/

namespace Css2

namespace Writing

variable {α : Type} {s : Style}

/-! ### Writes -/

/-- The work cannot fail, and makes `f s` of a style `s`. -/
def Writes (w : Writing Unit) (f : Style → Style) : Prop :=
  ∀ s, w.run.run s = (some (), f s)

theorem writes_modify (f : Style → Style) : Writes (modify f) f :=
  fun _ => rfl

theorem Writes.andThen {w w' : Writing Unit} {f g : Style → Style} (h : Writes w f)
    (h' : Writes w' g) : Writes (do w; w') (g ∘ f) := by
  intro s
  show (w >>= fun _ => w').run.run s = _
  simp only [OptionT.run_bind, Option.elimM, StateT.run_bind, h s]
  exact h' (f s)

theorem writes_three (f g h : Style → Style) :
    Writes (do modify f; modify g; modify h) (h ∘ g ∘ f) :=
  (writes_modify f).andThen ((writes_modify g).andThen (writes_modify h))

/-! ### Checks -/

/-- Begun on the style `s`, the work writes the settings of a plan.  If there is no plan it fails,
and has written nothing. -/
def Carries (w : Writing Unit) (s : Style) (plan : Option (List Setting)) : Prop :=
  w.run.run s = match plan with
    | some xs => (some (), s.assign xs)
    | none => (none, s)

theorem Writes.carries {w : Writing Unit} {f : Style → Style} {xs : List Setting}
    (h : Writes w f) (hf : f s = s.assign xs) : Carries w s (some xs) := by
  rw [Carries, h s, hf]

theorem Carries.get {k : Style → Writing Unit} {plan : Option (List Setting)}
    (h : Carries (k s) s plan) : Carries (get >>= k) s plan :=
  h

theorem Carries.given {o : Option α} {k : α → Writing Unit} {plan : α → Option (List Setting)}
    (h : ∀ a, Carries (k a) s (plan a)) : Carries (Writing.given o >>= k) s (o.bind plan) := by
  cases o with
  | none => rfl
  | some a => exact h a

theorem Carries.edges {read : Term → Option α} {terms : List Term} {k : Edges α → Writing Unit}
    {setting : Side → α → Setting}
    (h : ∀ e, Carries (k e) s (some (Side.all.map fun side => setting side (e.get side)))) :
    Carries (Writing.edges read terms >>= k) s (readEdges read setting terms) := by
  rw [Writing.edges, readEdges, bind_assoc]
  exact .given fun as => .given h

/-! ### Properties -/

/-- **What a value means is read before the first field is written**, property by property. -/
theorem carries_value (parent : Style) (p : Property) (terms : List Term) (s : Style) :
    Carries (value parent p terms) s (p.read s.fontSize parent terms) := by
  rw [value]
  refine .get ?_
  cases p with
  | longhand l =>
    rw [Property.read, Option.map_eq_bind]
    exact .given fun v => (writes_modify _).carries rfl
  | margin | padding | borderWidth | borderStyle | borderColor =>
    exact .edges fun e => (writes_modify _).carries (by cases s; rfl)
  | border | borderSide side =>
    rw [Property.read, Option.map_eq_bind]
    exact .given fun b => (writes_three _ _ _).carries (by cases s; rfl)
  | background =>
    exact (writes_modify _).carries (by cases s; rfl)

theorem carries_inherited (parent : Style) (p : Property) (s : Style) :
    Carries (inherited parent p) s (some (p.inherit parent)) := by
  cases p with
  | border | borderSide side => exact (writes_three _ _ _).carries (by cases s; rfl)
  | _ => exact (writes_modify _).carries (by cases s; rfl)

theorem carries_declaration (parent : Style) (d : Declaration) (s : Style) :
    Carries (declaration parent d) s (d.settings? s.fontSize parent) := by
  refine .given fun p => ?_
  split
  · exact carries_inherited parent p s
  · exact carries_value parent p d.value s

end Writing

/-! ### Declarations -/

/-- A declaration whose value is words with blanks between them. -/
def Declaration.ofWords (property : String) (words : List String) : Declaration :=
  { property, value := words.map fun word => { value := .ident word } }

namespace Style

variable {s parent : Style} {d : Declaration}

/-- **Carrying out a declaration** does to a style what applying it says. -/
theorem carryOut_eq (s parent : Style) (d : Declaration) :
    s.carryOut parent d = ((s.applied? parent d).isSome, s.apply parent d) := by
  rw [carryOut, Writing.carries_declaration parent d s, apply, applied?]
  cases d.settings? s.fontSize parent <;> rfl

/-- Carrying out declarations in turn leaves the style that applying them makes. -/
theorem carryOutEach_snd (s parent : Style) (ds : List Declaration) :
    (s.carryOutEach parent ds).2 = s.applyAll parent ds := by
  induction ds generalizing s with
  | nil => rfl
  | cons d ds ih =>
    rw [carryOutEach, carryOut_eq]
    exact ih (s.apply parent d)

theorem carryOut_of_settings {xs : List Setting} (h : d.settings? s.fontSize parent = some xs) :
    s.carryOut parent d = (true, s.assign xs) := by
  rw [carryOut_eq, apply, applied?, h]
  rfl

theorem carryOut_of_not_settings (h : d.settings? s.fontSize parent = none) :
    s.carryOut parent d = (false, s) := by
  rw [carryOut_eq, apply, applied?, h]
  rfl

/-- **A rejected declaration leaves the style as it was**, whatever its property and its value
are. -/
theorem carryOut_rejected (h : (s.carryOut parent d).1 = false) :
    (s.carryOut parent d).2 = s := by
  cases hx : d.settings? s.fontSize parent with
  | none => rw [carryOut_of_not_settings hx]
  | some xs =>
    rw [carryOut_of_settings hx] at h
    cases h

/-- A border with two styles is rejected at the second, when the first is read already. -/
theorem carryOut_rejected_two_styles :
    (initial.carryOut initial (.ofWords "border" ["solid", "dotted"])).2 = initial :=
  carryOut_rejected (by decide +kernel)

end Style

end Css2
