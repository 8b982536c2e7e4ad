import Css2.Proofs.Sheet.Prefix

/-!
# What a statement builds

A builder that is between two statements adds a statement to its sheet when it receives the events
of that statement (`Builder.run_statement`), and a statement that is given up leaves it as it was
(`Builder.run_error`).  So the sheet that events describe is a list of statements that were read.
-/

namespace Css2

namespace Builder

/-- The builder is between two statements. -/
def Idle (b : Builder) : Prop :=
  b.current = none ∧ b.media = none

theorem idle_discard (b : Builder) : Idle b.discard :=
  ⟨rfl, rfl⟩

theorem Idle.push {b : Builder} (h : b.Idle) (s : Statement) : (b.push s).Idle :=
  h

theorem Idle.discard {b : Builder} (h : b.Idle) : b.discard = b := by
  obtain ⟨sheet, current, media⟩ := b
  obtain ⟨rfl, rfl⟩ := h
  rfl

theorem run_declarations (b : Builder) {o : Open} {ds : List Declaration}
    (h : b.current = some (o, ds)) (es : List Declaration) :
    b.run (es.map Event.property) = { b with current := some (o, ds ++ es) } := by
  induction es generalizing b ds with
  | nil =>
    rw [List.append_nil, ← h]
    rfl
  | cons e es ih =>
    have hstep : b.step (.property e) = { b with current := some (o, ds ++ [e]) } := by
      simp only [step, h]
    show (b.step (.property e)).run (es.map Event.property) = _
    rw [hstep, ih { b with current := some (o, ds ++ [e]) } rfl, List.append_assoc]
    rfl

/-- A group of declarations is received from its first event to before its last. -/
theorem run_group (b : Builder) {s : Event} {o : Open} (h : b.step s = b.start o)
    (ds : List Declaration) (e : Event) :
    b.run (s :: (ds.map Event.property ++ [e])) = ({ b with current := some (o, ds) }).step e := by
  have hrun := @run_declarations (b.start o) o [] rfl ds
  show (b.step s).run (ds.map Event.property ++ [e]) = _
  rw [h, run_append, hrun]
  rfl

/-- A ruleset is added to the `@media` block or to the sheet. -/
theorem run_ruleset {b : Builder} (h : b.current = none) (r : Ruleset) :
    b.run r.events = b.addRuleset r := by
  obtain ⟨sheet, current, media⟩ := b
  cases h
  rw [Ruleset.events]
  rw [run_group _ (o := .ruleset r.selector) rfl]
  rfl

/-- Rulesets are added to the `@media` block in order. -/
theorem run_media {b : Builder} (h : b.current = none) {names : List String} {rs : List Ruleset}
    (hm : b.media = some (names, rs)) (rules : List Ruleset) :
    b.run (rules.flatMap Ruleset.events) = { b with media := some (names, rs ++ rules) } := by
  induction rules generalizing b rs with
  | nil =>
    rw [List.append_nil, ← hm]
    rfl
  | cons r rules ih =>
    have hadd : b.addRuleset r = { b with media := some (names, rs ++ [r]) } := by
      rw [addRuleset]
      rw [hm]
    rw [List.flatMap_cons, run_append, run_ruleset h, hadd,
      ih (b := { b with media := some (names, rs ++ [r]) }) h rfl, List.append_assoc]
    rfl

/-- **A statement that is reported is added to the sheet.** -/
theorem run_statement {b : Builder} (h : b.Idle) (s : Statement) : b.run s.events = b.push s := by
  obtain ⟨sheet, current, media⟩ := b
  obtain ⟨rfl, rfl⟩ := h
  cases s with
  | ruleset r =>
    show (Builder.mk sheet none none).run r.events = _
    rw [run_ruleset rfl]
    rfl
  | importSheet url names => rfl
  | charset name => rfl
  | media names rules =>
    show ((Builder.mk sheet none none).step (.startMedia names)).run
      (rules.flatMap Ruleset.events ++ [.endMedia]) = _
    rw [run_append, @run_media _ rfl names [] rfl]
    rfl
  | page name pseudo ds =>
    rw [Statement.events]
    rw [run_group _ (o := .page name pseudo) rfl]
    rfl
  | fontFace ds =>
    rw [Statement.events]
    rw [run_group _ (o := .fontFace) rfl]
    rfl

/-- **Statements that are reported one after the other are added in order.** -/
theorem run_statements {b : Builder} (h : b.Idle) (ss : List Statement) :
    (b.run (ss.flatMap Statement.events)).sheet = ⟨b.sheet.statements ++ ss⟩ := by
  induction ss generalizing b with
  | nil =>
    rw [List.append_nil]
    rfl
  | cons s ss ih =>
    rw [List.flatMap_cons, run_append, run_statement h, ih (h.push s)]
    rw [push, Sheet.push]
    simp

end Builder

theorem Sheet.ofEvents_statements (ss : List Statement) :
    Sheet.ofEvents (.startDocument :: (ss.flatMap Statement.events ++ [.endDocument])) = ⟨ss⟩ := by
  rw [Sheet.ofEvents_document]
  exact Builder.run_statements (b := Builder.empty.step .startDocument) (Builder.idle_discard _) ss

end Css2
