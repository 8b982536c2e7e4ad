import Css2.Proofs.Sheet.Strict

/-!
# Invariants of the loop over the statements

A turn of the loop adds the statement that was read to the sheet, or adds nothing if the statement
was skipped, and moves the phase on by the keyword in either case.  What both kinds of turns keep
(`Parser.Keeps`) holds of the statements of every sheet (`Parser.Keeps.ofEvents`), were it only the
part before a statement that could be neither read nor skipped.
-/

namespace Css2

theorem Protocol.Accounts.append {es fs : List Event} {ss ts : List Statement}
    (h : Accounts es ss) (h' : Accounts fs ts) : Accounts (es ++ fs) (ss ++ ts) := by
  induction h with
  | nil => exact h'
  | statement s _ ih =>
    rw [List.append_assoc]
    exact .statement s ih
  | rejected e ha _ ih =>
    rw [List.append_assoc]
    exact .rejected e ha ih

namespace Parser

open Protocol

/-- What is said of the phase and of the statements built so far holds before the first statement,
and the turns of the loop keep it. -/
structure Keeps (options : ParseOptions) (P : Phase → List Statement → Prop) : Prop where
  start : P .start []
  /-- A statement that is read is added. -/
  read {phase : Phase} {ts rest : List Token} {ss : List Statement} (h : P phase ss)
    (hr : (Grammar.tryStatement ⟨options.maxNesting, 0⟩ phase ts).result = .ok rest) :
    ∃ s : Statement, (Grammar.tryStatement ⟨options.maxNesting, 0⟩ phase ts).events = s.events ∧
      P (nextPhase phase (Grammar.keyword? ts)) (ss ++ [s])
  /-- A statement that is skipped moves the phase on by its keyword. -/
  skipped {phase : Phase} {ss : List Statement} (h : P phase ss) (keyword : Option String) :
    P (nextPhase phase keyword) ss

variable {options : ParseOptions} {P : Phase → List Statement → Prop}

/-- **What the loop reaches accounts for statements with the invariant.** -/
theorem Keeps.reaches (hP : Keeps options P) {stop : Location} {ts rest : List Token}
    {events : List Event} {phase : Phase} (h : Reaches options stop ts events phase rest) :
    ∃ ss, Accounts events ss ∧ P phase ss := by
  induction h with
  | start => exact ⟨[], .nil, hP.start⟩
  | read _ _ hr ih =>
    obtain ⟨ss, hss, hholds⟩ := ih
    obtain ⟨s, hs, hnext⟩ := hP.read hholds hr
    have hone : Accounts s.events [s] := by
      simpa using Accounts.statement s .nil
    rw [hs]
    exact ⟨ss ++ [s], hss.append hone, hnext⟩
  | @skipped events phase rest tail after t e _ _ hr _ _ ih =>
    obtain ⟨ss, hss, hholds⟩ := ih
    have habandoned := reported_tryStatement ⟨options.maxNesting, 0⟩ phase (t :: tail)
    rw [Reported, hr] at habandoned
    refine ⟨ss, ?_, hP.skipped hholds _⟩
    simpa using hss.append (.rejected (e.toError stop) habandoned .nil)

/-- **What is reported of a sheet accounts for statements with the invariant**, whether the sheet
ends well or at a statement that can be neither read nor skipped. -/
theorem Keeps.account {p : Parser} (hP : Keeps p.options P) :
    ∃ phase ss, Account p.sheet.result p.sheet.events ss ∧ P phase ss := by
  rw [sheet]
  dsimp only
  cases hr : (statements p.options p.stop .start p.tokens).result with
  | ok _ =>
    obtain ⟨events, phase, rest, hreach, hs⟩ := Reaches.ended .start hr
    obtain ⟨ss, hss, hholds⟩ := hP.reaches hreach
    rw [hreach.statements_of_ended hs]
    exact ⟨phase, ss, .complete hss, hholds⟩
  | error error =>
    obtain ⟨events, phase, rest, t, tail, cause, fs, hreach, -, -, habandoned, hevents⟩ :=
      Reaches.broken .start hr
    obtain ⟨ss, hss, hholds⟩ := hP.reaches hreach
    rw [show (statements p.options p.stop .start p.tokens).events = _ from hevents]
    exact ⟨phase, ss, .broken error hss habandoned, hholds⟩

/-- **The statements of a sheet have the invariant**, in the phase in which the loop has left
them. -/
theorem Keeps.ofEvents {p : Parser} (hP : Keeps p.options P) :
    ∃ phase, P phase (Sheet.ofEvents p.sheet.events).statements := by
  obtain ⟨phase, ss, haccount, hholds⟩ := hP.account
  rw [haccount.ofEvents]
  exact ⟨phase, hholds⟩

end Parser

end Css2
