import Css2.Proofs.Sheet.Built

/-!
# The statements that events account for

A report lists complete statements and statements that were given up.  `Protocol.Accounts` reads
the first kind off the events and passes over the second, and `Protocol.Account` does so for the
report of a whole sheet.

A builder adds exactly these statements (`Builder.run_accounts`): what was received of a statement
that is given up, were it `@media` with complete rulesets inside, is gone when the next one starts.
So every report accounts for one list of statements, and the sheet of a parse is that list
(`Sheet.parseTokens_account`).
-/

namespace Css2

namespace Protocol

/-! ### Reading statements off a report -/

/-- The events report the statements in order, each by a group of its own, and between them
statements that were given up. -/
inductive Accounts : List Event → List Statement → Prop
  | nil : Accounts [] []
  | statement (s : Statement) {es : List Event} {ss : List Statement} :
      Accounts es ss → Accounts (s.events ++ es) (s :: ss)
  | rejected {fs es : List Event} {ss : List Statement} (e : ParseError) :
      Abandoned fs → Accounts es ss → Accounts (fs ++ .error e :: es) ss

/-- The report of a sheet, by its result, accounts for the statements. -/
inductive Account : Except ParseError Unit → List Event → List Statement → Prop
  | complete {es : List Event} {ss : List Statement} : Accounts es ss →
      Account (.ok ()) (.startDocument :: (es ++ [.endDocument])) ss
  | broken {es fs : List Event} {ss : List Statement} (e : ParseError) : Accounts es ss →
      Abandoned fs →
      Account (.error e) (.startDocument :: (es ++ (fs ++ [.unrecoverable e]) ++ [.endDocument])) ss

/-! ### Every report is an account -/

theorem exists_declarations {ps : List Event} (h : ∀ p ∈ ps, p.isProperty) :
    ∃ ds : List Declaration, ps = ds.map Event.property := by
  induction ps with
  | nil => exact ⟨[], rfl⟩
  | cons p ps ih =>
    obtain ⟨ds, rfl⟩ := ih fun q hq => h q (by simp [hq])
    have hp := h p (by simp)
    cases p with
    | property d => exact ⟨d :: ds, rfl⟩
    | _ => cases hp

theorem Group.exists_ruleset {selector : Selector} {es : List Event}
    (h : Group (.startSelector selector) es) : ∃ r : Ruleset, es = r.events := by
  obtain ⟨he, hps⟩ := h
  obtain ⟨ds, rfl⟩ := exists_declarations hps
  cases he
  exact ⟨⟨selector, ds⟩, rfl⟩

theorem Group.exists_statement {s : Event} {es : List Event} (h : Group s es) :
    ∃ t : Statement, es = t.events := by
  cases s with
  | startSelector selector =>
    obtain ⟨r, rfl⟩ := h.exists_ruleset
    exact ⟨.ruleset r, rfl⟩
  | startPage name pseudo =>
    obtain ⟨he, hps⟩ := h
    obtain ⟨ds, rfl⟩ := exists_declarations hps
    cases he
    exact ⟨.page name pseudo ds, rfl⟩
  | startFontFace =>
    obtain ⟨he, hps⟩ := h
    obtain ⟨ds, rfl⟩ := exists_declarations hps
    cases he
    exact ⟨.fontFace ds, rfl⟩
  | _ =>
    -- no other event begins a group
    obtain ⟨he, _⟩ := h
    cases he

theorem Rulesets.exists_rulesets {es : List Event} (h : Rulesets es) :
    ∃ rs : List Ruleset, es = rs.flatMap Ruleset.events := by
  induction h with
  | nil => exact ⟨[], rfl⟩
  | cons hg _ ih =>
    obtain ⟨r, rfl⟩ := hg.exists_ruleset
    obtain ⟨rs, rfl⟩ := ih
    exact ⟨r :: rs, List.flatMap_cons.symm⟩

/-- **An item is a statement or accounts for none.** -/
theorem Item.accounts {i es : List Event} {ss : List Statement} (h : Item i)
    (hs : Accounts es ss) : ∃ ss', Accounts (i ++ es) ss' := by
  cases h with
  | charset name => exact ⟨_, .statement (.charset name) hs⟩
  | importSheet names url => exact ⟨_, .statement (.importSheet url names) hs⟩
  | group hg =>
    obtain ⟨s, rfl⟩ := hg.exists_statement
    exact ⟨_, .statement s hs⟩
  | media names hg =>
    obtain ⟨rs, rfl⟩ := hg.exists_rulesets
    exact ⟨_, .statement (.media names rs) hs⟩
  | rejected e ha =>
    rw [List.append_assoc]
    exact ⟨_, .rejected e ha hs⟩

theorem Items.accounts {es : List Event} (h : Items es) : ∃ ss, Accounts es ss := by
  induction h with
  | nil => exact ⟨[], .nil⟩
  | cons hi _ ih =>
    obtain ⟨ss, hss⟩ := ih
    exact hi.accounts hss

end Protocol

/-! ### What is built -/

namespace Builder

open Protocol

theorem sheet_foldl_push (b : Builder) (ss : List Statement) :
    (ss.foldl push b).sheet = ⟨b.sheet.statements ++ ss⟩ := by
  induction ss generalizing b with
  | nil => simp
  | cons s ss ih => simp [ih, push, Sheet.push]

/-- **A builder adds the statements that events account for**, and nothing else. -/
theorem run_accounts {b : Builder} (h : b.Idle) {es : List Event} {ss : List Statement}
    (ha : Accounts es ss) : b.run es = ss.foldl push b := by
  induction ha generalizing b with
  | nil => rfl
  | statement s _ ih =>
    rw [run_append, run_statement h, ih (h.push s)]
    rfl
  | @rejected fs es ss e hfs _ ih =>
    rw [List.append_cons, run_append, run_error hfs, h.discard, ih h]

end Builder

namespace Protocol

/-- The sheet that a report describes has the statements that the report accounts for. -/
theorem Account.ofEvents {r : Except ParseError Unit} {es : List Event} {ss : List Statement}
    (h : Account r es ss) : Sheet.ofEvents es = ⟨ss⟩ := by
  have hstart : (Builder.empty.step .startDocument).Idle := Builder.idle_discard _
  have hbuilt : ∀ {fs : List Event}, Accounts fs ss →
      Sheet.ofEvents (.startDocument :: fs) = ⟨ss⟩ := by
    intro fs hfs
    show ((Builder.empty.step .startDocument).run fs).sheet = _
    rw [Builder.run_accounts hstart hfs, Builder.sheet_foldl_push]
    rfl
  cases h with
  | complete ha => rw [Sheet.ofEvents_document, hbuilt ha]
  | broken e ha hfs => rw [Sheet.ofEvents_document, Sheet.ofEvents_abandoned hfs, hbuilt ha]

/-- **A report accounts for one list of statements**, the one that it describes as a sheet. -/
theorem Report.account_iff {r : Except ParseError Unit} {es : List Event} (h : Report r es)
    (ss : List Statement) : Account r es ss ↔ ss = (Sheet.ofEvents es).statements := by
  constructor
  · intro ha
    rw [ha.ofEvents]
  · intro hss
    obtain ⟨ts, ha⟩ : ∃ ts, Account r es ts := by
      cases h with
      | complete hi =>
        obtain ⟨ts, hts⟩ := hi.accounts
        exact ⟨ts, .complete hts⟩
      | broken e hi hfs =>
        obtain ⟨ts, hts⟩ := hi.accounts
        exact ⟨ts, .broken e hts hfs⟩
    rw [hss, ha.ofEvents]
    exact ha

end Protocol

/-! ### Sheets -/

/-- **A parse loses, repeats and invents no statement.**  Whatever the tokens and the options are,
the events account for exactly one list of statements, and that is the sheet, be it whole or cut
off at an unrecoverable error. -/
theorem Sheet.parseTokens_account (options : ParseOptions) (tokens : List Token)
    (stop : Location) :
    let r := (Parser.ofTokens tokens stop options).sheet
    ∃ ss, (∀ ss', Protocol.Account r.result r.events ss' ↔ ss' = ss) ∧
      Sheet.parseTokens options tokens stop
        = match r.result with
          | .ok () => .ok ⟨ss⟩
          | .error e => .error ⟨e, ⟨ss⟩⟩ := by
  intro r
  have hreport : Protocol.Report r.result r.events := Parser.report _
  exact ⟨(Sheet.ofEvents r.events).statements, hreport.account_iff, rfl⟩

end Css2
