import Css2.Parser

/-!
# The protocol of events

What a handler may rely on while a sheet is read.  The events of one sheet are a word of a small
language: `startDocument`, items, at most one broken item, `endDocument`.  An item is a statement
that was read, or a statement that was given up, and then all it reported before its `error` is
`@media` and complete rulesets.

`Protocol.Report` is that language, and `Parser.report_sheet` says that every sheet is read in
it, whatever the tokens and the options are.  The step is one statement
(`Protocol.reported_tryStatement`), and the run is the loop over the statements
(`Protocol.run_statements`).
-/

namespace Css2

namespace Event

def isProperty : Event → Bool
  | property _ => true
  | _ => false

/-- The event that ends the group of declarations that an event begins. -/
def groupEnd? : Event → Option Event
  | startSelector _ => some endSelector
  | startPage _ _ => some endPage
  | startFontFace => some endFontFace
  | _ => none

end Event

namespace Protocol

/-! ### The language -/

/-- A group of declarations, from the event that begins it to the one that ends it. -/
inductive Group : Event → List Event → Prop
  | mk {s e : Event} {ps : List Event} : s.groupEnd? = some e → (∀ p ∈ ps, p.isProperty) →
      Group s (s :: (ps ++ [e]))

inductive Rulesets : List Event → Prop
  | nil : Rulesets []
  | cons {s : Selector} {g gs : List Event} : Group (.startSelector s) g → Rulesets gs →
      Rulesets (g ++ gs)

/-- What a statement that is given up has reported: nothing, or the beginning of `@media` and
rulesets inside it. -/
inductive Abandoned : List Event → Prop
  | nothing : Abandoned []
  | media (names : List String) {gs : List Event} : Rulesets gs →
      Abandoned (.startMedia names :: gs)

/-- What one statement reports, be it read or skipped. -/
inductive Item : List Event → Prop
  | charset (name : String) : Item [.charset name]
  | importSheet (names : List String) (url : String) : Item [.importSheet names url]
  | group {s : Event} {es : List Event} : Group s es → Item es
  | media (names : List String) {gs : List Event} : Rulesets gs →
      Item (.startMedia names :: (gs ++ [.endMedia]))
  | rejected {es : List Event} (e : ParseError) : Abandoned es → Item (es ++ [.error e])

inductive Items : List Event → Prop
  | nil : Items []
  | cons {i es : List Event} : Item i → Items es → Items (i ++ es)

/-- What the reading of a sheet reports, by its result. -/
inductive Report : Except ParseError Unit → List Event → Prop
  | complete {es : List Event} : Items es →
      Report (.ok ()) (.startDocument :: (es ++ [.endDocument]))
  | broken {es fs : List Event} (e : ParseError) : Items es → Abandoned fs →
      Report (.error e) (.startDocument :: (es ++ (fs ++ [.unrecoverable e]) ++ [.endDocument]))

/-! ### Groups that are closed -/

/-- Every group of declarations that is begun is ended, with nothing but declarations in
between. -/
def Closed (es : List Event) : Prop :=
  ∀ xs s e ys, es = xs ++ s :: ys → s.groupEnd? = some e →
    ∃ ps zs, ys = ps ++ e :: zs ∧ ∀ p ∈ ps, p.isProperty

theorem closed_of_forall {es : List Event} (h : ∀ s ∈ es, s.groupEnd? = none) : Closed es := by
  intro xs s e ys hes hs
  have hmem : s ∈ es := by rw [hes]; simp
  rw [h s hmem] at hs
  cases hs

theorem Closed.append {es fs : List Event} (he : Closed es) (hf : Closed fs) :
    Closed (es ++ fs) := by
  intro xs s e ys h hs
  rcases List.append_eq_append_iff.1 h with ⟨as, rfl, hfs⟩ | ⟨bs, hes, hbs⟩
  · exact hf as s e ys hfs hs
  · cases bs with
    | nil =>
      rw [List.nil_append] at hbs
      exact hf [] s e ys hbs.symm hs
    | cons b bs =>
      rw [List.cons_append, List.cons.injEq] at hbs
      obtain ⟨rfl, rfl⟩ := hbs
      obtain ⟨ps, zs, rfl, hps⟩ := he xs s e bs hes hs
      exact ⟨ps, zs ++ fs, by simp, hps⟩

theorem Closed.cons {s : Event} {es : List Event} (hs : s.groupEnd? = none) (h : Closed es) :
    Closed (s :: es) :=
  (closed_of_forall (by simpa using hs) : Closed [s]).append h

theorem closed_nil : Closed [] :=
  closed_of_forall (by simp)

theorem groupEnd?_of_isProperty {p : Event} (h : p.isProperty) : p.groupEnd? = none := by
  cases p <;> first | rfl | cases h

theorem groupEnd?_groupEnd? {s e : Event} (h : s.groupEnd? = some e) : e.groupEnd? = none := by
  cases s <;> cases h <;> rfl

theorem Group.closed {s : Event} {es : List Event} (h : Group s es) : Closed es := by
  obtain ⟨he, hps⟩ := h
  rename_i e ps
  intro xs t f ys hsplit ht
  cases xs with
  | nil =>
    rw [List.nil_append, List.cons.injEq] at hsplit
    obtain ⟨rfl, rfl⟩ := hsplit
    rw [he, Option.some.injEq] at ht
    subst ht
    exact ⟨ps, [], rfl, hps⟩
  | cons x xs =>
    -- behind its first event, a group begins nothing
    rw [List.cons_append, List.cons.injEq] at hsplit
    have htail : ∀ u ∈ ps ++ [e], u.groupEnd? = none := by
      intro u hu
      rcases List.mem_append.1 hu with hu | hu
      · exact groupEnd?_of_isProperty (hps u hu)
      · rw [List.mem_singleton.1 hu]
        exact groupEnd?_groupEnd? he
    exact closed_of_forall htail xs t f ys hsplit.2 ht

theorem Rulesets.closed {es : List Event} (h : Rulesets es) : Closed es := by
  induction h with
  | nil => exact closed_nil
  | cons hg _ ih => exact hg.closed.append ih

theorem Abandoned.closed {es : List Event} (h : Abandoned es) : Closed es := by
  cases h with
  | nothing => exact closed_nil
  | media names hg =>
    exact hg.closed.cons rfl

theorem Item.closed {es : List Event} (h : Item es) : Closed es := by
  cases h with
  | charset name => exact closed_nil.cons rfl
  | importSheet names url => exact closed_nil.cons rfl
  | group hg => exact hg.closed
  | media names hg =>
    exact (hg.closed.append (closed_nil.cons rfl)).cons rfl
  | rejected e ha => exact ha.closed.append (closed_nil.cons rfl)

theorem Items.closed {es : List Event} (h : Items es) : Closed es := by
  induction h with
  | nil => exact closed_nil
  | cons hi _ ih => exact hi.closed.append ih

/-- **A report leaves no group of declarations open.** -/
theorem Report.closed {r : Except ParseError Unit} {es : List Event} (h : Report r es) :
    Closed es := by
  cases h with
  | complete hi =>
    exact (hi.closed.append (closed_nil.cons rfl)).cons rfl
  | broken e hi ha =>
    have hlast : Closed [.unrecoverable e] := closed_nil.cons rfl
    exact ((hi.closed.append (ha.closed.append hlast)).append (closed_nil.cons rfl)).cons rfl

/-! ### The unrecoverable event -/

theorem Group.not_unrecoverable {s : Event} {es : List Event} (h : Group s es)
    (e : ParseError) : Event.unrecoverable e ∉ es := by
  obtain ⟨he, hps⟩ := h
  rename_i f ps
  intro hmem
  rcases List.mem_cons.1 hmem with rfl | hmem
  · cases he
  · rcases List.mem_append.1 hmem with hp | hf
    · cases hps _ hp
    · rw [List.mem_singleton] at hf
      subst hf
      cases s <;> cases he

theorem Rulesets.not_unrecoverable {es : List Event} (h : Rulesets es) (e : ParseError) :
    Event.unrecoverable e ∉ es := by
  induction h with
  | nil => simp
  | cons hg _ ih => exact List.not_mem_append (hg.not_unrecoverable e) ih

theorem Abandoned.not_unrecoverable {es : List Event} (h : Abandoned es) (e : ParseError) :
    Event.unrecoverable e ∉ es := by
  cases h with
  | nothing => simp
  | media names hg => simpa using hg.not_unrecoverable e

theorem Item.not_unrecoverable {es : List Event} (h : Item es) (e : ParseError) :
    Event.unrecoverable e ∉ es := by
  cases h with
  | charset name => simp
  | importSheet names url => simp
  | group hg => exact hg.not_unrecoverable e
  | media names hg => simpa using hg.not_unrecoverable e
  | rejected e' ha => simpa using ha.not_unrecoverable e

theorem Items.not_unrecoverable {es : List Event} (h : Items es) (e : ParseError) :
    Event.unrecoverable e ∉ es := by
  induction h with
  | nil => simp
  | cons hi _ ih => exact List.not_mem_append (hi.not_unrecoverable e) ih

/-- **The broken item is there exactly when the result is an error**, and it carries that
error. -/
theorem Report.unrecoverable_mem_iff {r : Except ParseError Unit} {es : List Event}
    (h : Report r es) (e : ParseError) : Event.unrecoverable e ∈ es ↔ r = .error e := by
  cases h with
  | complete hi =>
    have := hi.not_unrecoverable e
    simp [this]
  | broken e' hi ha =>
    have h1 := hi.not_unrecoverable e
    have h2 := ha.not_unrecoverable e
    simp [h1, h2, eq_comm]

/-! ### One statement -/

theorem group_ruleset (r : Ruleset) : Group (.startSelector r.selector) r.events :=
  .mk rfl (by simp [Event.isProperty])

theorem rulesets_flatMap (rs : List Ruleset) : Rulesets (rs.flatMap Ruleset.events) := by
  induction rs with
  | nil => exact .nil
  | cons r rs ih =>
    rw [List.flatMap_cons]
    exact .cons (group_ruleset r) ih

theorem item_statement (s : Statement) : Item s.events := by
  cases s with
  | ruleset r => exact .group (group_ruleset r)
  | importSheet url names => exact .importSheet names url
  | media names rs => exact .media names (rulesets_flatMap rs)
  | page name pseudo ds =>
    exact .group (s := .startPage name pseudo) (.mk rfl (by simp [Event.isProperty]))
  | charset name => exact .charset name
  | fontFace ds => exact .group (s := .startFontFace) (.mk rfl (by simp [Event.isProperty]))

/-- The ways in which an attempt at a statement ends: with nothing reported, with a whole statement,
or with the beginning of `@media` and rulesets inside it. -/
inductive Ends (a : Attempt) : Prop
  | nothing {e : Failure} : a.result = .error e → a.events = [] → Ends a
  | statement {rest : List Token} (s : Statement) :
      a.result = .ok rest → a.events = s.events → Ends a
  | media {e : Failure} (names : List String) (rules : List Ruleset) :
      a.result = .error e → a.events = .startMedia names :: rules.flatMap Ruleset.events → Ends a

theorem ends_failed (kind : StatementKind) (e : Failure) : Ends (Grammar.failed kind e) :=
  .nothing rfl rfl

theorem ends_succeeded (kind : StatementKind) (s : Statement) (skipped : List Failure)
    (rest : List Token) : Ends (Grammar.succeeded kind s skipped rest) :=
  .statement s rfl rfl

theorem ends_tryMedia (n : Nesting) (ts : List Token) : Ends (Grammar.tryMedia n ts) := by
  rw [Grammar.tryMedia]
  split
  · exact ends_failed _ _
  · next names deeper us _ =>
    dsimp only
    split
    · exact ends_succeeded _ _ _ _
    · -- the only failure behind an event: `@media` and the rulesets before the bad one
      exact .media names _ rfl rfl

theorem ends_tryStatement (n : Nesting) (phase : Phase) (ts : List Token) :
    Ends (Grammar.tryStatement n phase ts) := by
  rw [Grammar.tryStatement]
  split
  · rw [Grammar.tryRuleset]
    split
    · exact ends_failed _ _
    · exact ends_succeeded _ _ _ _
  · split
    · rw [Grammar.tryCharset]
      split
      · exact ends_failed _ _
      · exact ends_succeeded _ _ _ _
    · exact .nothing rfl rfl
  · split
    · exact .nothing rfl rfl
    · rw [Grammar.tryImport]
      split
      · exact ends_failed _ _
      · exact ends_succeeded _ _ _ _
  · exact ends_tryMedia _ _
  · rw [Grammar.tryPage]
    split
    · exact ends_failed _ _
    · exact ends_succeeded _ _ _ _
  · rw [Grammar.tryFontFace]
    split
    · exact ends_failed _ _
    · exact ends_succeeded _ _ _ _
  · exact .nothing rfl rfl

/-- What an attempt at a statement has reported when it ends. -/
def Reported (a : Attempt) : Prop :=
  match a.result with
  | .ok _ => Item a.events
  | .error _ => Abandoned a.events

/-- **A statement that is read reports an item, and one that is not has reported nothing but the
beginning of `@media`.** -/
theorem reported_tryStatement (n : Nesting) (phase : Phase) (ts : List Token) :
    Reported (Grammar.tryStatement n phase ts) := by
  rw [Reported]
  cases ends_tryStatement n phase ts with
  | nothing hresult hevents =>
    rw [hresult, hevents]
    exact .nothing
  | statement s hresult hevents =>
    rw [hresult, hevents]
    exact item_statement s
  | media names rules hresult hevents =>
    rw [hresult, hevents]
    exact .media names (rulesets_flatMap rules)

/-! ### The run -/

/-- What the statements of a sheet report, by their result. -/
inductive Run : Except ParseError Unit → List Event → Prop
  | complete {es : List Event} : Items es → Run (.ok ()) es
  | broken {es fs : List Event} (e : ParseError) : Items es → Abandoned fs →
      Run (.error e) (es ++ (fs ++ [.unrecoverable e]))

theorem Run.after {r : Except ParseError Unit} {i es : List Event} (hi : Item i) (h : Run r es) :
    Run r (i ++ es) := by
  cases h with
  | complete hs => exact .complete (.cons hi hs)
  | broken e hs ha =>
    rw [← List.append_assoc]
    exact .broken e (.cons hi hs) ha

theorem run_statements (options : ParseOptions) (stop : Location) (phase : Phase)
    (ts : List Token) :
    Run (Parser.statements options stop phase ts).result
      (Parser.statements options stop phase ts).events := by
  fun_induction Parser.statements options stop phase ts with
  | case1 => exact .complete .nil
  | case2 phase ts t rest hs n phase' after events skipped activity ha ih =>
    have hr := reported_tryStatement n phase (t :: rest)
    rw [ha] at hr
    exact ih.after hr
  | case3 phase ts t rest hs n phase' e events skipped activity ha hf after hk ih =>
    have hr := reported_tryStatement n phase (t :: rest)
    rw [ha] at hr
    exact ih.after (.rejected _ hr)
  | case4 phase ts t rest hs n e events skipped activity ha notes hf e' hk =>
    have hr := reported_tryStatement n phase (t :: rest)
    rw [ha] at hr
    exact @Run.broken [] _ _ .nil hr
  | case5 phase ts t rest hs n e events skipped activity ha notes hf =>
    have hr := reported_tryStatement n phase (t :: rest)
    rw [ha] at hr
    exact @Run.broken [] _ _ .nil hr

end Protocol

/-! ### Sheets -/

open Protocol in
theorem Parser.report (p : Parser) : Report p.sheet.result p.sheet.events := by
  have hrun := run_statements p.options p.stop .start p.tokens
  rw [Parser.sheet]
  dsimp only
  generalize Parser.statements p.options p.stop .start p.tokens = s at hrun
  obtain ⟨events, result, diagnostics, rest⟩ := s
  cases hrun with
  | complete hi => exact .complete hi
  | broken e hi ha => exact .broken e hi ha

open Protocol in
/-- **A sheet is reported in the language of events**, whatever the tokens and the options are:
the broken item is there exactly when the result is an error, and no group of declarations is
left open. -/
theorem Parser.report_sheet (p : Parser) :
    Report p.sheet.result p.sheet.events ∧
      (∀ e, Event.unrecoverable e ∈ p.sheet.events ↔ p.sheet.result = .error e) ∧
      Closed p.sheet.events :=
  ⟨p.report, p.report.unrecoverable_mem_iff, p.report.closed⟩

end Css2
