import Css2.Proofs.Sheet.Prefix

/-!
# Builders only append

Whoever sends the events may send them in any order.  A step of a builder adds at most one statement
behind those that are there (`Builder.step_sheet`), and it does not look at them, so that a builder
that starts with statements goes on as one that starts with none (`Builder.run_behind`).  An event
that drops what is being received leaves nothing but the statements (`Builder.step_of_discards`).

A statement is there because its parts were sent: a group of declarations from the event that begins
it to the one that ends it, with no other one in between (`Event.Sends`).  This is kept by every
step (`Builder.Received.step`).  So what is appended behind an event that drops what is being
received was sent behind it (`Builder.run_appends`).
-/

namespace Css2

/-! ### Events -/

namespace Event

/-- Whether the event makes a builder drop what it is receiving. -/
def discards : Event → Bool
  | startDocument | error _ | unrecoverable _ => true
  | _ => false

/-- Whether the event may add a statement to a sheet. -/
def completes : Event → Bool
  | charset _ | importSheet _ _ | endSelector | endMedia | endPage | endFontFace => true
  | _ => false

/-- Whether a group of declarations goes on behind the event: it neither begins nor ends a group,
nor drops one. -/
def keepsGroup : Event → Bool
  | endDocument | charset _ | importSheet _ _ | property _ | startMedia _ | endMedia => true
  | _ => false

def declaration? : Event → Option Declaration
  | property d => some d
  | _ => none

/-- The events send a group of declarations: it begins with `first` and comes to its end, and the
declarations in between are `ds`. -/
def Sends (es : List Event) (first : Event) (ds : List Declaration) : Prop :=
  ∃ before inside last after, es = before ++ first :: (inside ++ last :: after) ∧
    first.groupEnd? = some last ∧ (∀ e ∈ inside, e.keepsGroup) ∧ inside.filterMap declaration? = ds

theorem Sends.append {es : List Event} {first : Event} {ds : List Declaration}
    (h : Sends es first ds) (fs : List Event) : Sends (es ++ fs) first ds := by
  obtain ⟨before, inside, last, after, rfl, hlast, hinside, hds⟩ := h
  exact ⟨before, inside, last, after ++ fs, by simp, hlast, hinside, hds⟩

end Event

def Ruleset.ReceivedIn (es : List Event) (r : Ruleset) : Prop :=
  Event.Sends es (.startSelector r.selector) r.declarations

/-- The statement, with its rulesets and declarations, is among what the events send. -/
def Statement.ReceivedIn (es : List Event) : Statement → Prop
  | ruleset r => r.ReceivedIn es
  | importSheet url names => .importSheet names url ∈ es
  | media names rules => .startMedia names ∈ es ∧ ∀ r ∈ rules, r.ReceivedIn es
  | page name pseudo ds => Event.Sends es (.startPage name pseudo) ds
  | charset name => .charset name ∈ es
  | fontFace ds => Event.Sends es .startFontFace ds

theorem Statement.ReceivedIn.append {es : List Event} {s : Statement} (h : s.ReceivedIn es)
    (fs : List Event) : s.ReceivedIn (es ++ fs) := by
  cases s with
  | ruleset r => exact Event.Sends.append h fs
  | importSheet url names => exact List.mem_append_left fs h
  | media names rules =>
    exact ⟨List.mem_append_left fs h.1, fun r hr => Event.Sends.append (h.2 r hr) fs⟩
  | page name pseudo ds => exact Event.Sends.append h fs
  | charset name => exact List.mem_append_left fs h
  | fontFace ds => exact Event.Sends.append h fs

namespace Builder

variable {b : Builder} {e : Event}

/-! ### One statement at most -/

/-- **A step adds at most one statement**, and none if the event is not one that may complete one.
-/
theorem step_sheet (b : Builder) (e : Event) :
    ∃ s : Option Statement, (b.step e).sheet.statements = b.sheet.statements ++ s.toList ∧
      (e.completes = false → s = none) := by
  have hnone {c : Builder} (h : c.sheet = b.sheet) : ∃ s : Option Statement,
      c.sheet.statements = b.sheet.statements ++ s.toList ∧ (e.completes = false → s = none) := by
    refine ⟨none, ?_, fun _ => rfl⟩
    rw [h, Option.toList_none, List.append_nil]
  have hsome {c : Builder} {s : Statement} (h : c.sheet.statements = b.sheet.statements ++ [s])
      (he : e.completes = true) : ∃ s : Option Statement,
        c.sheet.statements = b.sheet.statements ++ s.toList ∧ (e.completes = false → s = none) := by
    refine ⟨some s, h, fun hfalse => ?_⟩
    rw [he] at hfalse
    cases hfalse
  cases e with
  | charset name => exact hsome rfl rfl
  | importSheet names url => exact hsome rfl rfl
  | endSelector =>
    simp only [step]
    split
    · rw [addRuleset]
      split
      · exact hnone rfl
      · exact hsome rfl rfl
    · exact hnone rfl
  | endMedia =>
    simp only [step]
    split
    · exact hsome rfl rfl
    · exact hnone rfl
  | endPage =>
    simp only [step]
    split
    · exact hsome rfl rfl
    · exact hnone rfl
  | endFontFace =>
    simp only [step]
    split
    · exact hsome rfl rfl
    · exact hnone rfl
  | property d =>
    simp only [step]
    split
    · exact hnone rfl
    · exact hnone rfl
  | _ => exact hnone rfl

/-! ### Statements that are there already -/

/-- The builder with statements in front of those that it has. -/
def behind (ss : List Statement) (b : Builder) : Builder :=
  { b with sheet := ⟨ss ++ b.sheet.statements⟩ }

theorem push_behind (ss : List Statement) (b : Builder) (s : Statement) :
    (b.behind ss).push s = (b.push s).behind ss := by
  simp [behind, push, Sheet.push]

/-- **A step does not look at the statements that are there.** -/
theorem step_behind (ss : List Statement) (b : Builder) (e : Event) :
    (b.behind ss).step e = (b.step e).behind ss := by
  cases e with
  | charset name => exact push_behind ss b _
  | importSheet names url => exact push_behind ss b _
  | endSelector =>
    obtain ⟨sheet, current, media⟩ := b
    rcases current with _ | ⟨⟨selector⟩ | _ | _, ds⟩
    · rfl
    · cases media with
      | none => exact push_behind ss ⟨sheet, none, none⟩ _
      | some m => rfl
    · rfl
    · rfl
  | endMedia =>
    obtain ⟨sheet, current, media⟩ := b
    cases media with
    | none => rfl
    | some m => exact push_behind ss ⟨sheet, current, none⟩ _
  | endPage =>
    obtain ⟨sheet, current, media⟩ := b
    rcases current with _ | ⟨_ | ⟨name, pseudo⟩ | _, ds⟩
    · rfl
    · rfl
    · exact push_behind ss ⟨sheet, none, media⟩ _
    · rfl
  | endFontFace =>
    obtain ⟨sheet, current, media⟩ := b
    rcases current with _ | ⟨_ | _ | _, ds⟩
    · rfl
    · rfl
    · rfl
    · exact push_behind ss ⟨sheet, none, media⟩ _
  | property d =>
    obtain ⟨sheet, current, media⟩ := b
    cases current <;> rfl
  | _ => rfl

/-- A builder that starts with statements goes on as one that starts with none. -/
theorem run_behind (ss : List Statement) (b : Builder) (es : List Event) :
    (b.behind ss).run es = (b.run es).behind ss := by
  induction es generalizing b with
  | nil => rfl
  | cons e es ih =>
    show ((b.behind ss).step e).run es = ((b.step e).run es).behind ss
    rw [step_behind, ih]

/-- An event that drops what is being received leaves the statements and nothing else. -/
theorem step_of_discards (b : Builder) (h : e.discards = true) :
    b.step e = empty.behind b.sheet.statements := by
  have hdiscard : b.discard = empty.behind b.sheet.statements := by
    simp [discard, behind, empty, Sheet.empty]
  cases e with
  | startDocument | error | unrecoverable => exact hdiscard
  | _ => cases h

/-! ### What was sent -/

/-- The event with which the builder began to receive declarations. -/
def Open.event : Open → Event
  | ruleset selector => .startSelector selector
  | page name pseudo => .startPage name pseudo
  | fontFace => .startFontFace

/-- What the builder has was sent: its statements, the declarations that it is receiving, behind the
event that began them, and the rulesets of the `@media` block. -/
structure Received (es : List Event) (b : Builder) : Prop where
  statements : ∀ s ∈ b.sheet.statements, s.ReceivedIn es
  current : ∀ o ds, b.current = some (o, ds) → ∃ before inside,
    es = before ++ o.event :: inside ∧ (∀ e ∈ inside, e.keepsGroup) ∧
      inside.filterMap Event.declaration? = ds
  media : ∀ names rules, b.media = some (names, rules) →
    .startMedia names ∈ es ∧ ∀ r ∈ rules, r.ReceivedIn es

theorem received_empty : Received [] empty where
  statements := List.forall_mem_nil _
  current := by rintro _ _ ⟨⟩
  media := by rintro _ _ ⟨⟩

variable {es : List Event}

/-- A group that is being received is sent when the event comes that ends it. -/
theorem Received.sends (h : Received es b) {o : Open} {ds : List Declaration}
    (hcurrent : b.current = some (o, ds)) (hlast : o.event.groupEnd? = some e) :
    Event.Sends (es ++ [e]) o.event ds := by
  obtain ⟨before, inside, rfl, hinside, hds⟩ := h.current o ds hcurrent
  exact ⟨before, inside, e, [], by simp, hlast, hinside, hds⟩

theorem Received.statements_append (h : Received es b) (fs : List Event) :
    ∀ s ∈ b.sheet.statements, s.ReceivedIn (es ++ fs) :=
  fun s hs => (h.statements s hs).append fs

theorem Received.media_append (h : Received es b) (fs : List Event) (names : List String)
    (rules : List Ruleset) (hmedia : b.media = some (names, rules)) :
    .startMedia names ∈ es ++ fs ∧ ∀ r ∈ rules, r.ReceivedIn (es ++ fs) :=
  have hsent := h.media names rules hmedia
  ⟨List.mem_append_left fs hsent.1, fun r hr => Event.Sends.append (hsent.2 r hr) fs⟩

/-- Declarations are still being received behind an event that keeps the group. -/
theorem Received.current_append (h : Received es b) (hkeeps : e.keepsGroup = true) (o : Open)
    (ds : List Declaration) (hcurrent : b.current = some (o, ds)) : ∃ before inside,
      es ++ [e] = before ++ o.event :: inside ∧ (∀ f ∈ inside, f.keepsGroup) ∧
        inside.filterMap Event.declaration? = ds ++ e.declaration?.toList := by
  obtain ⟨before, inside, rfl, hinside, rfl⟩ := h.current o ds hcurrent
  refine ⟨before, inside ++ [e], by simp, ?_, ?_⟩
  · intro f hf
    rcases List.mem_append.1 hf with hf | hf
    · exact hinside f hf
    · rwa [List.mem_singleton.1 hf]
  · rw [List.filterMap_append, List.filterMap_cons, List.filterMap_nil]
    cases e.declaration? <;> rfl

theorem Received.push (h : Received es b) {s : Statement} (hs : s.ReceivedIn es) :
    Received es (b.push s) where
  statements t ht := by
    rcases List.mem_append.1 ht with ht | ht
    · exact h.statements t ht
    · rwa [List.mem_singleton.1 ht]
  current := h.current
  media := h.media

theorem Received.addRuleset (h : Received es b) {r : Ruleset} (hr : r.ReceivedIn es) :
    Received es (b.addRuleset r) := by
  unfold Builder.addRuleset
  split
  · next names rules hmedia =>
    obtain ⟨hstart, hrules⟩ := h.media names rules hmedia
    refine ⟨h.statements, h.current, ?_⟩
    rintro _ _ ⟨⟩
    refine ⟨hstart, fun t ht => ?_⟩
    rcases List.mem_append.1 ht with ht | ht
    · exact hrules t ht
    · rwa [List.mem_singleton.1 ht]
  · exact h.push hr

theorem Received.keep (h : Received es b) (hkeeps : e.keepsGroup = true)
    (hnone : e.declaration? = none) : Received (es ++ [e]) b where
  statements := h.statements_append [e]
  current o ds hcurrent := by
    have hsent := h.current_append hkeeps o ds hcurrent
    rwa [hnone, Option.toList_none, List.append_nil] at hsent
  media := h.media_append [e]

theorem Received.start (h : Received es b) (o : Open) : Received (es ++ [o.event]) (b.start o) where
  statements := h.statements_append [o.event]
  current := by
    rintro _ _ ⟨⟩
    exact ⟨es, [], rfl, List.forall_mem_nil _, rfl⟩
  media := h.media_append [o.event]

theorem Received.close (h : Received es b) (e : Event) :
    Received (es ++ [e]) { b with current := none } where
  statements := h.statements_append [e]
  current := by rintro _ _ ⟨⟩
  media := h.media_append [e]

theorem Received.discard (h : Received es b) (e : Event) : Received (es ++ [e]) b.discard where
  statements := h.statements_append [e]
  current := by rintro _ _ ⟨⟩
  media := by rintro _ _ ⟨⟩

/-- **A step adds nothing that was not sent.** -/
theorem Received.step (h : Received es b) (e : Event) : Received (es ++ [e]) (b.step e) := by
  cases e with
  | startDocument | error | unrecoverable => exact h.discard _
  | endDocument => exact h.keep rfl rfl
  | charset name => exact (h.keep rfl rfl).push (by simp [Statement.ReceivedIn])
  | importSheet names url => exact (h.keep rfl rfl).push (by simp [Statement.ReceivedIn])
  | startSelector selector => exact h.start (.ruleset selector)
  | startPage name pseudo => exact h.start (.page name pseudo)
  | startFontFace => exact h.start .fontFace
  | endSelector =>
    simp only [Builder.step]
    split
    · next selector ds hcurrent => exact (h.close _).addRuleset (h.sends hcurrent rfl)
    · exact h.close _
  | endPage =>
    simp only [Builder.step]
    split
    · next name pseudo ds hcurrent => exact (h.close _).push (h.sends hcurrent rfl)
    · exact h.close _
  | endFontFace =>
    simp only [Builder.step]
    split
    · next ds hcurrent => exact (h.close _).push (h.sends hcurrent rfl)
    · exact h.close _
  | property d =>
    simp only [Builder.step]
    split
    · next o ds hcurrent =>
      refine ⟨h.statements_append _, ?_, h.media_append _⟩
      rintro _ _ ⟨⟩
      exact h.current_append rfl o ds hcurrent
    · next hcurrent =>
      refine ⟨h.statements_append _, ?_, h.media_append _⟩
      intro o ds ho
      rw [hcurrent] at ho
      cases ho
  | startMedia names =>
    have hkeep := h.keep (e := .startMedia names) rfl rfl
    refine ⟨hkeep.statements, hkeep.current, ?_⟩
    rintro _ _ ⟨⟩
    exact ⟨by simp, List.forall_mem_nil _⟩
  | endMedia =>
    have hkeep := h.keep (e := .endMedia) rfl rfl
    simp only [Builder.step]
    split
    · next names rules hmedia =>
      have hclosed : Received (es ++ [.endMedia]) { b with media := none } :=
        ⟨hkeep.statements, hkeep.current, by rintro _ _ ⟨⟩⟩
      exact hclosed.push (hkeep.media names rules hmedia)
    · exact hkeep

/-- **All that a builder has was sent to it.** -/
theorem Received.run (h : Received es b) (fs : List Event) : Received (es ++ fs) (b.run fs) := by
  induction fs generalizing es b with
  | nil => rwa [List.append_nil]
  | cons e fs ih =>
    rw [List.append_cons]
    exact ih (h.step e)

/-! ### Any events -/

/-- **A builder only appends**, whatever the events are and however they are nested.  An event adds
at most one statement behind those that are there, and one of those that complete no statement adds
none.  What is appended behind an event that drops what is being received is what the events behind
it build alone, and it was sent in them. -/
theorem run_appends (before : List Event) (e : Event) (after : List Event) :
    (∃ s : Option Statement,
        (empty.run (before ++ [e])).sheet.statements =
          (empty.run before).sheet.statements ++ s.toList ∧
        (e.completes = false → s = none)) ∧
      (e.discards = true → ∃ ss : List Statement,
        (empty.run (before ++ e :: after)).sheet.statements =
          (empty.run before).sheet.statements ++ ss ∧
        ss = (empty.run after).sheet.statements ∧ ∀ s ∈ ss, s.ReceivedIn after) := by
  constructor
  · rw [run_append]
    exact step_sheet (empty.run before) e
  · intro hdiscards
    refine ⟨(empty.run after).sheet.statements, ?_, rfl, (received_empty.run after).statements⟩
    rw [run_append]
    show (((empty.run before).step e).run after).sheet.statements = _
    rw [step_of_discards _ hdiscards, run_behind]
    rfl

/-- A block and a group are open when a document starts, and their ends come behind that. -/
theorem run_appends_open :
    let before : List Event := [.charset "a", .startMedia ["tv"], .startFontFace]
    let after : List Event :=
      [.endFontFace, .endMedia, .startMedia ["print"], .startFontFace, .endMedia, .endFontFace]
    (∃ s : Option Statement, (empty.run (before ++ [.startDocument])).sheet.statements =
        (empty.run before).sheet.statements ++ s.toList ∧ s = none) ∧
      Event.discards .startDocument = true ∧ ∃ ss : List Statement,
        (empty.run (before ++ .startDocument :: after)).sheet.statements = .charset "a" :: ss ∧
        ss = [.media ["print"] [], .fontFace []] ∧ ∀ s ∈ ss, s.ReceivedIn after := by
  intro before after
  obtain ⟨⟨s, hstep, hnone⟩, hreset⟩ := run_appends before .startDocument after
  obtain ⟨ss, hrun, hss, hreceived⟩ := hreset rfl
  exact ⟨⟨s, hstep, hnone rfl⟩, rfl, ss, hrun, hss, hreceived⟩

end Builder

end Css2
