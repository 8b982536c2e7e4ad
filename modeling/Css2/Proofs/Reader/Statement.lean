import Css2.Proofs.Reader.Core
import Css2.Proofs.Reader.Declaration
import Css2.Proofs.Reader.Selector
import Css2.Reader.Statement

/-!
# Readers of statements

A reader that tries to read a statement leaves behind what the grammar says of the attempt
(`Reader.does_cssStatement`): the result, the events in their order, a note of each part that was
skipped, and the activity, on the paths that fail as on those that succeed.
-/

namespace Css2

namespace Grammar

/-- Reads the head of `@page`. -/
def pageHead (ts : List Token) :
    Except Failure ((Option String × Option String) × List Token) := do
  let (name, ts) := pageName ts
  let (pseudo, ts) ← pagePseudo ts
  .ok ((name, pseudo), skipTrivia ts)

/-- Reads the names of media up to and including the brace behind them. -/
def mediaNames (ts : List Token) : Except Failure (List String × List Token) := do
  let (names, ts) ← mediaList ts
  let ts ← expect .openBrace ts
  .ok (names, ts)

end Grammar

namespace Reader

variable {r : Reader}

/-! ### The heads of at-rules -/

theorem reads_mediaList (r : Reader) : Reads mediaList r (Grammar.mediaList r.unread) := by
  induction hn : r.unread.length using Nat.strongRecOn generalizing r with
  | ind n ih =>
    subst hn
    rw [mediaList.eq_1, Grammar.mediaList_eq]
    refine .bind (reads_ident _ r) fun name r₁ _ hi => .skipTrivia fun r₂ _ hu₂ => ?_
    have hlt := Grammar.ident_lt hi
    have hle := Grammar.skipTrivia_le r₁.unread
    dsimp only
    rw [← hu₂] at hle ⊢
    cases hu : r₂.unread with
    | nil => exact .nextIs (b := false) (by rw [hu]; rfl) (.pure _ hu)
    | cons t rest =>
      rw [hu, List.length_cons] at hle
      have hskip := Grammar.skipTrivia_le rest
      obtain ⟨l, loc⟩ := t
      cases l with
      | mark m =>
        cases m with
        | comma =>
          refine .nextIs (b := true) (by rw [hu]; rfl) ?_
          refine .bump hu fun r₃ _ hu₃ => .skipTrivia fun r₄ _ hu₄ => ?_
          rw [hu₃] at hu₄
          dsimp only
          rw [← hu₄] at hskip ⊢
          exact .bind (ih _ (by omega) r₄ rfl) fun names r₅ _ _ => .pure _ rfl
        | _ => exact .nextIs (b := false) (by rw [hu]; rfl) (.pure _ hu)
      | _ => exact .nextIs (b := false) (by rw [hu]; rfl) (.pure _ hu)

theorem reads_importAddress (r : Reader) :
    Reads importAddress r (Grammar.importAddress r.unread) := by
  refine Reads.peek ?_
  cases hu : r.unread with
  | nil => exact reads_unexpected_of hu _
  | cons t rest =>
    obtain ⟨l, loc⟩ := t
    cases l with
    | url address => exact .bump hu fun r₁ _ hu₁ => .pure _ hu₁
    | string address => exact .bump hu fun r₁ _ hu₁ => .pure _ hu₁
    | function name =>
      rw [Grammar.importAddress]
      dsimp only [List.head?_cons]
      split
      · refine .bump hu fun r₁ _ hu₁ => .skipTrivia fun r₂ _ hu₂ => ?_
        rw [← hu₁, ← hu₂]
        refine .bind (reads_string _ r₂) fun address r₃ _ _ => .skipTrivia fun r₄ _ hu₄ => ?_
        dsimp only
        rw [← hu₄]
        exact .bind_rest (reads_expect _ r₄) fun r₅ _ _ => .pure _ rfl
      · exact reads_unexpected_of hu _
    | _ => exact reads_unexpected_of hu _

theorem reads_importMedia (r : Reader) : Reads importMedia r (Grammar.importMedia r.unread) := by
  refine Reads.peek ?_
  have hlist := reads_mediaList r
  cases hu : r.unread with
  | nil => exact .pure _ hu
  | cons t rest =>
    rw [hu] at hlist
    obtain ⟨l, loc⟩ := t
    cases l with
    | ident name => exact hlist
    | _ => exact .pure _ hu

theorem reads_pageName (r : Reader) : Reads pageName r (.ok (Grammar.pageName r.unread)) := by
  refine Reads.peek ?_
  cases hu : r.unread with
  | nil => exact .pure _ hu
  | cons t rest =>
    obtain ⟨l, loc⟩ := t
    cases l with
    | ident name => exact .bump hu fun r₁ _ hu₁ => .pure _ hu₁
    | _ => exact .pure _ hu

theorem reads_pagePseudo (r : Reader) : Reads pagePseudo r (Grammar.pagePseudo r.unread) := by
  cases hu : r.unread with
  | nil => exact .nextIs (b := false) (by rw [hu]; rfl) (.pure _ hu)
  | cons t rest =>
    obtain ⟨l, loc⟩ := t
    cases l with
    | mark m =>
      cases m with
      | colon =>
        refine .nextIs (b := true) (by rw [hu]; rfl) ?_
        refine .bump hu fun r₁ _ hu₁ => ?_
        rw [Grammar.pagePseudo, ← hu₁]
        exact .bind (reads_ident _ r₁) fun name r₂ _ _ => .pure _ rfl
      | _ => exact .nextIs (b := false) (by rw [hu]; rfl) (.pure _ hu)
    | _ => exact .nextIs (b := false) (by rw [hu]; rfl) (.pure _ hu)

theorem reads_charsetName {ts : List Token} (hu : r.unread = Grammar.skipTrivia ts) :
    Reads charsetName r (Grammar.charset ts) := by
  rw [Grammar.charset, ← hu]
  refine .bind (reads_string _ r) fun name r₁ _ _ => .skipTrivia fun r₂ _ hu₂ => ?_
  dsimp only
  rw [← hu₂]
  exact .bind_rest (reads_expect _ r₂) fun r₃ _ _ => .pure _ rfl

theorem reads_importHead {ts : List Token} (hu : r.unread = Grammar.skipTrivia ts) :
    Reads importHead r (Grammar.importSheet ts) := by
  rw [Grammar.importSheet, ← hu]
  refine .bind (reads_importAddress r) fun address r₁ _ _ => .skipTrivia fun r₂ _ hu₂ => ?_
  dsimp only
  rw [← hu₂]
  refine .bind (reads_importMedia r₂) fun names r₃ _ _ => ?_
  cases hu : r₃.unread with
  | nil => exact .nextIs (b := false) (by rw [hu]; rfl) (.pure _ hu)
  | cons t rest =>
    refine .nextIs (b := true) (by rw [hu]; rfl) ?_
    dsimp only
    rw [← hu]
    exact .bind_rest (reads_expect _ r₃) fun r₄ _ _ => .pure _ rfl

theorem reads_mediaHead (r : Reader) : Reads mediaHead r (Grammar.mediaNames r.unread) := by
  refine .bind (reads_mediaList r) fun names r₁ _ _ => ?_
  exact .bind_rest (reads_expect _ r₁) fun r₂ _ _ => .pure _ rfl

theorem reads_pageHead (r : Reader) : Reads pageHead r (Grammar.pageHead r.unread) := by
  unfold Grammar.pageHead
  have hname := reads_pageName r
  generalize Grammar.pageName r.unread = x at hname ⊢
  obtain ⟨name, ts⟩ := x
  refine hname.step fun r₁ _ hu₁ => ?_
  subst hu₁
  exact .bind (reads_pagePseudo r₁) fun pseudo r₂ _ _ => .skipTrivia fun r₃ _ hu₃ => .pure _ hu₃

theorem reads_headOf {α : Type} {keyword : String} {head : Production α}
    {g : Except Failure (α × List Token)} (hk : Grammar.keyword? r.unread = some keyword)
    (hlower : keyword.toLower = keyword)
    (hhead : ∀ r', Moved r r' → r'.unread = Grammar.skipTrivia r.unread.tail → Reads head r' g) :
    Reads (headOf keyword head) r g := by
  have htake : Reads (atKeyword keyword) r (.ok ((), r.unread.tail)) := by
    refine Reads.peek ?_
    cases hu : r.unread with
    | nil =>
      rw [hu] at hk
      cases hk
    | cons t rest =>
      rw [hu] at hk
      obtain ⟨l, loc⟩ := t
      cases l with
      | atKeyword name =>
        have hname : sameName name keyword = true := by
          rw [sameName, hlower]
          exact beq_iff_eq.2 (Option.some.inj hk)
        dsimp only [List.head?_cons]
        rw [if_pos hname]
        exact .bump hu fun r₁ _ hu₁ => .pure _ hu₁
      | _ => cases hk
  refine htake.step fun r₁ hm₁ hu₁ => .skipTrivia fun r₂ hm₂ hu₂ => ?_
  rw [hu₁] at hu₂
  exact hhead r₂ (hm₁.trans hm₂) hu₂

/-! ### Kinds of statements -/

/-- The trace of a statement with the head `g` and the body `f`. -/
def statementTrace {α : Type} (kind : StatementKind) (g : Except Failure (α × List Token))
    (f : α → List Token → Trace Unit) : Trace Unit :=
  match g with
  | .error e => { result := .error e, activity := some (.reading kind) }
  | .ok (h, rest) =>
    match (f h rest).result with
    | .error e =>
      { f h rest with
        result := .error e
        activity := (f h rest).activity.or (some (.reading kind)) }
    | .ok x => { f h rest with result := .ok x, activity := some (.completed kind) }

/-- **A statement is read** where its head and its body are. -/
theorem does_statementOf {α : Type} {kind : StatementKind} {head : Production α}
    {body : α → Production Unit} {g : Except Failure (α × List Token)}
    {f : α → List Token → Trace Unit}
    (hhead : ∀ r', r'.nesting = r.nesting → r'.unread = r.unread → Reads head r' g)
    (hbody : ∀ h r', r'.nesting = r.nesting → Does (body h) r' (f h r'.unread)) :
    Does (statementOf kind head body) r (statementTrace kind g f) := by
  have hrest (r' : Reader) (hn : r'.nesting = r.nesting) (hu : r'.unread = r.unread) :
      Does (do let h ← head; body h; become (.completed kind)) r'
        (({ result := g } : Trace α).bind fun h rest => (f h rest).bind fun _ rest =>
          { result := .ok ((), rest), activity := some (.completed kind) }) :=
    (hhead r' hn hu).does.bind fun h r₁ hn₁ _ _ =>
      (hbody h r₁ (hn₁.trans hn)).bind fun _ r₂ _ _ _ => does_become (.completed kind) r₂
  refine Does.congr ((does_become (.reading kind) r).seq rfl fun r₁ hn₁ _ hu₁ =>
    hrest r₁ hn₁ hu₁) ?_
  cases g with
  | error e => rfl
  | ok x =>
    obtain ⟨h, rest⟩ := x
    rw [Trace.bind_ok rfl, Trace.after_result, statementTrace]
    dsimp only
    cases hf : (f h rest).result with
    | error e =>
      rw [Trace.bind_error hf]
      simp [Trace.after]
    | ok y =>
      rw [Trace.bind_ok hf]
      simp [Trace.after]

/-! ### One kind each -/

theorem does_charset (hk : Grammar.keyword? r.unread = some "charset") :
    Does charset r (Grammar.tryCharset r.unread.tail).trace := by
  refine Does.congr (does_statementOf (g := Grammar.charset r.unread.tail)
    (f := fun name rest => { result := .ok ((), rest), events := [.charset name] })
    (fun r' _ hu => reads_headOf (hu ▸ hk) (by decide +kernel) fun r'' _ hu' =>
      reads_charsetName (hu ▸ hu')) fun name r' _ => does_emit _ r') ?_
  rw [Grammar.tryCharset]
  cases Grammar.charset r.unread.tail <;> rfl

theorem does_importSheet (hk : Grammar.keyword? r.unread = some "import") :
    Does importSheet r (Grammar.tryImport r.unread.tail).trace := by
  refine Does.congr (does_statementOf (g := Grammar.importSheet r.unread.tail)
    (f := fun h rest => { result := .ok ((), rest), events := [.importSheet h.2 h.1] })
    (fun r' _ hu => reads_headOf (hu ▸ hk) (by decide +kernel) fun r'' _ hu' =>
      reads_importHead (hu ▸ hu')) fun h r' _ => does_emit _ r') ?_
  rw [Grammar.tryImport]
  cases Grammar.importSheet r.unread.tail <;> rfl

theorem does_ruleset (r : Reader) :
    Does ruleset r (Grammar.tryRuleset r.nesting r.unread).trace := by
  refine Does.congr (does_statementOf (g := Grammar.selector r.unread)
    (f := fun s rest => blockTrace (.startSelector s) .endSelector r.nesting rest)
    (fun r' _ hu => hu ▸ reads_selector r') fun s r' hn => hn ▸ does_block _ _ r') ?_
  rw [Grammar.tryRuleset, Grammar.ruleset]
  cases Grammar.selector r.unread with
  | error e => rfl
  | ok x =>
    obtain ⟨s, rest⟩ := x
    dsimp only [bind, Except.bind, statementTrace, blockTrace]
    cases Grammar.block r.nesting rest <;> rfl

theorem does_page (hk : Grammar.keyword? r.unread = some "page") :
    Does page r (Grammar.tryPage r.nesting r.unread.tail).trace := by
  refine Does.congr (does_statementOf (g := Grammar.pageHead (Grammar.skipTrivia r.unread.tail))
    (f := fun h rest => blockTrace (.startPage h.1 h.2) .endPage r.nesting rest)
    (fun r' _ hu => reads_headOf (hu ▸ hk) (by decide +kernel) fun r'' _ hu' =>
      hu ▸ hu' ▸ reads_pageHead r'') fun h r' hn => hn ▸ does_block _ _ r') ?_
  rw [Grammar.tryPage, Grammar.page, Grammar.pageHead]
  dsimp only [bind, Except.bind]
  cases Grammar.pagePseudo (Grammar.pageName (Grammar.skipTrivia r.unread.tail)).2 with
  | error e => rfl
  | ok x =>
    obtain ⟨pseudo, rest⟩ := x
    dsimp only [statementTrace, blockTrace]
    cases Grammar.block r.nesting (Grammar.skipTrivia rest) <;> rfl

theorem does_fontFace (hk : Grammar.keyword? r.unread = some "font-face") :
    Does fontFace r (Grammar.tryFontFace r.nesting r.unread.tail).trace := by
  refine Does.congr (does_statementOf (g := .ok ((), Grammar.skipTrivia r.unread.tail))
    (f := fun _ rest => blockTrace .startFontFace .endFontFace r.nesting rest)
    (fun r' _ hu => reads_headOf (hu ▸ hk) (by decide +kernel) fun r'' _ hu' =>
      .pure _ (hu ▸ hu')) fun _ r' hn => hn ▸ does_block _ _ r') ?_
  rw [Grammar.tryFontFace]
  dsimp only [statementTrace, blockTrace]
  cases Grammar.block r.nesting (Grammar.skipTrivia r.unread.tail) <;> rfl

/-! ### Media -/

/-- The trace of the inside of `@media`. -/
def mediaTrace (b : Grammar.MediaBody) : Trace Unit :=
  { result := b.result.map fun rest => ((), rest)
    events := b.rules.flatMap Ruleset.events ++ match b.result with
      | .ok _ => [.endMedia]
      | .error _ => []
    skipped := b.skipped
    activity := b.activity }

theorem does_mediaBody (r : Reader) :
    Does mediaBody r (mediaTrace (Grammar.mediaBody r.nesting r.unread)) := by
  induction hn : r.unread.length using Nat.strongRecOn generalizing r with
  | ind n ih =>
    subst hn
    rw [mediaBody.eq_1, Grammar.mediaBody_eq]
    refine .skipTrivia fun r₁ hn₁ hs₁ hu₁ => .peek ?_
    have hle := Grammar.skipTrivia_le r.unread
    rw [← hu₁] at hle
    rw [← hu₁, ← hn₁]
    have hend {ts : List Token} (r' : Reader) (hu : r'.unread = ts) :
        Does (emit .endMedia) r' { result := .ok ((), ts), events := [.endMedia] } :=
      hu ▸ does_emit .endMedia r'
    cases hu : r₁.unread with
    | nil => exact hend r₁ hu
    | cons t rest =>
      have hmore {us : List Token} (hus : us.length < (t :: rest).length) (r' : Reader)
          (hn : r'.nesting = r₁.nesting) (hu' : r'.unread = us) :
          Does mediaBody r' (mediaTrace (Grammar.mediaBody r₁.nesting us)) := by
        subst hu'
        rw [← hn]
        rw [hu] at hle
        exact ih _ (Nat.lt_of_lt_of_le hus hle) r' rfl
      dsimp only [List.head?_cons]
      split
      · exact .bump hu fun r₂ _ _ hu₂ => hend r₂ hu₂
      · have hread := (does_ruleset r₁).tried
        rw [hu, Grammar.tryRuleset] at hread
        split
        · next b hb =>
          rw [hb] at hread
          refine Does.congr (hread.seq rfl fun r₂ hn₂ _ hu₂ =>
            hmore (Grammar.ruleset_lt hb) r₂ hn₂ hu₂) ?_
          simp [Trace.after, Trace.tried, Attempt.trace, Grammar.succeeded, mediaTrace,
            Statement.events, Except.map]
        · next e he =>
          rw [he] at hread
          -- the attempt has gone back, so what is skipped begins where the ruleset does
          have hskip (r₂ : Reader) (hn₂ : r₂.nesting = r₁.nesting) (hu₂ : r₂.unread = t :: rest) :
              Passes coreStatement r₂ (Grammar.skipStatement r₁.nesting (t :: rest)) :=
            hn₂ ▸ hu₂ ▸ passes_coreStatement r₂
          split
          · next e' he' =>
            rw [he'] at hskip
            refine Does.congr (hread.seq rfl fun r₂ hn₂ _ hu₂ =>
              (hskip r₂ hn₂ hu₂).does.fail rfl) ?_
            simp [Trace.after, Trace.tried, Attempt.trace, Grammar.failed, mediaTrace, Except.map]
          · next after hafter =>
            rw [hafter] at hskip
            refine Does.congr (hread.seq rfl fun r₂ hn₂ _ hu₂ =>
              .step (hskip r₂ hn₂ hu₂) fun r₃ hn₃ _ hu₃ =>
                hmore (Grammar.skipStatement_lt hafter) r₃ (hn₃.trans hn₂) hu₃) ?_
            simp [Trace.after, Trace.tried, Attempt.trace, Grammar.failed, mediaTrace, Except.map]

/-- The trace of the block of `@media`, behind its brace. -/
def mediaBlockTrace (n : Nesting) (names : List String) (ts : List Token) : Trace Unit :=
  match n.enter ts with
  | .error e => { result := .error e }
  | .ok deeper => (mediaTrace (Grammar.mediaBody deeper ts)).after
      { result := .ok ((), ts), events := [.startMedia names] }

theorem does_mediaBlock (names : List String) (r : Reader) :
    Does (nested do emit (.startMedia names); mediaBody) r
      (mediaBlockTrace r.nesting names r.unread) :=
  Does.nested (x := fun deeper => (mediaTrace (Grammar.mediaBody deeper r.unread)).after
      { result := .ok ((), r.unread), events := [.startMedia names] })
    ((does_emit _ r.deeper).seq rfl fun r' hn _ hu => hn ▸ hu ▸ does_mediaBody r')

theorem does_media (hk : Grammar.keyword? r.unread = some "media") :
    Does media r (Grammar.tryMedia r.nesting r.unread.tail).trace := by
  refine Does.congr (does_statementOf
    (g := Grammar.mediaNames (Grammar.skipTrivia r.unread.tail)) (f := mediaBlockTrace r.nesting)
    (fun r' _ hu => reads_headOf (hu ▸ hk) (by decide +kernel) fun r'' _ hu' =>
      hu ▸ hu' ▸ reads_mediaHead r'') fun names r' hn => hn ▸ does_mediaBlock names r') ?_
  rw [Grammar.tryMedia, Grammar.mediaHead, Grammar.mediaNames]
  dsimp only [bind, Except.bind]
  cases Grammar.mediaList (Grammar.skipTrivia r.unread.tail) with
  | error e => rfl
  | ok x =>
    obtain ⟨names, ts⟩ := x
    dsimp only
    cases Grammar.expect .openBrace ts with
    | error e => rfl
    | ok us =>
      dsimp only [statementTrace, mediaBlockTrace]
      cases r.nesting.enter us with
      | error e => rfl
      | ok deeper =>
        dsimp only [Trace.after, mediaTrace]
        cases (Grammar.mediaBody deeper us).result with
        | error e => simp [Attempt.trace, Except.map]
        | ok rest => simp [Attempt.trace, Except.map, Grammar.succeeded, Statement.events]

/-! ### Any statement -/

theorem keyword?_head (ts : List Token) :
    Grammar.keyword? ts.head?.toList = Grammar.keyword? ts := by
  cases ts with
  | nil => rfl
  | cons t rest =>
    obtain ⟨l, loc⟩ := t
    cases l <;> rfl

/-- **A reader that tries to read a statement leaves behind what the grammar says of the
attempt.** -/
theorem does_cssStatement (phase : Phase) (r : Reader) :
    Does (cssStatement phase) r (Grammar.tryStatement r.nesting phase r.unread).trace := by
  refine .peek ?_
  rw [keyword?_head, Grammar.tryStatement]
  have hfail (cause : Cause) : Does (failHere cause) r
      ({ result := .error (Grammar.failHere cause r.unread) } : Attempt).trace :=
    (reads_failHere cause).does
  generalize hk : Grammar.keyword? r.unread = k
  split
  · exact does_ruleset r
  · split
    · exact does_charset hk
    · exact hfail _
  · split
    · exact hfail _
    · exact does_importSheet hk
  · exact does_media hk
  · exact does_page hk
  · exact does_fontFace hk
  · simpa only using hfail _

end Reader

end Css2
