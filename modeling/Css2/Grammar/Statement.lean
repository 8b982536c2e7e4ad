import Css2.Grammar.Declaration
import Css2.Grammar.Selector
import Css2.Sheet.Event

/-! # The grammar of statements

    statement : ruleset | '@charset' charset | '@import' sheet | '@media' media
              | '@page' page | '@font-face' block
    charset   : S* STRING S* ';'
    sheet     : S* [ STRING | URI ] S* media-list? ';'
    media     : S* media-list '{' S* ruleset* '}'
    page      : S* IDENT? [ ':' IDENT ]? S* block
    ruleset   : selector block
    block     : '{' declarations '}'

A statement reports its events as it is read.  Only `@media` can fail once it has reported some: a
malformed statement inside it is skipped with the core grammar, which may fail too.
-/

namespace Css2

inductive StatementKind where
  | charset
  | importSheet
  | ruleset
  | media
  | page
  | fontFace
  deriving DecidableEq, Repr

inductive Activity where
  /-- Nothing has been read yet. -/
  | ready
  /-- It is between two statements. -/
  | running
  /-- It is inside a statement. -/
  | reading (kind : StatementKind)
  /-- The last thing it read was a statement. -/
  | completed (kind : StatementKind)
  | finished
  deriving DecidableEq, Repr

inductive Phase where
  /-- Nothing was read, so that `@charset` and `@import` may come. -/
  | start
  /-- Only `@charset` and `@import` were read, so that `@import` may come. -/
  | imports
  /-- Something else was read. -/
  | body
  deriving DecidableEq, Repr

/-- What the reading of a statement leaves behind, whether it succeeds or not. -/
structure Attempt where
  /-- The rest behind the statement. -/
  result : Except Failure (List Token)
  /-- What was reported. -/
  events : List Event := []
  /-- The failures of the parts that were skipped. -/
  skipped : List Failure := []
  /-- What the parser was doing last, if that changed. -/
  activity : Option Activity := none

namespace Grammar

/-! ### The heads of at-rules -/

/-- Reads the rest of `@charset`. -/
def charset (ts : List Token) : Except Failure (String × List Token) := do
  let (name, ts) ← string .charsetName (skipTrivia ts)
  let rest ← expect .semicolon (skipTrivia ts)
  .ok (name, rest)

/-- Reads names of media with commas between them, and the trivia behind them. -/
def mediaList (ts : List Token) : Except Failure (List String × List Token) :=
  match _h : ident .medium ts with
  | .error e => .error e
  | .ok (name, rest) =>
    match _hs : skipTrivia rest with
    | ⟨.mark .comma, _⟩ :: more => do
      let (names, final) ← mediaList (skipTrivia more)
      .ok (name :: names, final)
    | after => .ok ([name], after)
termination_by ts.length
decreasing_by
  have h1 := ident_lt _h
  have h2 := skipTrivia_le rest
  have h3 := skipTrivia_le more
  rw [_hs, List.length_cons] at h2
  omega

/-- Names of media, as an equation. -/
theorem mediaList_eq (ts : List Token) :
    mediaList ts = (do
      let (name, rest) ← ident .medium ts
      match skipTrivia rest with
      | ⟨.mark .comma, _⟩ :: more => do
        let (names, final) ← mediaList (skipTrivia more)
        .ok (name :: names, final)
      | after => .ok ([name], after)) := by
  rw [mediaList]
  split
  · next h => rw [h]; rfl
  · next name rest h =>
    rw [h]
    dsimp only [bind, Except.bind]
    split
    · next h' => rw [h']
    · next hcomma =>
      split
      · next h' => exact absurd h' (hcomma _ _)
      · rfl

def importAddress (ts : List Token) : Except Failure (String × List Token) :=
  match ts with
  | ⟨.url address, _⟩ :: rest => .ok (address, rest)
  | ⟨.string address, _⟩ :: rest => .ok (address, rest)
  | ⟨.function name, _⟩ :: rest =>
    if sameName name "url" then do
      let (address, ts) ← string .url (skipTrivia rest)
      let rest ← expect .closeParen (skipTrivia ts)
      .ok (address, rest)
    else .error (missing .urlOrString ts)
  | _ => .error (missing .urlOrString ts)

/-- Reads the media of an imported sheet, which may be missing. -/
def importMedia (ts : List Token) : Except Failure (List String × List Token) :=
  match ts with
  | ⟨.ident _, _⟩ :: _ => mediaList ts
  | _ => .ok ([], ts)

/-- Reads the rest of `@import`.  At the end of the text its semicolon may be missing. -/
def importSheet (ts : List Token) : Except Failure ((String × List String) × List Token) := do
  let (address, ts) ← importAddress (skipTrivia ts)
  let (names, ts) ← importMedia (skipTrivia ts)
  match ts with
  | [] => .ok ((address, names), [])
  | _ => do
    let rest ← expect .semicolon ts
    .ok ((address, names), rest)

/-- Reads the name of a page, which may be missing. -/
def pageName (ts : List Token) : Option String × List Token :=
  match ts with
  | ⟨.ident name, _⟩ :: rest => (some name, rest)
  | _ => (none, ts)

/-- Reads the name behind a colon that says which pages are meant, if there is a colon. -/
def pagePseudo (ts : List Token) : Except Failure (Option String × List Token) :=
  match ts with
  | ⟨.mark .colon, _⟩ :: rest => do
    let (name, rest) ← ident .pageSelector rest
    .ok (some name, rest)
  | _ => .ok (none, ts)

/-! ### Statements with blocks -/

def ruleset (n : Nesting) (ts : List Token) : Except Failure (Lenient Ruleset) := do
  let (s, ts) ← selector ts
  let b ← block n ts
  .ok ⟨⟨s, b.value⟩, b.skipped, b.rest⟩

/-- Reads the rest of `@page`. -/
def page (n : Nesting) (ts : List Token) :
    Except Failure (Option String × Option String × Lenient (List Declaration)) := do
  let (name, ts) := pageName (skipTrivia ts)
  let (pseudo, ts) ← pagePseudo ts
  let b ← block n (skipTrivia ts)
  .ok (name, pseudo, b)

theorem ruleset_lt {n : Nesting} {ts : List Token} {r : Lenient Ruleset}
    (h : ruleset n ts = .ok r) : r.rest.length < ts.length := by
  unfold ruleset at h
  obtain ⟨⟨s, us⟩, hs, h⟩ := bind_eq_ok h
  obtain ⟨b, hb, h⟩ := bind_eq_ok h
  cases h
  exact Nat.lt_trans (block_lt hb) (selector_lt hs)

/-- What the inside of `@media` leaves behind, whether it can be read to its end or not. -/
structure MediaBody where
  rules : List Ruleset
  /-- The failures of the statements and declarations that were skipped. -/
  skipped : List Failure
  /-- How the last attempt at a ruleset went. -/
  activity : Option Activity
  /-- The rest behind the closing brace. -/
  result : Except Failure (List Token)

/-- Reads rulesets up to a closing brace or the end of the text, skipping statements that are
malformed. -/
def mediaBody (n : Nesting) (ts : List Token) : MediaBody :=
  match _hs : skipTrivia ts with
  | [] => ⟨[], [], none, .ok []⟩
  | t :: rest =>
    if t.lexeme.isMark .closeBrace then ⟨[], [], none, .ok rest⟩
    else match _hr : ruleset n (t :: rest) with
      | .ok r =>
        let more := mediaBody n r.rest
        ⟨r.value :: more.rules, r.skipped ++ more.skipped,
          more.activity.or (some (.completed .ruleset)), more.result⟩
      | .error e =>
        match _hk : skipStatement n (t :: rest) with
        | .error e' => ⟨[], [e], some (.reading .ruleset), .error e'⟩
        | .ok after =>
          let more := mediaBody n after
          ⟨more.rules, e :: more.skipped, more.activity.or (some (.reading .ruleset)),
            more.result⟩
termination_by ts.length
decreasing_by
  all_goals
    have hle := skipTrivia_le ts
    rw [_hs] at hle
  · exact Nat.lt_of_lt_of_le (ruleset_lt _hr) hle
  · exact Nat.lt_of_lt_of_le (skipStatement_lt _hk) hle

/-- The inside of `@media`, as an equation. -/
theorem mediaBody_eq (n : Nesting) (ts : List Token) :
    mediaBody n ts = (match skipTrivia ts with
      | [] => ⟨[], [], none, .ok []⟩
      | t :: rest =>
        if t.lexeme.isMark .closeBrace then ⟨[], [], none, .ok rest⟩
        else match ruleset n (t :: rest) with
          | .ok r =>
            let more := mediaBody n r.rest
            ⟨r.value :: more.rules, r.skipped ++ more.skipped,
              more.activity.or (some (.completed .ruleset)), more.result⟩
          | .error e =>
            match skipStatement n (t :: rest) with
            | .error e' => ⟨[], [e], some (.reading .ruleset), .error e'⟩
            | .ok after =>
              let more := mediaBody n after
              ⟨more.rules, e :: more.skipped, more.activity.or (some (.reading .ruleset)),
                more.result⟩) := by
  rw [mediaBody]
  split
  · next h => rw [h]
  · next t rest h =>
    rw [h]
    dsimp only
    split
    · rfl
    · split
      · next h' => rw [h']
      · next e h' =>
        rw [h']
        dsimp only
        split <;> (next h'' => rw [h''])

/-- Reads the rest of `@media` up to its block. -/
def mediaHead (n : Nesting) (ts : List Token) :
    Except Failure (List String × Nesting × List Token) := do
  let (names, ts) ← mediaList (skipTrivia ts)
  let ts ← expect .openBrace ts
  let deeper ← n.enter ts
  .ok (names, deeper, ts)

/-! ### Attempts -/

/-- An attempt that fails before anything is reported. -/
def failed (kind : StatementKind) (e : Failure) : Attempt :=
  { result := .error e, activity := some (.reading kind) }

def succeeded (kind : StatementKind) (s : Statement) (skipped : List Failure)
    (rest : List Token) : Attempt :=
  { result := .ok rest, events := s.events, skipped, activity := some (.completed kind) }

def tryRuleset (n : Nesting) (ts : List Token) : Attempt :=
  match ruleset n ts with
  | .error e => failed .ruleset e
  | .ok r => succeeded .ruleset (.ruleset r.value) r.skipped r.rest

/-- Tries to read `@charset`, its keyword being read already. -/
def tryCharset (ts : List Token) : Attempt :=
  match charset ts with
  | .error e => failed .charset e
  | .ok (name, rest) => succeeded .charset (.charset name) [] rest

/-- Tries to read `@import`, its keyword being read already. -/
def tryImport (ts : List Token) : Attempt :=
  match importSheet ts with
  | .error e => failed .importSheet e
  | .ok ((url, names), rest) => succeeded .importSheet (.importSheet url names) [] rest

/-- Tries to read `@page`, its keyword being read already. -/
def tryPage (n : Nesting) (ts : List Token) : Attempt :=
  match page n ts with
  | .error e => failed .page e
  | .ok (name, pseudo, b) => succeeded .page (.page name pseudo b.value) b.skipped b.rest

/-- Tries to read `@font-face`, its keyword being read already. -/
def tryFontFace (n : Nesting) (ts : List Token) : Attempt :=
  match block n (skipTrivia ts) with
  | .error e => failed .fontFace e
  | .ok b => succeeded .fontFace (.fontFace b.value) b.skipped b.rest

/-- Tries to read `@media`, its keyword being read already. -/
def tryMedia (n : Nesting) (ts : List Token) : Attempt :=
  match mediaHead n ts with
  | .error e => failed .media e
  | .ok (names, deeper, ts) =>
    let body := mediaBody deeper ts
    match body.result with
    | .ok rest => succeeded .media (.media names body.rules) body.skipped rest
    | .error e =>
      { result := .error e
        events := .startMedia names :: body.rules.flatMap Ruleset.events
        skipped := body.skipped
        activity := body.activity.or (some (.reading .media)) }

/-- The keyword of the at-rule that comes next, in lower case. -/
def keyword? : List Token → Option String
  | ⟨.atKeyword name, _⟩ :: _ => some name.toLower
  | _ => none

def tryStatement (n : Nesting) (phase : Phase) (ts : List Token) : Attempt :=
  match keyword? ts with
  | none => tryRuleset n ts
  | some "charset" =>
    if phase = .start then tryCharset ts.tail
    else { result := .error (failHere .charsetNotFirst ts) }
  | some "import" =>
    if phase = .body then { result := .error (failHere .importTooLate ts) }
    else tryImport ts.tail
  | some "media" => tryMedia n ts.tail
  | some "page" => tryPage n ts.tail
  | some "font-face" => tryFontFace n ts.tail
  | some name => { result := .error (failHere (.unknownAtRule name) ts) }

/-! ### Every statement takes a token -/

theorem charset_lt {ts rest : List Token} {name : String}
    (h : charset ts = .ok (name, rest)) : rest.length < ts.length := by
  unfold charset at h
  obtain ⟨⟨value, us⟩, hs, h⟩ := bind_eq_ok h
  obtain ⟨vs, he, h⟩ := bind_eq_ok h
  cases h
  have h1 := skipTrivia_le ts
  have h2 := string_lt hs
  have h3 := skipTrivia_le us
  have h4 := expect_lt he
  omega

theorem mediaList_le {ts rest : List Token} {names : List String}
    (h : mediaList ts = .ok (names, rest)) : rest.length ≤ ts.length := by
  fun_induction mediaList ts generalizing names rest with
  | case1 => cases h
  | case2 ts name us hi loc more hs ih =>
    obtain ⟨⟨names', final⟩, hr, h⟩ := bind_eq_ok h
    cases h
    have h1 := ident_lt hi
    have h2 := skipTrivia_le us
    have h3 := skipTrivia_le more
    have h4 := ih hr
    rw [hs, List.length_cons] at h2
    omega
  | case3 ts name us hi after =>
    cases h
    have h1 := ident_lt hi
    have h2 := skipTrivia_le us
    omega

theorem importAddress_lt {ts rest : List Token} {address : String}
    (h : importAddress ts = .ok (address, rest)) : rest.length < ts.length := by
  unfold importAddress at h
  split at h
  · cases h
    exact Nat.lt_succ_self _
  · cases h
    exact Nat.lt_succ_self _
  · next name loc tail =>
    split at h
    · obtain ⟨⟨value, us⟩, hs, h⟩ := bind_eq_ok h
      obtain ⟨vs, he, h⟩ := bind_eq_ok h
      cases h
      have h1 := skipTrivia_le tail
      have h2 := string_lt hs
      have h3 := skipTrivia_le us
      have h4 := expect_lt he
      simp only [List.length_cons]
      omega
    · cases h
  · cases h

theorem importMedia_le {ts rest : List Token} {names : List String}
    (h : importMedia ts = .ok (names, rest)) : rest.length ≤ ts.length := by
  unfold importMedia at h
  split at h
  · exact mediaList_le h
  · cases h; exact Nat.le_refl _

theorem importSheet_lt {ts rest : List Token} {r : String × List String}
    (h : importSheet ts = .ok (r, rest)) : rest.length < ts.length := by
  unfold importSheet at h
  obtain ⟨⟨address, us⟩, ha, h⟩ := bind_eq_ok h
  obtain ⟨⟨names, vs⟩, hm, h⟩ := bind_eq_ok h
  have h1 := skipTrivia_le ts
  have h2 := importAddress_lt ha
  have h3 := skipTrivia_le us
  have h4 := importMedia_le hm
  dsimp only at h
  split at h
  · cases h
    simp only [List.length_nil]
    omega
  · obtain ⟨ws, he, h⟩ := bind_eq_ok h
    cases h
    have h5 := expect_lt he
    omega

theorem pageName_le (ts : List Token) : (pageName ts).2.length ≤ ts.length := by
  unfold pageName
  split
  · exact Nat.le_succ _
  · exact Nat.le_refl _

theorem pagePseudo_le {ts rest : List Token} {pseudo : Option String}
    (h : pagePseudo ts = .ok (pseudo, rest)) : rest.length ≤ ts.length := by
  unfold pagePseudo at h
  split at h
  · obtain ⟨⟨name, us⟩, hi, h⟩ := bind_eq_ok h
    cases h
    exact Nat.le_succ_of_le (Nat.le_of_lt (ident_lt hi))
  · cases h
    exact Nat.le_refl _

theorem page_lt {n : Nesting} {ts : List Token} {name pseudo : Option String}
    {b : Lenient (List Declaration)} (h : page n ts = .ok (name, pseudo, b)) :
    b.rest.length < ts.length := by
  unfold page at h
  dsimp only at h
  obtain ⟨⟨pseudo', us⟩, hp, h⟩ := bind_eq_ok h
  obtain ⟨b', hb, h⟩ := bind_eq_ok h
  dsimp only at hb
  cases h
  have h1 := skipTrivia_le ts
  have h2 := pageName_le (skipTrivia ts)
  have h3 := pagePseudo_le hp
  have h4 := skipTrivia_le us
  have h5 := block_lt hb
  omega

theorem mediaBody_le {n : Nesting} {ts rest : List Token}
    (h : (mediaBody n ts).result = .ok rest) : rest.length ≤ ts.length := by
  fun_induction mediaBody n ts with
  | case1 => cases h; exact Nat.zero_le _
  | case2 ts t tail hs =>
    have hle := skipTrivia_le ts
    rw [hs, List.length_cons] at hle
    cases h
    omega
  | case3 ts t tail hs _ r hr more ih =>
    have hle := skipTrivia_le ts
    rw [hs] at hle
    exact Nat.le_trans (ih h) (Nat.le_trans (Nat.le_of_lt (ruleset_lt hr)) hle)
  | case4 => cases h
  | case5 ts t tail hs _ e _ after hk more ih =>
    have hle := skipTrivia_le ts
    rw [hs] at hle
    exact Nat.le_trans (ih h) (Nat.le_trans (Nat.le_of_lt (skipStatement_lt hk)) hle)

theorem mediaHead_le {n deeper : Nesting} {ts rest : List Token} {names : List String}
    (h : mediaHead n ts = .ok (names, deeper, rest)) : rest.length ≤ ts.length := by
  unfold mediaHead at h
  obtain ⟨⟨names', us⟩, hm, h⟩ := bind_eq_ok h
  obtain ⟨vs, he, h⟩ := bind_eq_ok h
  obtain ⟨d, hn, h⟩ := bind_eq_ok h
  cases h
  have h1 := skipTrivia_le ts
  have h2 := mediaList_le hm
  have h3 := expect_lt he
  omega

theorem tryRuleset_lt {n : Nesting} {ts rest : List Token}
    (h : (tryRuleset n ts).result = .ok rest) : rest.length < ts.length := by
  unfold tryRuleset at h
  split at h
  · cases h
  · next r hr =>
    cases h
    exact ruleset_lt hr

theorem tryCharset_le {ts rest : List Token}
    (h : (tryCharset ts).result = .ok rest) : rest.length ≤ ts.length := by
  unfold tryCharset at h
  split at h
  · cases h
  · next hr =>
    cases h
    exact Nat.le_of_lt (charset_lt hr)

theorem tryImport_le {ts rest : List Token}
    (h : (tryImport ts).result = .ok rest) : rest.length ≤ ts.length := by
  unfold tryImport at h
  split at h
  · cases h
  · next hr =>
    cases h
    exact Nat.le_of_lt (importSheet_lt hr)

theorem tryPage_le {n : Nesting} {ts rest : List Token}
    (h : (tryPage n ts).result = .ok rest) : rest.length ≤ ts.length := by
  unfold tryPage at h
  split at h
  · cases h
  · next hr =>
    cases h
    exact Nat.le_of_lt (page_lt hr)

theorem tryFontFace_le {n : Nesting} {ts rest : List Token}
    (h : (tryFontFace n ts).result = .ok rest) : rest.length ≤ ts.length := by
  unfold tryFontFace at h
  split at h
  · cases h
  · next hr =>
    cases h
    exact Nat.le_trans (Nat.le_of_lt (block_lt hr)) (skipTrivia_le ts)

theorem tryMedia_le {n : Nesting} {ts rest : List Token}
    (h : (tryMedia n ts).result = .ok rest) : rest.length ≤ ts.length := by
  unfold tryMedia at h
  split at h
  · cases h
  · next hm =>
    dsimp only at h
    split at h
    · next hb =>
      cases h
      exact Nat.le_trans (mediaBody_le hb) (mediaHead_le hm)
    · cases h

/-- A statement that is read takes at least one token. -/
theorem tryStatement_lt {n : Nesting} {phase : Phase} {ts rest : List Token}
    (h : (tryStatement n phase ts).result = .ok rest) : rest.length < ts.length := by
  have key : keyword? ts = none ∨ ts.tail.length < ts.length := by
    unfold keyword?
    split
    · exact .inr (Nat.lt_succ_self _)
    · exact .inl rfl
  unfold tryStatement at h
  split at h
  · exact tryRuleset_lt h
  · next hk =>
    rw [hk] at key
    have htail := key.resolve_left (by simp)
    split at h
    · exact Nat.lt_of_le_of_lt (tryCharset_le h) htail
    · cases h
  · next hk =>
    rw [hk] at key
    have htail := key.resolve_left (by simp)
    split at h
    · cases h
    · exact Nat.lt_of_le_of_lt (tryImport_le h) htail
  · next hk =>
    rw [hk] at key
    exact Nat.lt_of_le_of_lt (tryMedia_le h) (key.resolve_left (by simp))
  · next hk =>
    rw [hk] at key
    exact Nat.lt_of_le_of_lt (tryPage_le h) (key.resolve_left (by simp))
  · next hk =>
    rw [hk] at key
    exact Nat.lt_of_le_of_lt (tryFontFace_le h) (key.resolve_left (by simp))
  · cases h

end Grammar

end Css2
