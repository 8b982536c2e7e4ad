import Css2.Proofs.Grammar.Confinement.Statement
import Css2.Proofs.Selector.Origin
import Css2.Proofs.Sheet.ReadBack
import Css2.Proofs.Term.Origin

/-!
# The sheets that the parser reads

Every statement of a sheet that was read is readable (`Grammar.tryStatement_readable`), as far as
text can say what it says, and stands where it may come (`Parser.statements_readable`).  The
statements that were skipped leave no trace, and with fewer statements before them the others may
come all the more.
-/

namespace Css2

/-! ### What a sheet contains -/

/-- The terms of a declaration, those among the arguments of functions included. -/
def Declaration.terms (d : Declaration) : List Term :=
  Term.nestedAll d.value

def Declaration.names (d : Declaration) : List String :=
  d.property :: d.terms.flatMap (·.value.names)

def Statement.declarations : Statement → List Declaration
  | .ruleset r => r.declarations
  | .media _ rules => rules.flatMap Ruleset.declarations
  | .page _ _ ds => ds
  | .fontFace ds => ds
  | _ => []

/-- How many braces the declarations of a statement are behind. -/
def Statement.depth : Statement → Nat
  | .media _ _ => 2
  | _ => 1

/-- The names in a statement that are in none of its declarations. -/
def Statement.headNames : Statement → List String
  | .ruleset r => r.selector.names
  | .importSheet _ names => names
  | .media names rules => names ++ rules.flatMap (·.selector.names)
  | .page name pseudo _ => name.toList ++ pseudo.toList
  | .charset _ => []
  | .fontFace _ => []

def Statement.names (s : Statement) : List String :=
  s.headNames ++ s.declarations.flatMap Declaration.names

/-- The names in a sheet: what is written without quotes. -/
def Sheet.names (s : Sheet) : List String :=
  s.statements.flatMap Statement.names

/-- The terms of a sheet, those among the arguments of functions included. -/
def Sheet.terms (s : Sheet) : List Term :=
  s.statements.flatMap fun t => t.declarations.flatMap Declaration.terms

/-- What the text of a declaration can say, with `k` more levels of nesting allowed. -/
structure Declaration.Plain (k : Nat) (d : Declaration) : Prop where
  property : '\x00' ∉ d.property.toList
  value : Term.Plain k d.value

/-- The attempt reports the statement as a whole, and the statement is readable as far as its text
can say what it says. -/
def Attempt.From (n : Nesting) (a : Attempt) (s : Statement) : Prop :=
  a.events = s.events ∧ (NullFree s.headNames →
    (∀ d ∈ s.declarations, d.Plain (n.limit - n.depth - s.depth)) →
    s.Readable (n.limit - n.depth))

namespace Grammar

/-! ### Declarations -/

theorem declaration_readable {n : Nesting} {ts rest : List Token} {d : Declaration}
    (h : declaration n ts = .ok (d, rest)) (hts : Scanned ts)
    (hp : d.Plain (n.limit - n.depth)) : d.Readable (n.limit - n.depth) := by
  rw [declaration] at h
  obtain ⟨⟨property, us⟩, hident, h⟩ := bind_eq_ok h
  obtain ⟨vs, hcolon, h⟩ := bind_eq_ok h
  obtain ⟨⟨value, ws⟩, hterms, h⟩ := bind_eq_ok h
  have hus := (hts.suffix (ident_stretch hident).suffix).skipTrivia
  obtain ⟨loc, hloc⟩ := expect_eq_ok hcolon
  rw [hloc] at hus
  have hvs : Scanned (skipTrivia vs) := hus.tail.skipTrivia
  obtain ⟨important, rfl⟩ : ∃ important, d = ⟨property, value, important⟩ := by
    dsimp only at h
    split at h
    · cases h
      exact ⟨_, rfl⟩
    · cases h
      exact ⟨_, rfl⟩
  obtain ⟨hlast, hall⟩ := terms_readable hterms hvs hp.value
  exact ⟨⟨ident_ne_empty hident hts, hp.property⟩, hlast, hall⟩

/-- **The declarations of a block are readable.** -/
theorem declarations_readable {n : Nesting} {inBlock : Bool} {ts : List Token} (hts : Scanned ts)
    (hp : ∀ d ∈ (declarations n inBlock ts).value, d.Plain (n.limit - n.depth)) :
    ∀ d ∈ (declarations n inBlock ts).value, d.Readable (n.limit - n.depth) := by
  fun_induction declarations n inBlock ts with
  | case1 => intro _ hd; cases hd
  | case2 => intro _ hd; cases hd
  | case3 ts t rest hs _ _ ih =>
    have hscanned := hts.of_skipTrivia hs
    exact ih hscanned.tail hp
  | case4 ts t rest hs _ _ d after hd more ih =>
    have hscanned := hts.of_skipTrivia hs
    have hmore := ih (hscanned.suffix (listedDeclaration_stretch hd).suffix)
      fun e he => hp e (List.mem_cons_of_mem _ he)
    intro e he
    rcases List.mem_cons.1 he with rfl | he
    · rw [listedDeclaration] at hd
      obtain ⟨⟨e', us⟩, hread, hd⟩ := bind_eq_ok hd
      dsimp only at hd
      split at hd
      · cases hd
        exact declaration_readable hread hscanned (hp _ (List.mem_cons_self))
      · cases hd
    · exact hmore e he
  | case5 ts t rest hs _ _ e hd more ih =>
    have hscanned := hts.of_skipTrivia hs
    exact ih (hscanned.suffix (skipDeclaration_suffix inBlock t rest)) hp

theorem block_readable {n : Nesting} {ts : List Token} {b : Lenient (List Declaration)}
    (h : block n ts = .ok b) (hts : Scanned ts)
    (hp : ∀ d ∈ b.value, d.Plain (n.limit - n.depth - 1)) :
    ∀ d ∈ b.value, d.Readable (n.limit - n.depth - 1) := by
  rw [block] at h
  obtain ⟨us, hbrace, h⟩ := bind_eq_ok h
  obtain ⟨deeper, hn, h⟩ := bind_eq_ok h
  cases h
  obtain ⟨loc, rfl⟩ := expect_eq_ok hbrace
  obtain ⟨_, rfl⟩ := enter_eq_ok hn
  exact declarations_readable hts.tail hp

/-! ### Rulesets -/

/-- **A ruleset that is read is readable.** -/
theorem ruleset_readable {n : Nesting} {ts : List Token} {r : Lenient Ruleset}
    (h : ruleset n ts = .ok r) (hts : Scanned ts) (hnames : NullFree r.value.selector.names)
    (hp : ∀ d ∈ r.value.declarations, d.Plain (n.limit - n.depth - 1)) :
    r.value.Readable (n.limit - n.depth - 1) := by
  rw [ruleset] at h
  obtain ⟨⟨s, us⟩, hs, h⟩ := bind_eq_ok h
  obtain ⟨b, hb, h⟩ := bind_eq_ok h
  cases h
  exact ⟨selector_readable hs hts hnames,
    block_readable hb (hts.suffix (selector_stretch hs).suffix) hp⟩

/-- What is behind a construct is scanned, if what is behind it is part of what was scanned. -/
theorem scanned_of_behind {ts rest : List Token} (hts : Scanned ts)
    (h : rest ≠ [] → Behind ts rest) : Scanned rest := by
  by_cases hrest : rest = []
  · rw [hrest]
    exact Scanned.nil
  · exact hts.suffix (h hrest).suffix

/-- **The rulesets inside of `@media` are readable.** -/
theorem mediaBody_readable {n : Nesting} {ts : List Token} (hts : Scanned ts)
    (hnames : NullFree ((mediaBody n ts).rules.flatMap (·.selector.names)))
    (hp : ∀ d ∈ (mediaBody n ts).rules.flatMap Ruleset.declarations,
      d.Plain (n.limit - n.depth - 1)) :
    ∀ r ∈ (mediaBody n ts).rules, r.Readable (n.limit - n.depth - 1) := by
  fun_induction mediaBody n ts with
  | case1 => intro _ hr; cases hr
  | case2 => intro _ hr; cases hr
  | case3 ts t rest hs _ r hr more ih =>
    have hscanned := hts.of_skipTrivia hs
    obtain ⟨hfirst, hothers⟩ := nullFree_append.1 hnames
    have hmore := ih (scanned_of_behind hscanned (ruleset_behind hr)) hothers
      fun d hd => hp d (List.mem_append_right _ hd)
    intro k hk
    rcases List.mem_cons.1 hk with rfl | hk
    · exact ruleset_readable hr hscanned hfirst fun d hd => hp d (List.mem_append_left _ hd)
    · exact hmore k hk
  | case4 => intro _ hr; cases hr
  | case5 ts t rest hs _ e hr after hk more ih =>
    have hscanned := hts.of_skipTrivia hs
    exact ih (scanned_of_behind hscanned (skipStatement_behind hk)) hnames hp

/-! ### The heads of at-rules -/

theorem mediaList_readable {ts rest : List Token} {names : List String}
    (h : mediaList ts = .ok (names, rest)) (hts : Scanned ts) (hn : NullFree names) :
    names ≠ [] ∧ ∀ name ∈ names, IsName name := by
  fun_induction mediaList ts generalizing names rest with
  | case1 => cases h
  | case2 ts name us hi loc more hs ih =>
    obtain ⟨⟨names', final⟩, hr, h⟩ := bind_eq_ok h
    cases h
    have hus := (hts.suffix (ident_stretch hi).suffix).skipTrivia
    rw [hs] at hus
    have hmore := ih hr hus.tail.skipTrivia
      fun m hm => hn m (List.mem_cons_of_mem _ hm)
    refine ⟨List.cons_ne_nil _ _, ?_⟩
    intro m hm
    rcases List.mem_cons.1 hm with rfl | hm
    · exact hn.isName List.mem_cons_self (ident_ne_empty hi hts)
    · exact hmore.2 m hm
  | case3 ts name us hi after =>
    cases h
    refine ⟨List.cons_ne_nil _ _, ?_⟩
    intro m hm
    obtain rfl := List.mem_singleton.1 hm
    exact hn.isName hm (ident_ne_empty hi hts)

theorem importMedia_readable {ts rest : List Token} {names : List String}
    (h : importMedia ts = .ok (names, rest)) (hts : Scanned ts) (hn : NullFree names) :
    ∀ name ∈ names, IsName name := by
  unfold importMedia at h
  split at h
  · exact (mediaList_readable h hts hn).2
  · cases h
    intro _ hm
    cases hm

theorem importSheet_readable {ts rest : List Token} {url : String} {names : List String}
    (h : importSheet ts = .ok ((url, names), rest)) (hts : Scanned ts) (hn : NullFree names) :
    ∀ name ∈ names, IsName name := by
  rw [importSheet] at h
  obtain ⟨⟨address, us⟩, ha, h⟩ := bind_eq_ok h
  obtain ⟨⟨media, vs⟩, hm, h⟩ := bind_eq_ok h
  have hus := hts.suffix ((skipTrivia_stretch ts).trans
    ((importAddress_stretch ha).trans (skipTrivia_stretch us))).suffix
  obtain rfl : media = names := by
    dsimp only at h
    split at h
    · cases h
      rfl
    · obtain ⟨ws, _, h⟩ := bind_eq_ok h
      cases h
      rfl
  exact importMedia_readable hm hus hn

theorem pageName_readable {ts : List Token} {name : String} (h : (pageName ts).1 = some name)
    (hts : Scanned ts) (hn : '\x00' ∉ name.toList) : IsName name := by
  unfold pageName at h
  split at h
  · cases h
    obtain ⟨_, _, hsound⟩ := hts.sound
    exact ⟨hsound, hn⟩
  · cases h

theorem pagePseudo_readable {ts rest : List Token} {name : String}
    (h : pagePseudo ts = .ok (some name, rest)) (hts : Scanned ts) (hn : '\x00' ∉ name.toList) :
    IsName name := by
  unfold pagePseudo at h
  split at h
  · obtain ⟨⟨m, us⟩, hi, h⟩ := bind_eq_ok h
    cases h
    exact ⟨ident_ne_empty hi hts.tail, hn⟩
  · cases h

/-! ### Statements -/

theorem tryRuleset_readable {n : Nesting} {ts rest : List Token}
    (h : (tryRuleset n ts).result = .ok rest) (hts : Scanned ts) :
    ∃ r, (tryRuleset n ts).From n (.ruleset r) := by
  rw [tryRuleset] at h ⊢
  split at h
  · cases h
  · next r hr => exact ⟨r.value, rfl, ruleset_readable hr hts⟩

theorem tryCharset_readable {n : Nesting} {ts rest : List Token}
    (h : (tryCharset ts).result = .ok rest) :
    ∃ name, (tryCharset ts).From n (.charset name) := by
  rw [tryCharset] at h ⊢
  split at h
  · cases h
  · next name _ _ => exact ⟨name, rfl, fun _ _ => trivial⟩

theorem tryImport_readable {n : Nesting} {ts rest : List Token}
    (h : (tryImport ts).result = .ok rest) (hts : Scanned ts) :
    ∃ url names, (tryImport ts).From n (.importSheet url names) := by
  rw [tryImport] at h ⊢
  split at h
  · cases h
  · next url names _ hr =>
    exact ⟨url, names, rfl, fun hn _ => importSheet_readable hr hts hn⟩

theorem tryMedia_readable {n : Nesting} {ts rest : List Token}
    (h : (tryMedia n ts).result = .ok rest) (hts : Scanned ts) :
    ∃ names rules, (tryMedia n ts).From n (.media names rules) := by
  rw [tryMedia] at h ⊢
  split at h
  · cases h
  · next names deeper us hm =>
    have hus := hts.suffix (mediaHead_suffix hm)
    dsimp only at h ⊢
    split at h
    · rw [mediaHead] at hm
      obtain ⟨⟨names', vs⟩, hlist, hm⟩ := bind_eq_ok hm
      obtain ⟨ws, _, hm⟩ := bind_eq_ok hm
      obtain ⟨d, hn, hm⟩ := bind_eq_ok hm
      cases hm
      obtain ⟨_, rfl⟩ := enter_eq_ok hn
      refine ⟨names, _, rfl, ?_⟩
      intro hnames hplain
      obtain ⟨hmedia, hselectors⟩ := nullFree_append.1 hnames
      obtain ⟨hne, hall⟩ := mediaList_readable hlist hts.skipTrivia hmedia
      exact ⟨hne, hall, mediaBody_readable hus hselectors hplain⟩
    · cases h

theorem tryPage_readable {n : Nesting} {ts rest : List Token}
    (h : (tryPage n ts).result = .ok rest) (hts : Scanned ts) :
    ∃ name pseudo ds, (tryPage n ts).From n (.page name pseudo ds) := by
  rw [tryPage] at h ⊢
  split at h
  · cases h
  · next name pseudo b hr =>
    refine ⟨name, pseudo, b.value, rfl, ?_⟩
    intro hnames hplain
    obtain ⟨hname, hpseudo⟩ := nullFree_append.1 hnames
    rw [page] at hr
    dsimp only at hr
    obtain ⟨⟨pseudo', us⟩, hp, hr⟩ := bind_eq_ok hr
    obtain ⟨b', hblock, hr⟩ := bind_eq_ok hr
    cases hr
    have hcolon := hts.skipTrivia.suffix (pageName_stretch _).suffix
    have hbrace := (hcolon.suffix (pagePseudo_stretch hp).suffix).skipTrivia
    refine ⟨?_, ?_, block_readable hblock hbrace hplain⟩
    · intro m hm
      exact pageName_readable hm hts.skipTrivia (hname m (by simp [hm]))
    · rintro p rfl
      exact pagePseudo_readable hp hcolon (hpseudo p (by simp))

theorem tryFontFace_readable {n : Nesting} {ts rest : List Token}
    (h : (tryFontFace n ts).result = .ok rest) (hts : Scanned ts) :
    ∃ ds, (tryFontFace n ts).From n (.fontFace ds) := by
  rw [tryFontFace] at h ⊢
  split at h
  · cases h
  · next b hb => exact ⟨b.value, rfl, fun _ hp => block_readable hb hts.skipTrivia hp⟩

/-- **A statement that is read is readable**, if its text can say what it says.  It is reported as
a whole, it may come in this phase, and it begins with its keyword. -/
theorem tryStatement_readable {n : Nesting} {phase : Phase} {ts rest : List Token}
    (h : (tryStatement n phase ts).result = .ok rest) (hts : Scanned ts) :
    ∃ s : Statement, (tryStatement n phase ts).From n s ∧ s.mayCome phase = true ∧
      keyword? ts = s.keyword? := by
  have htail : Scanned ts.tail := hts.suffix (List.tail_suffix ts)
  rw [tryStatement] at h ⊢
  split at h
  · next hk =>
    obtain ⟨r, hr⟩ := tryRuleset_readable h hts
    rw [hk]
    exact ⟨.ruleset r, hr, rfl, rfl⟩
  · next hk =>
    split at h
    · next hphase =>
      obtain ⟨name, hr⟩ := tryCharset_readable h
      rw [hk, if_pos hphase]
      exact ⟨.charset name, hr, decide_eq_true hphase, rfl⟩
    · cases h
  · next hk =>
    split at h
    · cases h
    · next hphase =>
      obtain ⟨url, names, hr⟩ := tryImport_readable h htail
      rw [hk, if_neg hphase]
      exact ⟨.importSheet url names, hr, decide_eq_true hphase, rfl⟩
  · next hk =>
    obtain ⟨names, rules, hr⟩ := tryMedia_readable h htail
    rw [hk]
    exact ⟨.media names rules, hr, rfl, rfl⟩
  · next hk =>
    obtain ⟨name, pseudo, ds, hr⟩ := tryPage_readable h htail
    rw [hk]
    exact ⟨.page name pseudo ds, hr, rfl, rfl⟩
  · next hk =>
    obtain ⟨ds, hr⟩ := tryFontFace_readable h htail
    rw [hk]
    exact ⟨.fontFace ds, hr, rfl, rfl⟩
  · cases h

end Grammar

/-! ### The order of statements -/

def Phase.rank : Phase → Nat
  | .start => 0
  | .imports => 1
  | .body => 2

theorem Phase.rank_le_body (p : Phase) : p.rank ≤ Phase.body.rank := by
  cases p <;> decide

theorem Phase.rank_le_nextPhase (p : Phase) (keyword : Option String) :
    p.rank ≤ (Parser.nextPhase p keyword).rank := by
  cases p with
  | start => exact Nat.zero_le _
  | imports =>
    unfold Parser.nextPhase
    split <;> decide
  | body => exact Nat.le_refl _

theorem Phase.nextPhase_imports (keyword : Option String) :
    Parser.nextPhase .imports keyword = Parser.nextPhase .start keyword := by
  unfold Parser.nextPhase
  split
  · next h => cases h
  · rfl
  · rfl
  · next hcharset himport _ =>
    split
    · rfl
    · exact absurd rfl hcharset
    · exact absurd rfl himport
    · rfl

theorem Phase.rank_nextPhase_le {p q : Phase} (h : p.rank ≤ q.rank) (keyword : Option String) :
    (Parser.nextPhase p keyword).rank ≤ (Parser.nextPhase q keyword).rank := by
  cases q with
  | body => exact Phase.rank_le_body _
  | start =>
    cases p with
    | start => exact Nat.le_refl _
    | _ => exact absurd h (by decide)
  | imports =>
    rw [nextPhase_imports]
    cases p with
    | start => exact Nat.le_refl _
    | imports => exact Nat.le_of_eq (by rw [nextPhase_imports])
    | body => exact absurd h (by decide)

theorem Statement.mayCome_of_le {p q : Phase} (h : p.rank ≤ q.rank) {s : Statement}
    (hs : s.mayCome q = true) : s.mayCome p = true := by
  cases s with
  | charset name =>
    obtain rfl : q = .start := of_decide_eq_true hs
    cases p with
    | start => rfl
    | _ => exact absurd h (by decide)
  | importSheet url names =>
    refine decide_eq_true fun hp => ?_
    subst hp
    cases q with
    | body => cases hs
    | _ => exact absurd h (by decide)
  | _ => rfl

theorem Statement.Ordered.of_le {p q : Phase} (h : p.rank ≤ q.rank) {ss : List Statement}
    (hs : Statement.Ordered q ss) : Statement.Ordered p ss := by
  induction ss generalizing p q with
  | nil => exact trivial
  | cons s ss ih =>
    exact ⟨Statement.mayCome_of_le h hs.1, ih (Phase.rank_nextPhase_le h _) hs.2⟩

namespace Parser

/-- **What a sheet that is read to its end is built from**: statements that are readable, as far
as their text can say what they say, each of them where it may come. -/
theorem statements_readable {options : ParseOptions} {stop : Location} {phase : Phase}
    {ts : List Token} (h : (statements options stop phase ts).result = .ok ()) (hts : Scanned ts) :
    ∃ ss : List Statement,
      (∀ b : Builder, b.Idle →
        (b.run (statements options stop phase ts).events).sheet = ⟨b.sheet.statements ++ ss⟩) ∧
      Statement.Ordered phase ss ∧
      ∀ s ∈ ss, NullFree s.headNames →
        (∀ d ∈ s.declarations, d.Plain (options.maxNesting - s.depth)) →
        s.Readable options.maxNesting := by
  fun_induction statements options stop phase ts
  · refine ⟨[], fun b _ => ?_, trivial, fun _ hs => by cases hs⟩
    rw [List.append_nil]
    rfl
  · next phase ts t rest hs n phase' after es skipped activity ha ih =>
    have hr : (Grammar.tryStatement n phase (t :: rest)).result = .ok after := by rw [ha]
    have hscanned := hts.suffix (skipBetween_suffix ts)
    rw [hs] at hscanned
    obtain ⟨s, ⟨hevents, hread⟩, hcome, hkeyword⟩ := Grammar.tryStatement_readable hr hscanned
    rw [ha] at hevents
    obtain rfl : es = s.events := hevents
    obtain ⟨ss, hrun, hordered, hreads⟩ :=
      ih h (Grammar.scanned_of_behind hscanned (Grammar.tryStatement_behind hr))
    refine ⟨s :: ss, fun b hb => ?_, ⟨hcome, hkeyword ▸ hordered⟩, ?_⟩
    · show (b.run (s.events ++ _)).sheet = _
      rw [Builder.run_append, Builder.run_statement hb, hrun _ (hb.push s)]
      rw [Builder.push, Sheet.push]
      simp
    · intro k hk
      rcases List.mem_cons.1 hk with rfl | hk
      · exact hread
      · exact hreads k hk
  · next phase ts t rest hs n phase' e es skipped activity ha hf after hk ih =>
    have habandoned := Protocol.reported_tryStatement n phase (t :: rest)
    rw [ha] at habandoned
    have hscanned := hts.suffix (skipBetween_suffix ts)
    rw [hs] at hscanned
    obtain ⟨ss, hrun, hordered, hreads⟩ :=
      ih h (Grammar.scanned_of_behind hscanned (Grammar.skipStatement_behind hk))
    refine ⟨ss, fun b hb => ?_, hordered.of_le (Phase.rank_le_nextPhase phase _), hreads⟩
    show (b.run (es ++ [.error (e.toError stop)] ++ _)).sheet = _
    rw [Builder.run_append, Builder.run_error habandoned, hb.discard, hrun b hb]
  · cases h
  · cases h

end Parser

end Css2
