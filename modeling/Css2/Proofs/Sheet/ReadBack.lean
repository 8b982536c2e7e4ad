import Css2.Proofs.Selector.ReadBack
import Css2.Proofs.Sheet.Built
import Css2.Proofs.Term.ReadBack
import Css2.Sheet.Print

/-!
# Written sheets read back

The loop over the statements reads the text of a sheet as the statements of that sheet, and it
skips nothing on the way (`Parser.statements_text`).  So the sheet that is built from what it
reports is the sheet that was written (`Sheet.parse_text_of_readable`).
-/

namespace Css2

open Scan

/-! ### Readable declarations -/

/-- A declaration that the grammar reads from its text, with `k` more levels of nesting allowed. -/
structure Declaration.Readable (k : Nat) (d : Declaration) : Prop where
  property : IsName d.property
  last : Term.lastBare d.value = true
  terms : Term.AllReadable k d.value

/-- A ruleset that the grammar reads from its text. -/
structure Ruleset.Readable (k : Nat) (r : Ruleset) : Prop where
  selector : r.selector.Readable
  declarations : ∀ d ∈ r.declarations, d.Readable k

/-- A statement that the grammar reads from its text.  A block is one level of nesting, and so are
those inside `@media`. -/
def Statement.Readable (k : Nat) : Statement → Prop
  | .ruleset r => r.Readable (k - 1)
  | .importSheet _ names => ∀ name ∈ names, IsName name
  | .media names rules =>
    names ≠ [] ∧ (∀ name ∈ names, IsName name) ∧ ∀ r ∈ rules, r.Readable (k - 2)
  | .page name pseudo ds =>
    (∀ m, name = some m → IsName m) ∧ (∀ p, pseudo = some p → IsName p) ∧
      ∀ d ∈ ds, d.Readable (k - 1)
  | .charset _ => True
  | .fontFace ds => ∀ d ∈ ds, d.Readable (k - 1)

def Statement.keyword? : Statement → Option String
  | .ruleset _ => none
  | .importSheet _ _ => some "import"
  | .media _ _ => some "media"
  | .page _ _ _ => some "page"
  | .charset _ => some "charset"
  | .fontFace _ => some "font-face"

/-- Whether a statement may come in the given phase. -/
def Statement.mayCome (phase : Phase) : Statement → Bool
  | .charset _ => phase = .start
  | .importSheet _ _ => phase ≠ .body
  | _ => true

/-- Each of the statements may come where it stands. -/
def Statement.Ordered (phase : Phase) : List Statement → Prop
  | [] => True
  | s :: ss => s.mayCome phase = true ∧ Ordered (Parser.nextPhase phase s.keyword?) ss

/-- The attempt reads the statement, reports it as it is and leaves the tokens of `rest`. -/
def Attempt.Reads (a : Attempt) (s : Statement) (rest : List Char) : Prop :=
  ∃ us, a.result = .ok us ∧ a.events = s.events ∧ TokensOf rest us

namespace Grammar

/-! ### Declarations -/

/-- **A value is read back** up to what ends it, as it stands in a declaration. -/
theorem value_text {n : Nesting} {d : Declaration} (h : d.Readable (n.limit - n.depth))
    {rest : List Char} (hrest : endsTerm rest = true)
    (hstop : ∀ vs, TokensOf rest vs → next? vs = none) {us : List Token}
    (hus : TokensOf ((valueText d.value).toList ++ rest) us) :
    ∃ vs, terms n us = .ok (d.value, skipTrivia vs) ∧ TokensOf rest vs :=
  terms_text (readsBack_terms n d.value h.terms) h.last hrest hstop hus

def importantText (important : Bool) : String :=
  if important then " !important" else ""

/-- The mark of an important declaration ends its value, and it is read up to the semicolon. -/
theorem important_text (important : Bool) {rest : List Char} {vs : List Token}
    (hvs : TokensOf ((importantText important).toList ++ ';' :: rest) vs) :
    next? vs = none ∧ ∃ loc us, TokensOf rest us ∧
      ((important = false ∧ skipTrivia vs = ⟨.mark .semicolon, loc⟩ :: us) ∨
        ∃ loc' ws, important = true ∧ skipTrivia vs = ⟨.important, loc'⟩ :: ws ∧
          skipTrivia ws = ⟨.mark .semicolon, loc⟩ :: us) := by
  cases important with
  | false =>
    obtain ⟨loc, us, rfl, hus⟩ := hvs.next (l := .mark .semicolon) rfl
    exact ⟨rfl, loc, us, hus, .inl ⟨rfl, rfl⟩⟩
  | true =>
    obtain ⟨loc, us, rfl, hus⟩ :=
      (show TokensOf (' ' :: ("!important".toList ++ ';' :: rest)) _ from hvs).blank rfl rfl
    obtain ⟨loc1, us1, rfl, hus1⟩ := hus.next (next?_important rfl)
    obtain ⟨loc2, us2, rfl, hus2⟩ := hus1.next (l := .mark .semicolon) rfl
    exact ⟨rfl, loc2, us2, hus2, .inr ⟨loc1, _, rfl, rfl, rfl⟩⟩

/-- **A declaration is read back** up to its semicolon. -/
theorem declaration_text {n : Nesting} {d : Declaration} (h : d.Readable (n.limit - n.depth))
    {rest : List Char} {ts : List Token} (hts : TokensOf (d.text.toList ++ ';' :: rest) ts) :
    ∃ loc us, declaration n ts = .ok (d, ⟨.mark .semicolon, loc⟩ :: us) ∧ TokensOf rest us := by
  have hvalue := @value_text n d h
  obtain ⟨property, value, important⟩ := d
  have hproperty := h.property
  dsimp only at hvalue hproperty
  have htext : (Declaration.text ⟨property, value, important⟩).toList ++ ';' :: rest
      = Written.ident property.toList ++ ':' :: ' ' ::
        ((valueText value).toList ++ ((importantText important).toList ++ ';' :: rest)) := by
    simp [Declaration.text, identText, importantText]
  have hrest : endsTerm ((importantText important).toList ++ ';' :: rest) = true := by
    cases important <;> rfl
  have hread := fun us hus =>
    @hvalue _ hrest (fun vs hvs => (important_text important hvs).1) us hus
  have hblank := dropWhile_isBlank_of_startsTerm fun us hus => by
    obtain ⟨vs, hterms, _⟩ := hread us hus
    exact startsTerm_of_terms hterms
  rw [htext] at hts
  obtain ⟨loc, us, rfl, hus⟩ := hts.next (next?_ident hproperty rfl (by simp))
  obtain ⟨loc1, us1, rfl, hus1⟩ := hus.next (l := .mark .colon) rfl
  obtain ⟨loc2, us2, rfl, hus2⟩ := hus1.blank rfl hblank
  obtain ⟨vs, hterms, hvs⟩ := hread us2 hus2
  obtain ⟨t, us3, rfl, ht⟩ := startsTerm_of_terms hterms
  obtain ⟨_, loc4, us4, hus4, hend⟩ := important_text important hvs
  refine ⟨loc4, us4, ?_, hus4⟩
  show (terms n (skipTrivia (t :: us3)) >>= _) = _
  rw [skipTrivia_of_startsTerm ht, hterms]
  dsimp only [bind, Except.bind]
  rcases hend with ⟨rfl, hskip⟩ | ⟨loc', ws, rfl, hskip, hskip'⟩
  · rw [hskip]
  · rw [hskip]
    dsimp only
    rw [hskip']

/-! ### Blocks -/

def insideText (ds : List Declaration) : String :=
  String.join (ds.map fun d => " " ++ d.text ++ ";")

theorem ident_of_declaration {n : Nesting} {ts : List Token} {r : Declaration × List Token}
    (h : declaration n ts = .ok r) : ∃ name loc us, ts = ⟨.ident name, loc⟩ :: us := by
  obtain ⟨⟨name, us⟩, hident, _⟩ := bind_eq_ok h
  obtain ⟨loc, rfl⟩ := ident_eq_ok hident
  exact ⟨name, loc, us, rfl⟩

/-- **Declarations are read back** up to the brace that closes their block. -/
theorem declarations_text {n : Nesting} {ds : List Declaration}
    (h : ∀ d ∈ ds, d.Readable (n.limit - n.depth)) {rest : List Char} {ts : List Token}
    (hts : TokensOf ((insideText ds).toList ++ ' ' :: '\x7d' :: rest) ts) :
    ∃ us, declarations n true ts = ⟨ds, [], us⟩ ∧ TokensOf rest us := by
  induction ds generalizing ts with
  | nil =>
    obtain ⟨loc, us, rfl, hus⟩ :=
      (show TokensOf (' ' :: '\x7d' :: rest) _ from hts).blank rfl rfl
    obtain ⟨loc1, us1, rfl, hus1⟩ := hus.next (l := .mark .closeBrace) rfl
    refine ⟨us1, ?_, hus1⟩
    rw [declarations_eq]
    rfl
  | cons d ds ih =>
    have hread := fun us hus => @declaration_text n d (h d (by simp))
      ((insideText ds).toList ++ ' ' :: '\x7d' :: rest) us hus
    have hblank := TokensOf.dropWhile_isBlank fun us hus => by
      obtain ⟨loc, vs, hd, _⟩ := hread us hus
      obtain ⟨name, loc', ws, rfl⟩ := ident_of_declaration hd
      exact ⟨_, ws, rfl, by simp⟩
    have htext : (insideText (d :: ds)).toList ++ ' ' :: '\x7d' :: rest
        = ' ' :: (d.text.toList ++ ';' :: ((insideText ds).toList ++ ' ' :: '\x7d' :: rest)) := by
      simp [insideText]
    rw [htext] at hts
    obtain ⟨loc, us, rfl, hus⟩ := hts.blank rfl hblank
    obtain ⟨loc1, vs, hd, hvs⟩ := hread us hus
    obtain ⟨name, loc2, ws, rfl⟩ := ident_of_declaration hd
    obtain ⟨xs, hmore, hxs⟩ := ih (fun e he => h e (by simp [he])) hvs
    have hlisted : listedDeclaration n (⟨.ident name, loc2⟩ :: ws)
        = .ok (d, ⟨.mark .semicolon, loc1⟩ :: vs) := by
      rw [listedDeclaration]
      rw [hd]
      rfl
    have hsemicolon : declarations n true (⟨.mark .semicolon, loc1⟩ :: vs) = ⟨ds, [], xs⟩ := by
      rw [declarations_eq]
      exact hmore
    refine ⟨xs, ?_, hxs⟩
    have hskip : skipTrivia (⟨.whitespace, loc⟩ :: ⟨.ident name, loc2⟩ :: ws)
        = ⟨.ident name, loc2⟩ :: ws := rfl
    rw [declarations_eq, hskip]
    dsimp only
    rw [if_neg (by simp [Lexeme.isMark]), if_neg (by simp [Lexeme.isMark]), hlisted]
    dsimp only
    rw [hsemicolon]

/-- **A block is read back.** -/
theorem block_text {n : Nesting} (hn : n.depth < n.limit) {ds : List Declaration}
    (h : ∀ d ∈ ds, d.Readable (n.limit - (n.depth + 1))) {rest : List Char} (loc : Location)
    {ts : List Token} (hts : TokensOf ((insideText ds).toList ++ ' ' :: '\x7d' :: rest) ts) :
    ∃ us, block n (⟨.mark .openBrace, loc⟩ :: ts) = .ok ⟨ds, [], us⟩ ∧ TokensOf rest us := by
  obtain ⟨us, hds, hus⟩ := declarations_text (n := { n with depth := n.depth + 1 }) h hts
  refine ⟨us, ?_, hus⟩
  show (do
    let deeper ← n.enter ts
    Except.ok (declarations deeper true ts)) = _
  rw [enter_of_lt hn, ← hds]
  rfl

theorem blockText_toList (ds : List Declaration) (rest : List Char) :
    (blockText ds).toList ++ rest
      = '\x7b' :: ((insideText ds).toList ++ ' ' :: '\x7d' :: rest) := by
  simp [blockText, insideText]

/-! ### Rulesets -/

/-- **A ruleset is read back.** -/
theorem ruleset_text {n : Nesting} (hn : n.depth < n.limit) {r : Ruleset}
    (h : r.Readable (n.limit - (n.depth + 1))) {rest : List Char} {ts : List Token}
    (hts : TokensOf (r.text.toList ++ rest) ts) :
    ∃ us, ruleset n ts = .ok ⟨r, [], us⟩ ∧ TokensOf rest us := by
  have htext : r.text.toList ++ rest = r.selector.text.toList ++
      ' ' :: '\x7b' :: ((insideText r.declarations).toList ++ ' ' :: '\x7d' :: rest) := by
    rw [← blockText_toList]
    simp [Ruleset.text]
  rw [htext] at hts
  obtain ⟨loc, us, hselector, hus⟩ := selector_text h.selector hts
  obtain ⟨vs, hblock, hvs⟩ := block_text hn h.declarations loc hus
  refine ⟨vs, ?_, hvs⟩
  rw [ruleset]
  rw [hselector]
  dsimp only [bind, Except.bind]
  rw [hblock]

theorem startsLink_of_ruleset {n : Nesting} {ts : List Token} {r : Lenient Ruleset}
    (h : ruleset n ts = .ok r) : ∃ t us, ts = t :: us ∧ startsLink t.lexeme = true := by
  obtain ⟨⟨s, us⟩, hs, _⟩ := bind_eq_ok h
  exact startsLink_of_selector hs

/-! ### Media -/

/-- The text of rulesets inside `@media`. -/
def rulesText (rules : List Ruleset) : String :=
  String.join (rules.map fun r => "  " ++ r.text ++ "\n")

theorem mediaBody_congr {n : Nesting} {ts us : List Token} (h : skipTrivia ts = skipTrivia us) :
    mediaBody n ts = mediaBody n us := by
  rw [mediaBody_eq, mediaBody_eq n us, h]

/-- **The inside of `@media` is read back.** -/
theorem mediaBody_text {n : Nesting} (hn : n.depth < n.limit) {rules : List Ruleset}
    (h : ∀ r ∈ rules, r.Readable (n.limit - (n.depth + 1))) {rest : List Char} {ts : List Token}
    (hts : TokensOf ('\n' :: ((rulesText rules).toList ++ '\x7d' :: rest)) ts) :
    ∃ us, (mediaBody n ts).rules = rules ∧ (mediaBody n ts).result = .ok us ∧ TokensOf rest us := by
  induction rules generalizing ts with
  | nil =>
    obtain ⟨loc, us, rfl, hus⟩ :=
      (show TokensOf ('\n' :: '\x7d' :: rest) _ from hts).blank rfl rfl
    obtain ⟨loc1, us1, rfl, hus1⟩ := hus.next (l := .mark .closeBrace) rfl
    have hbody : mediaBody n (⟨.whitespace, loc⟩ :: ⟨.mark .closeBrace, loc1⟩ :: us1)
        = ⟨[], [], none, .ok us1⟩ := by
      rw [mediaBody_eq]
      rfl
    exact ⟨us1, by rw [hbody], by rw [hbody], hus1⟩
  | cons r rs ih =>
    have hread := fun us hus => @ruleset_text n hn r (h r (by simp))
      ('\n' :: ((rulesText rs).toList ++ '\x7d' :: rest)) us hus
    have hblank := dropWhile_isBlank_of_startsLink fun us hus => by
      obtain ⟨vs, hr, _⟩ := hread us hus
      exact startsLink_of_ruleset hr
    have htext : '\n' :: ((rulesText (r :: rs)).toList ++ '\x7d' :: rest) = '\n' :: ' ' :: ' ' ::
        (r.text.toList ++ '\n' :: ((rulesText rs).toList ++ '\x7d' :: rest)) := by
      simp [rulesText]
    rw [htext] at hts
    obtain ⟨us, hskip, hus⟩ := hts.skipTrivia_dropWhile
    have hdrop : ∀ cs : List Char,
        ('\n' :: ' ' :: ' ' :: cs).dropWhile isBlank = cs.dropWhile isBlank := fun _ => rfl
    rw [hdrop, hblank] at hus
    obtain ⟨vs, hr, hvs⟩ := hread us hus
    obtain ⟨t, ws, rfl, ht⟩ := startsLink_of_ruleset hr
    obtain ⟨xs, hrules, hresult, hxs⟩ := ih (fun k hk => h k (by simp [hk])) hvs
    have hclose : t.lexeme.isMark .closeBrace = false := by
      cases hl : t.lexeme with
      | mark m => 
        rw [hl] at ht
        cases m <;> first | rfl | cases ht
      | _ => rfl
    have hbody : mediaBody n (t :: ws)
        = ⟨r :: (mediaBody n vs).rules, [] ++ (mediaBody n vs).skipped,
          (mediaBody n vs).activity.or (some (.completed .ruleset)),
          (mediaBody n vs).result⟩ := by
      rw [mediaBody_eq, skipTrivia_of_startsLink ht]
      dsimp only
      rw [hclose, hr]
      rfl
    rw [mediaBody_congr hskip, hbody]
    exact ⟨xs, by rw [hrules], hresult, hxs⟩

theorem ident_of_mediaList {ts : List Token} {r : List String × List Token}
    (h : mediaList ts = .ok r) : ∃ name loc us, ts = ⟨.ident name, loc⟩ :: us := by
  rw [mediaList_eq] at h
  obtain ⟨⟨name, us⟩, hi, _⟩ := bind_eq_ok h
  obtain ⟨loc, rfl⟩ := ident_eq_ok hi
  exact ⟨name, loc, us, rfl⟩

/-- **Names of media are read back**, with the trivia behind them. -/
theorem mediaList_text {names : List String} (hne : names ≠ []) (h : ∀ name ∈ names, IsName name)
    {rest : List Char} (hident : endsIdent rest = true) (hparen : rest.head? ≠ some '(')
    (hstop : ∀ us, TokensOf rest us → ∃ t vs, skipTrivia us = t :: vs ∧
      t.lexeme.isMark .comma = false) {ts : List Token}
    (hts : TokensOf ((mediaText names).toList ++ rest) ts) :
    ∃ us, mediaList ts = .ok (names, skipTrivia us) ∧ TokensOf rest us := by
  induction names generalizing ts with
  | nil => exact absurd rfl hne
  | cons name names ih =>
    have hname := h name (by simp)
    cases names with
    | nil =>
      have htext : (mediaText [name]).toList = Written.ident name.toList := by
        simp [mediaText, identText]
      rw [htext] at hts
      obtain ⟨loc, us, rfl, hus⟩ := hts.next (next?_ident hname hident hparen)
      obtain ⟨t, vs, hskip, ht⟩ := hstop us hus
      refine ⟨us, ?_, hus⟩
      rw [mediaList_eq]
      dsimp only [ident, bind, Except.bind]
      rw [hskip]
      split
      · next heq =>
        cases heq
        cases ht
      · rfl
    | cons next names =>
      have htext : (mediaText (name :: next :: names)).toList ++ rest
          = Written.ident name.toList ++
            ',' :: ' ' :: ((mediaText (next :: names)).toList ++ rest) := by
        simp [mediaText, identText, String.intercalate_cons_cons]
      have hread := fun us (hus : TokensOf ((mediaText (next :: names)).toList ++ rest) us) =>
        ih (by simp) (fun m hm => h m (by simp [hm])) hus
      have hfirst : ∀ us, TokensOf ((mediaText (next :: names)).toList ++ rest) us →
          ∃ name loc vs, us = ⟨.ident name, loc⟩ :: vs := by
        intro us hus
        obtain ⟨vs, hlist, _⟩ := hread us hus
        exact ident_of_mediaList hlist
      have hblank := TokensOf.dropWhile_isBlank fun us hus => by
        obtain ⟨name', loc, vs, rfl⟩ := hfirst us hus
        exact ⟨_, vs, rfl, by simp⟩
      rw [htext] at hts
      obtain ⟨loc, us, rfl, hus⟩ := hts.next (next?_ident hname rfl (by simp))
      obtain ⟨loc1, us1, rfl, hus1⟩ := hus.next (l := .mark .comma) rfl
      obtain ⟨loc2, us2, rfl, hus2⟩ := hus1.blank rfl hblank
      obtain ⟨vs, hlist, hvs⟩ := hread us2 hus2
      obtain ⟨name', loc3, us3, rfl⟩ := hfirst us2 hus2
      refine ⟨vs, ?_, hvs⟩
      rw [mediaList_eq]
      show (mediaList (⟨.ident name', loc3⟩ :: us3) >>= _) = _
      rw [hlist]
      rfl

/-! ### At-rules -/

/-- **`@charset` is read back** behind its keyword. -/
theorem charset_text {name : String} {rest : List Char} {ts : List Token}
    (hts : TokensOf (' ' :: (Written.string name.toList ++ ';' :: rest)) ts) :
    ∃ us, charset ts = .ok (name, us) ∧ TokensOf rest us := by
  obtain ⟨loc, us, rfl, hus⟩ := hts.blank rfl rfl
  obtain ⟨loc1, us1, rfl, hus1⟩ := hus.next (next?_string name _)
  obtain ⟨loc2, us2, rfl, hus2⟩ := hus1.next (l := .mark .semicolon) rfl
  exact ⟨us2, rfl, hus2⟩

def importMediaText (names : List String) : String :=
  if names.isEmpty then "" else " " ++ mediaText names

theorem importMedia_text {names : List String} (h : ∀ name ∈ names, IsName name) {rest : List Char}
    {ts : List Token} (hts : TokensOf ((importMediaText names).toList ++ ';' :: rest) ts) :
    ∃ loc us, importMedia (skipTrivia ts) = .ok (names, ⟨.mark .semicolon, loc⟩ :: us) ∧
      TokensOf rest us := by
  cases names with
  | nil =>
    obtain ⟨loc, us, rfl, hus⟩ :=
      (show TokensOf (';' :: rest) _ from hts).next (l := .mark .semicolon) rfl
    exact ⟨loc, us, rfl, hus⟩
  | cons name names =>
    have hsemicolon : ∀ us, TokensOf (';' :: rest) us → ∃ loc vs,
        us = ⟨.mark .semicolon, loc⟩ :: vs ∧ TokensOf rest vs :=
      fun us hus => hus.next rfl
    have hstop : ∀ us, TokensOf (';' :: rest) us → ∃ t vs, skipTrivia us = t :: vs ∧
        t.lexeme.isMark .comma = false := by
      intro us hus
      obtain ⟨loc, vs, rfl, _⟩ := hsemicolon us hus
      exact ⟨_, vs, rfl, rfl⟩
    have hread := fun us (hus : TokensOf ((mediaText (name :: names)).toList ++ ';' :: rest) us) =>
      mediaList_text (by simp) h rfl (by simp) hstop hus
    have hfirst : ∀ us, TokensOf ((mediaText (name :: names)).toList ++ ';' :: rest) us →
        ∃ name loc vs, us = ⟨.ident name, loc⟩ :: vs := by
      intro us hus
      obtain ⟨vs, hlist, _⟩ := hread us hus
      exact ident_of_mediaList hlist
    have hblank := TokensOf.dropWhile_isBlank fun us hus => by
      obtain ⟨name', loc, vs, rfl⟩ := hfirst us hus
      exact ⟨_, vs, rfl, by simp⟩
    have htext : (importMediaText (name :: names)).toList ++ ';' :: rest
        = ' ' :: ((mediaText (name :: names)).toList ++ ';' :: rest) := by
      simp [importMediaText]
    rw [htext] at hts
    obtain ⟨loc, us, rfl, hus⟩ := hts.blank rfl hblank
    obtain ⟨vs, hlist, hvs⟩ := hread us hus
    obtain ⟨name', loc1, us1, rfl⟩ := hfirst us hus
    obtain ⟨loc2, ws, rfl, hws⟩ := hsemicolon vs hvs
    exact ⟨loc2, ws, hlist, hws⟩

/-- **`@import` is read back** behind its keyword. -/
theorem importSheet_text {url : String} {names : List String} (h : ∀ name ∈ names, IsName name)
    {rest : List Char} {ts : List Token}
    (hts : TokensOf (' ' :: ((uriText url).toList ++
      ((importMediaText names).toList ++ ';' :: rest))) ts) :
    ∃ us, importSheet ts = .ok ((url, names), us) ∧ TokensOf rest us := by
  have htext : (uriText url).toList ++ ((importMediaText names).toList ++ ';' :: rest)
      = Written.ident "url".toList ++ '(' :: (Written.string url.toList ++
        ')' :: ((importMediaText names).toList ++ ';' :: rest)) := by
    have hident : Written.ident "url".toList = "url".toList := by decide
    rw [hident]
    simp [uriText, stringText]
  have hname : IsName "url" := ⟨by decide, by decide⟩
  rw [htext] at hts
  obtain ⟨loc, us, rfl, hus⟩ := hts.blank rfl rfl
  obtain ⟨loc1, us1, rfl, hus1⟩ := hus.next (next?_function hname fun _ => rfl)
  obtain ⟨loc2, us2, rfl, hus2⟩ := hus1.next (next?_string url _)
  obtain ⟨loc3, us3, rfl, hus3⟩ := hus2.next (l := .mark .closeParen) rfl
  obtain ⟨loc4, us4, hmedia, hus4⟩ := importMedia_text h hus3
  have haddress : importAddress (⟨.function "url", loc1⟩ :: ⟨.string url, loc2⟩ ::
      ⟨.mark .closeParen, loc3⟩ :: us3) = .ok (url, us3) := by
    have hsame : sameName "url" "url" = true := beq_self_eq_true _
    rw [importAddress]
    dsimp only
    rw [if_pos hsame]
    rfl
  refine ⟨us4, ?_, hus4⟩
  show (importAddress (⟨.function "url", loc1⟩ :: ⟨.string url, loc2⟩ ::
    ⟨.mark .closeParen, loc3⟩ :: us3) >>= _) = _
  rw [haddress]
  dsimp only [bind, Except.bind]
  rw [hmedia]
  rfl

/-- The head of `@media` is read back up to its brace. -/
theorem mediaHead_text {n : Nesting} (hn : n.depth < n.limit) {names : List String}
    (hne : names ≠ []) (hnames : ∀ name ∈ names, IsName name) {rest : List Char} {ts : List Token}
    (hts : TokensOf (' ' :: ((mediaText names).toList ++ ' ' :: '\x7b' :: rest)) ts) :
    ∃ us, mediaHead n ts = .ok (names, { n with depth := n.depth + 1 }, us) ∧ TokensOf rest us := by
  have hstop : ∀ us, TokensOf (' ' :: '\x7b' :: rest) us → ∃ t vs, skipTrivia us = t :: vs ∧
      t.lexeme.isMark .comma = false := by
    intro us hus
    obtain ⟨loc, loc', vs, rfl, _⟩ := hus.openBrace
    exact ⟨_, vs, rfl, rfl⟩
  have hread := fun us (hus : TokensOf ((mediaText names).toList ++ ' ' :: '\x7b' :: rest) us) =>
    mediaList_text hne hnames rfl (by simp) hstop hus
  have hblank := TokensOf.dropWhile_isBlank fun us hus => by
    obtain ⟨vs, hlist, _⟩ := hread us hus
    obtain ⟨name, loc, ws, rfl⟩ := ident_of_mediaList hlist
    exact ⟨_, ws, rfl, by simp⟩
  obtain ⟨loc, us, rfl, hus⟩ := hts.blank rfl hblank
  obtain ⟨vs, hlist, hvs⟩ := hread us hus
  obtain ⟨name, loc1, us1, rfl⟩ := ident_of_mediaList hlist
  obtain ⟨loc2, loc3, ws, rfl, hws⟩ := hvs.openBrace
  refine ⟨ws, ?_, hws⟩
  show (mediaList (⟨.ident name, loc1⟩ :: us1) >>= _) = _
  rw [hlist]
  show (do
    let deeper ← n.enter ws
    Except.ok (names, deeper, ws)) = _
  rw [enter_of_lt hn]
  rfl

/-- **`@media` is read back** behind its keyword. -/
theorem tryMedia_text {n : Nesting} (hn : n.depth + 1 < n.limit) {names : List String}
    (hne : names ≠ []) (hnames : ∀ name ∈ names, IsName name) {rules : List Ruleset}
    (hrules : ∀ r ∈ rules, r.Readable (n.limit - (n.depth + 2))) {rest : List Char}
    {ts : List Token} (hts : TokensOf (' ' :: ((mediaText names).toList ++
      ' ' :: '\x7b' :: '\n' :: ((rulesText rules).toList ++ '\x7d' :: rest))) ts) :
    (tryMedia n ts).Reads (.media names rules) rest := by
  obtain ⟨us, hhead, hus⟩ := mediaHead_text (n := n) (by omega) hne hnames hts
  obtain ⟨vs, hbody, hresult, hvs⟩ :=
    mediaBody_text (n := { n with depth := n.depth + 1 }) hn hrules hus
  refine ⟨vs, ?_, ?_, hvs⟩ <;>
  · rw [tryMedia]
    rw [hhead]
    dsimp only
    rw [hresult, hbody]
    rfl

/-- What stands between `@page` and its block is read back up to the brace. -/
theorem pageHead_text {name pseudo : Option String} (hname : ∀ m, name = some m → IsName m)
    (hpseudo : ∀ p, pseudo = some p → IsName p) {rest : List Char} {ts : List Token}
    (hts : TokensOf (' ' :: ((pageText name pseudo).toList ++ '\x7b' :: rest)) ts) :
    ∃ us vs loc ws, pageName (skipTrivia ts) = (name, us) ∧ pagePseudo us = .ok (pseudo, vs) ∧
      skipTrivia vs = ⟨.mark .openBrace, loc⟩ :: ws ∧ TokensOf rest ws := by
  cases name with
  | none =>
    cases pseudo with
    | none =>
      obtain ⟨loc, loc', us, rfl, hus⟩ := hts.openBrace
      exact ⟨_, _, loc', us, rfl, rfl, rfl, hus⟩
    | some pseudo =>
      have htext : (pageText none (some pseudo)).toList ++ '\x7b' :: rest
          = ':' :: (Written.ident pseudo.toList ++ ' ' :: '\x7b' :: rest) := by
        simp [pageText, identText]
      rw [htext] at hts
      obtain ⟨loc, us, rfl, hus⟩ := hts.blank rfl rfl
      obtain ⟨loc1, us1, rfl, hus1⟩ := hus.next (l := .mark .colon) rfl
      obtain ⟨loc2, us2, rfl, hus2⟩ := hus1.next (next?_ident (hpseudo _ rfl) rfl (by simp))
      obtain ⟨loc3, loc4, us4, rfl, hus4⟩ := hus2.openBrace
      exact ⟨_, _, loc4, us4, rfl, rfl, rfl, hus4⟩
  | some name =>
    have hident := hname name rfl
    have hblank : ∀ cs, endsIdent cs = true → cs.head? ≠ some '(' →
        (Written.ident name.toList ++ cs).dropWhile isBlank = Written.ident name.toList ++ cs :=
      fun cs h1 h2 => dropWhile_isBlank_of_next? (next?_ident hident h1 h2) (by simp)
    cases pseudo with
    | none =>
      have htext : (pageText (some name) none).toList ++ '\x7b' :: rest
          = Written.ident name.toList ++ ' ' :: '\x7b' :: rest := by
        simp [pageText, identText]
      rw [htext] at hts
      obtain ⟨loc, us, rfl, hus⟩ := hts.blank rfl (hblank _ rfl (by simp))
      obtain ⟨loc1, us1, rfl, hus1⟩ := hus.next (next?_ident hident rfl (by simp))
      obtain ⟨loc2, loc3, us3, rfl, hus3⟩ := hus1.openBrace
      exact ⟨_, _, loc3, us3, rfl, rfl, rfl, hus3⟩
    | some pseudo =>
      have htext : (pageText (some name) (some pseudo)).toList ++ '\x7b' :: rest
          = Written.ident name.toList ++
            ':' :: (Written.ident pseudo.toList ++ ' ' :: '\x7b' :: rest) := by
        simp [pageText, identText]
      rw [htext] at hts
      obtain ⟨loc, us, rfl, hus⟩ := hts.blank rfl (hblank _ rfl (by simp))
      obtain ⟨loc1, us1, rfl, hus1⟩ := hus.next (next?_ident hident rfl (by simp))
      obtain ⟨loc2, us2, rfl, hus2⟩ := hus1.next (l := .mark .colon) rfl
      obtain ⟨loc3, us3, rfl, hus3⟩ := hus2.next (next?_ident (hpseudo _ rfl) rfl (by simp))
      obtain ⟨loc4, loc5, us5, rfl, hus5⟩ := hus3.openBrace
      exact ⟨_, _, loc5, us5, rfl, rfl, rfl, hus5⟩

/-- **`@page` is read back** behind its keyword. -/
theorem page_text {n : Nesting} (hn : n.depth < n.limit) {name pseudo : Option String}
    (hname : ∀ m, name = some m → IsName m) (hpseudo : ∀ p, pseudo = some p → IsName p)
    {ds : List Declaration} (h : ∀ d ∈ ds, d.Readable (n.limit - (n.depth + 1)))
    {rest : List Char} {ts : List Token} (hts : TokensOf (' ' :: ((pageText name pseudo).toList ++
      '\x7b' :: ((insideText ds).toList ++ ' ' :: '\x7d' :: rest))) ts) :
    ∃ us, page n ts = .ok (name, pseudo, ⟨ds, [], us⟩) ∧ TokensOf rest us := by
  obtain ⟨us, vs, loc, ws, h1, h2, h3, hws⟩ := pageHead_text hname hpseudo hts
  obtain ⟨xs, hblock, hxs⟩ := block_text hn h loc hws
  refine ⟨xs, ?_, hxs⟩
  rw [page]
  rw [h1]
  dsimp only
  rw [h2]
  dsimp only [bind, Except.bind]
  rw [h3, hblock]

/-! ### Statements -/

theorem tryRuleset_text {n : Nesting} (hn : n.depth < n.limit) {r : Ruleset}
    (h : r.Readable (n.limit - (n.depth + 1))) {rest : List Char} {ts : List Token}
    (hts : TokensOf (r.text.toList ++ rest) ts) : (tryRuleset n ts).Reads (.ruleset r) rest := by
  obtain ⟨us, hr, hus⟩ := ruleset_text hn h hts
  rw [tryRuleset]
  rw [hr]
  exact ⟨us, rfl, rfl, hus⟩

theorem tryCharset_text {name : String} {rest : List Char} {ts : List Token}
    (hts : TokensOf (' ' :: (Written.string name.toList ++ ';' :: rest)) ts) :
    (tryCharset ts).Reads (.charset name) rest := by
  obtain ⟨us, hr, hus⟩ := charset_text hts
  rw [tryCharset]
  rw [hr]
  exact ⟨us, rfl, rfl, hus⟩

theorem tryImport_text {url : String} {names : List String} (h : ∀ name ∈ names, IsName name)
    {rest : List Char} {ts : List Token} (hts : TokensOf (' ' :: ((uriText url).toList ++
      ((importMediaText names).toList ++ ';' :: rest))) ts) :
    (tryImport ts).Reads (.importSheet url names) rest := by
  obtain ⟨us, hr, hus⟩ := importSheet_text h hts
  rw [tryImport]
  rw [hr]
  exact ⟨us, rfl, rfl, hus⟩

theorem tryPage_text {n : Nesting} (hn : n.depth < n.limit) {name pseudo : Option String}
    (hname : ∀ m, name = some m → IsName m) (hpseudo : ∀ p, pseudo = some p → IsName p)
    {ds : List Declaration} (h : ∀ d ∈ ds, d.Readable (n.limit - (n.depth + 1)))
    {rest : List Char} {ts : List Token} (hts : TokensOf (' ' :: ((pageText name pseudo).toList ++
      '\x7b' :: ((insideText ds).toList ++ ' ' :: '\x7d' :: rest))) ts) :
    (tryPage n ts).Reads (.page name pseudo ds) rest := by
  obtain ⟨us, hr, hus⟩ := page_text hn hname hpseudo h hts
  rw [tryPage]
  rw [hr]
  exact ⟨us, rfl, rfl, hus⟩

theorem tryFontFace_text {n : Nesting} (hn : n.depth < n.limit) {ds : List Declaration}
    (h : ∀ d ∈ ds, d.Readable (n.limit - (n.depth + 1))) {rest : List Char} {ts : List Token}
    (hts : TokensOf (' ' :: '\x7b' :: ((insideText ds).toList ++ ' ' :: '\x7d' :: rest)) ts) :
    (tryFontFace n ts).Reads (.fontFace ds) rest := by
  obtain ⟨loc, loc', us, rfl, hus⟩ := hts.openBrace
  obtain ⟨vs, hr, hvs⟩ := block_text hn h loc' hus
  have hblock : block n (skipTrivia (⟨.whitespace, loc⟩ :: ⟨.mark .openBrace, loc'⟩ :: us))
      = .ok ⟨ds, [], vs⟩ := hr
  rw [tryFontFace]
  rw [hblock]
  exact ⟨vs, rfl, rfl, hvs⟩

/-- **A statement with a keyword is read back** if what is behind the keyword is. -/
theorem tryStatement_atKeyword {n : Nesting} {phase : Phase} {s : Statement} {keyword : String}
    (hs : s.keyword? = some keyword) (hname : IsName keyword)
    (hident : Written.ident keyword.toList = keyword.toList) (hlower : keyword.toLower = keyword)
    {cs rest : List Char} (htext : s.text.toList ++ rest = '@' :: (keyword.toList ++ ' ' :: cs))
    (hread : ∀ ts, keyword? ts = some keyword → TokensOf (' ' :: cs) ts.tail →
      (tryStatement n phase ts).Reads s rest)
    {ts : List Token} (hts : TokensOf (s.text.toList ++ rest) ts) :
    (tryStatement n phase ts).Reads s rest ∧ keyword? ts = s.keyword? := by
  have hnext := @next?_atKeyword keyword.toList (' ' :: cs) hname.toList_ne_nil hname.2 rfl
  rw [hident, String.ofList_toList] at hnext
  rw [htext] at hts
  obtain ⟨loc, us, rfl, hus⟩ := hts.next hnext
  have hkeyword : keyword? (⟨.atKeyword keyword, loc⟩ :: us) = some keyword := by
    show some keyword.toLower = some keyword
    rw [hlower]
  exact ⟨hread _ hkeyword hus, hkeyword.trans hs.symm⟩

/-- **A statement is read back** where it may come, and it is reported as it was. -/
theorem tryStatement_text {n : Nesting} (hn : n.depth + 1 < n.limit) {s : Statement}
    (h : s.Readable (n.limit - n.depth)) {phase : Phase} (hp : s.mayCome phase = true)
    {rest : List Char} {ts : List Token} (hts : TokensOf (s.text.toList ++ rest) ts) :
    (tryStatement n phase ts).Reads s rest ∧ keyword? ts = s.keyword? := by
  have hlt : n.depth < n.limit := Nat.lt_of_succ_lt hn
  have hdeeper : n.limit - n.depth - 1 = n.limit - (n.depth + 1) := Nat.sub_sub n.limit n.depth 1
  cases s with
  | ruleset r =>
    have hr : r.Readable (n.limit - (n.depth + 1)) := hdeeper ▸ h
    have hread := tryRuleset_text hlt hr hts
    obtain ⟨us, hruleset, _⟩ := ruleset_text hlt hr hts
    obtain ⟨t, vs, rfl, ht⟩ := startsLink_of_ruleset hruleset
    have hkeyword : keyword? (t :: vs) = none := by
      unfold keyword?
      split
      · next heq =>
        cases heq
        cases ht
      · rfl
    rw [tryStatement]
    rw [hkeyword]
    exact ⟨hread, rfl⟩
  | charset name =>
    have hstart : phase = .start := of_decide_eq_true hp
    have htext : (Statement.charset name).text.toList ++ rest
        = '@' :: ("charset".toList ++ ' ' :: (Written.string name.toList ++ ';' :: rest)) := by
      simp [Statement.text, stringText]
    refine tryStatement_atKeyword rfl ⟨by decide, by decide⟩ (by decide) (by decide +kernel)
      htext (fun us hk hus => ?_) hts
    rw [tryStatement]
    rw [hk, if_pos hstart]
    exact tryCharset_text hus
  | importSheet url names =>
    have hbody : ¬phase = .body := of_decide_eq_true hp
    have htext : (Statement.importSheet url names).text.toList ++ rest
        = '@' :: ("import".toList ++ ' ' :: ((uriText url).toList ++
          ((importMediaText names).toList ++ ';' :: rest))) := by
      simp [Statement.text, importMediaText]
    refine tryStatement_atKeyword rfl ⟨by decide, by decide⟩ (by decide) (by decide +kernel)
      htext (fun us hk hus => ?_) hts
    rw [tryStatement]
    rw [hk, if_neg hbody]
    exact tryImport_text h hus
  | media names rules =>
    obtain ⟨hne, hnames, hrules⟩ := h
    rw [Nat.sub_sub] at hrules
    have htext : (Statement.media names rules).text.toList ++ rest
        = '@' :: ("media".toList ++ ' ' :: ((mediaText names).toList ++
          ' ' :: '\x7b' :: '\n' :: ((rulesText rules).toList ++ '\x7d' :: rest))) := by
      simp [Statement.text, rulesText]
    refine tryStatement_atKeyword rfl ⟨by decide, by decide⟩ (by decide) (by decide +kernel)
      htext (fun us hk hus => ?_) hts
    rw [tryStatement]
    rw [hk]
    exact tryMedia_text hn hne hnames hrules hus
  | page name pseudo ds =>
    obtain ⟨hname, hpseudo, hds⟩ := h
    rw [hdeeper] at hds
    have htext : (Statement.page name pseudo ds).text.toList ++ rest
        = '@' :: ("page".toList ++ ' ' :: ((pageText name pseudo).toList ++
          '\x7b' :: ((insideText ds).toList ++ ' ' :: '\x7d' :: rest))) := by
      rw [← blockText_toList]
      simp [Statement.text]
    refine tryStatement_atKeyword rfl ⟨by decide, by decide⟩ (by decide) (by decide +kernel)
      htext (fun us hk hus => ?_) hts
    rw [tryStatement]
    rw [hk]
    exact tryPage_text hlt hname hpseudo hds hus
  | fontFace ds =>
    have hds : ∀ d ∈ ds, d.Readable (n.limit - (n.depth + 1)) := hdeeper ▸ h
    have htext : (Statement.fontFace ds).text.toList ++ rest
        = '@' :: ("font-face".toList ++ ' ' ::
          '\x7b' :: ((insideText ds).toList ++ ' ' :: '\x7d' :: rest)) := by
      rw [← blockText_toList]
      simp [Statement.text]
    refine tryStatement_atKeyword rfl ⟨by decide, by decide⟩ (by decide) (by decide +kernel)
      htext (fun us hk hus => ?_) hts
    rw [tryStatement]
    rw [hk]
    exact tryFontFace_text hlt hds hus

def startsStatement : Lexeme → Bool
  | .atKeyword _ => true
  | l => startsLink l

theorem startsStatement_of_tryStatement {n : Nesting} {phase : Phase} {ts us : List Token}
    (h : (tryStatement n phase ts).result = .ok us) :
    ∃ t vs, ts = t :: vs ∧ startsStatement t.lexeme = true := by
  cases hk : keyword? ts with
  | some name =>
    unfold keyword? at hk
    split at hk
    · exact ⟨_, _, rfl, rfl⟩
    · cases hk
  | none =>
    rw [tryStatement, tryRuleset] at h
    rw [hk] at h
    dsimp only at h
    split at h
    · cases h
    · next r hr =>
      obtain ⟨t, vs, rfl, ht⟩ := startsLink_of_ruleset hr
      refine ⟨t, vs, rfl, ?_⟩
      unfold startsStatement
      split
      · rfl
      · exact ht

theorem startsStatement_ne {l : Lexeme} (h : startsStatement l = true) :
    l.isTrivia = false ∧ l.isMark .openComment = false ∧ l.isMark .closeComment = false := by
  cases l with
  | mark m => cases m <;> first | exact ⟨rfl, rfl, rfl⟩ | cases h
  | _ => first | exact ⟨rfl, rfl, rfl⟩ | cases h

theorem skipBetween_of_startsStatement {t : Token} (h : startsStatement t.lexeme = true)
    (us : List Token) : Parser.skipBetween (t :: us) = t :: us := by
  obtain ⟨h1, h2, h3⟩ := startsStatement_ne h
  exact List.dropWhile_cons_of_neg (by simp [h1, h2, h3])

end Grammar

namespace Parser

/-! ### Sheets -/

/-- The text of statements, each with a line break behind it. -/
def statementsText (ss : List Statement) : String :=
  String.join (ss.map fun s => s.text ++ "\n")

theorem statements_congr {options : ParseOptions} {stop : Location} {phase : Phase}
    {ts us : List Token} (h : skipBetween ts = skipBetween us) :
    statements options stop phase ts = statements options stop phase us := by
  rw [statements_eq, statements_eq options stop phase us, h]

theorem dropWhile_isBlank_statementsText {n : Nesting} (hn : n.depth + 1 < n.limit)
    {ss : List Statement} (h : ∀ s ∈ ss, s.Readable (n.limit - n.depth)) {phase : Phase}
    (ho : Statement.Ordered phase ss) :
    (statementsText ss).toList.dropWhile isBlank = (statementsText ss).toList := by
  cases ss with
  | nil => rfl
  | cons s ss =>
    refine TokensOf.dropWhile_isBlank fun us hus => ?_
    have htext : (statementsText (s :: ss)).toList
        = s.text.toList ++ '\n' :: (statementsText ss).toList := by
      simp [statementsText]
    rw [htext] at hus
    obtain ⟨⟨vs, hresult, _⟩, _⟩ := Grammar.tryStatement_text hn (h s (by simp)) ho.1 hus
    obtain ⟨t, ws, rfl, ht⟩ := Grammar.startsStatement_of_tryStatement hresult
    refine ⟨t, ws, rfl, ?_⟩
    intro hw
    rw [hw] at ht
    cases ht

/-- **The statements of a sheet are read back**, and nothing is skipped. -/
theorem statements_text {options : ParseOptions} (hn : 1 < options.maxNesting) (stop : Location)
    {ss : List Statement} (h : ∀ s ∈ ss, s.Readable options.maxNesting) {phase : Phase}
    (ho : Statement.Ordered phase ss) {ts : List Token}
    (hts : TokensOf (statementsText ss).toList ts) :
    statements options stop phase ts = ⟨ss.flatMap Statement.events, .ok (), [], []⟩ := by
  induction ss generalizing phase ts with
  | nil =>
    have hnil : ts = [] := hts.eq_nil
    subst hnil
    rw [statements_eq]
    rfl
  | cons s ss ih =>
    have hss : ∀ k ∈ ss, k.Readable options.maxNesting := fun k hk => h k (by simp [hk])
    have htext : (statementsText (s :: ss)).toList
        = s.text.toList ++ '\n' :: (statementsText ss).toList := by
      simp [statementsText]
    rw [htext] at hts
    obtain ⟨⟨us, hresult, hevents, hus⟩, hkeyword⟩ :=
      Grammar.tryStatement_text (n := ⟨options.maxNesting, 0⟩) hn (h s (by simp)) ho.1 hts
    obtain ⟨t, vs, rfl, ht⟩ := Grammar.startsStatement_of_tryStatement hresult
    obtain ⟨loc, ws, rfl, hws⟩ := hus.blank rfl
      (dropWhile_isBlank_statementsText (n := ⟨options.maxNesting, 0⟩) hn hss ho.2)
    have hskip : skipBetween (⟨.whitespace, loc⟩ :: ws) = skipBetween ws := rfl
    have hmore : statements options stop (nextPhase phase s.keyword?)
        (⟨.whitespace, loc⟩ :: ws) = ⟨ss.flatMap Statement.events, .ok (), [], []⟩ :=
      (statements_congr hskip).trans (ih hss ho.2 hws)
    rw [statements_eq, Grammar.skipBetween_of_startsStatement ht]
    dsimp only
    rw [hresult]
    dsimp only
    rw [hkeyword, hmore, hevents]
    rfl

end Parser

/-- **A readable sheet is read back from its text.** -/
theorem Sheet.parse_text_of_readable {s : Sheet} (h : ∀ t ∈ s.statements, t.Readable 64)
    (ho : Statement.Ordered .start s.statements) : Sheet.parse s.text = .ok s := by
  have hts : TokensOf (Parser.statementsText s.statements).toList (scan s.text) :=
    tokensOf_scan s.text
  have hread := @Parser.statements_text {} (by decide) (endOf s.text) _ h _ ho _ hts
  rw [Sheet.parse, Sheet.parseWith, Sheet.parseTokens, Parser.sheet, Parser.ofTokens]
  dsimp only
  rw [hread]
  dsimp only
  rw [Sheet.ofEvents_statements]

end Css2
