import Css2.Proofs.Grammar.Skipping
import Css2.Proofs.Sheet.Invariant

/-!
# Malformed statements inside of `@media`

Between the rulesets of an `@media` there may be tokens that are none.  If their brackets match,
then a scan of what stands outside of brackets tells what becomes of the `@media`
(`Grammar.spared`).  If the scan ends between two statements then all rulesets are read, those in
front of the tokens and those behind them.  If it ends inside of a statement then that statement
goes on into the next ruleset, which may be lost, but nothing else is.  Where there is no next
ruleset, or where the scan fails, the whole `@media` is dropped, with the rulesets that were read
already (`Sheet.parseTokens_media`).

The reading of the inside goes statement by statement.  Whether one of them is read as a ruleset or
skipped, it ends where the core grammar ends it (`Finds.statement`), so that it is enough to follow
the core grammar.  It is not enough where the core grammar fails: there no ruleset can be read
either, since a ruleset has only plain tokens and pairs in front of its block.
-/

namespace Css2

namespace Grammar

/-! ### Reading the inside -/

/-- The inside of `@media` at `ts` has the rulesets `found`, and then those that the inside at `us`
has. -/
structure Finds (n : Nesting) (ts : List Token) (found : List Ruleset) (us : List Token) :
    Prop where
  rules : (mediaBody n ts).rules = found ++ (mediaBody n us).rules
  result : (mediaBody n ts).result = (mediaBody n us).result

theorem Finds.refl (n : Nesting) (ts : List Token) : Finds n ts [] ts :=
  ⟨rfl, rfl⟩

theorem Finds.trans {n : Nesting} {ts us vs : List Token} {found more : List Ruleset}
    (h : Finds n ts found us) (h' : Finds n us more vs) : Finds n ts (found ++ more) vs :=
  ⟨by rw [h.rules, h'.rules, List.append_assoc], h.result.trans h'.result⟩

theorem Finds.trivia {n : Nesting} {t : Token} (h : t.lexeme.isTrivia = true) (ts : List Token) :
    Finds n (t :: ts) [] ts := by
  have hsame : mediaBody n (t :: ts) = mediaBody n ts := by
    rw [mediaBody_eq, mediaBody_eq, skipTrivia_cons ts h]
  exact ⟨by rw [hsame]; rfl, by rw [hsame]⟩

theorem Finds.trivias {n : Nesting} {ts : List Token} (h : ∀ t ∈ ts, t.lexeme.isTrivia = true)
    (us : List Token) : Finds n (ts ++ us) [] us := by
  induction ts with
  | nil => exact .refl n us
  | cons t ts ih =>
    exact (Finds.trivia (h t List.mem_cons_self) _).trans
      (ih fun u hu => h u (List.mem_cons_of_mem t hu))

theorem OpensBlock.not_closeBrace {t : Token} {ts : List Token} (h : OpensBlock (t :: ts)) :
    t.lexeme.isMark .closeBrace = false := by
  cases hc : t.lexeme.isMark .closeBrace with
  | false => rfl
  | true =>
    obtain ⟨l, loc⟩ := t
    obtain rfl := isMark_iff.1 hc
    cases (h.token rfl).1

theorem ruleset_skipTail {n m : Nesting} {atRule : Bool} {ts r : List Token} {x : Lenient Ruleset}
    (hx : ruleset n ts = .ok x) (h : skipTail m atRule ts = .ok r) : x.rest = r := by
  rw [ruleset] at hx
  obtain ⟨⟨s, us⟩, hs, hx⟩ := bind_eq_ok hx
  obtain ⟨b, hb, hx⟩ := bind_eq_ok hx
  cases hx
  exact block_skipTail ((selector_stretch hs).skipTail h) hb

theorem ruleset_skipStatement {n m : Nesting} {ts r : List Token} {x : Lenient Ruleset}
    (hx : ruleset n ts = .ok x) (h : skipStatement m ts = .ok r) : x.rest = r := by
  refine ruleset_skipTail hx (skipStatement_other ?_ h)
  have hopens := ruleset_opensBlock hx
  unfold keyword?
  split
  · cases (hopens.token rfl).1
  · rfl

/-- **A statement inside of `@media` ends where the core grammar ends it**, be it a ruleset or
not. -/
theorem Finds.statement {n : Nesting} {t : Token} {ts rest : List Token}
    (ht : t.lexeme.isTrivia = false) (hc : t.lexeme.isMark .closeBrace = false)
    (h : skipStatement n (t :: ts) = .ok rest) : ∃ found, Finds n (t :: ts) found rest := by
  have heq := mediaBody_eq n (t :: ts)
  rw [skipTrivia_cons_self ts ht] at heq
  simp only [hc, Bool.false_eq_true, if_false] at heq
  cases hr : ruleset n (t :: ts) with
  | ok x =>
    rw [hr] at heq
    dsimp only at heq
    rw [ruleset_skipStatement hr h] at heq
    exact ⟨[x.value], by rw [heq]; rfl, by rw [heq]⟩
  | error e =>
    rw [hr, h] at heq
    exact ⟨[], by rw [heq]; rfl, by rw [heq]⟩

/-- A statement that can be neither read nor skipped ends the reading of `@media`. -/
theorem mediaBody_stuck {n : Nesting} {t : Token} {ts : List Token} {e : Failure}
    (ht : t.lexeme.isTrivia = false) (hc : t.lexeme.isMark .closeBrace = false)
    (hopens : ¬OpensBlock (t :: ts)) (h : skipStatement n (t :: ts) = .error e) :
    (mediaBody n (t :: ts)).result = .error e := by
  rw [mediaBody_eq, skipTrivia_cons_self ts ht]
  simp only [hc, Bool.false_eq_true, if_false]
  cases hr : ruleset n (t :: ts) with
  | ok x => exact absurd (ruleset_opensBlock hr) hopens
  | error e' =>
    dsimp only
    rw [h]

/-! ### Matched tokens inside of `@media` -/

theorem Matched.skipStatement {n : Nesting} {t : Token} {ts : List Token} (h : Matched n (t :: ts))
    (ht : t.lexeme.isTrivia = false) : ∃ atRule,
      Skips n atRule (Grammar.skipStatement n) (t :: ts) (leave .between (t :: ts)) := by
  by_cases hat : ∃ name, t.lexeme = .atKeyword name
  · obtain ⟨name, hname⟩ := hat
    obtain ⟨l, loc⟩ := t
    obtain rfl : l = .atKeyword name := hname
    cases h with
    | token ho _ hts =>
      rw [leave_token ho]
      refine ⟨true, (hts.skipTail true).before (fun _ => rfl) (fun more hopens => ?_) ?_⟩
      · exact (hopens.token ho).2
      · exact Nat.le_succ _
    | pair ho => cases ho
  · rw [leave_between ht fun name hname => hat ⟨name, hname⟩]
    refine ⟨false, (h.skipTail false).before (fun more => ?_) (fun _ hopens => hopens) ?_⟩
    · obtain ⟨l, loc⟩ := t
      cases l with
      | atKeyword name => exact absurd ⟨name, rfl⟩ hat
      | _ => rfl
    · exact Nat.le_refl _

/-- A statement that goes on behind the tokens `us`. -/
structure Unfinished (n : Nesting) (atRule : Bool) (us : List Token) : Prop where
  begins : ∃ t ts, us = t :: ts ∧ t.lexeme.isTrivia = false ∧ t.lexeme.isMark .closeBrace = false
  skip : ∀ more, skipStatement n (us ++ more) = skipTail n atRule more
  opens : ∀ more, OpensBlock (us ++ more) → OpensBlock more

/-- What the reading of the inside of `@media` comes to over the tokens `ts`, and where the scan is
then. -/
inductive Reads (n : Nesting) (ts : List Token) : Option Spot → Prop
  | between : (∀ more, ∃ found, Finds n (ts ++ more) found more) → Reads n ts (some .between)
  | within {atRule : Bool} {us : List Token} :
      (∀ more, ∃ found, Finds n (ts ++ more) found (us ++ more)) → Unfinished n atRule us →
      Reads n ts (some (.within atRule))
  | stuck : (∀ more, ∃ e, (mediaBody n (ts ++ more)).result = .error e) → Reads n ts none

theorem Reads.before {n : Nesting} {ts us : List Token} {o : Option Spot} (h : Reads n us o)
    (hfinds : ∀ more, ∃ found, Finds n (ts ++ more) found (us ++ more)) : Reads n ts o := by
  cases h with
  | between hend =>
    refine .between fun more => ?_
    obtain ⟨found, hfound⟩ := hfinds more
    obtain ⟨found', hfound'⟩ := hend more
    exact ⟨found ++ found', hfound.trans hfound'⟩
  | within hend hun =>
    refine .within (fun more => ?_) hun
    obtain ⟨found, hfound⟩ := hfinds more
    obtain ⟨found', hfound'⟩ := hend more
    exact ⟨found ++ found', hfound.trans hfound'⟩
  | stuck hend =>
    refine .stuck fun more => ?_
    obtain ⟨found, hfound⟩ := hfinds more
    obtain ⟨e, he⟩ := hend more
    exact ⟨e, hfound.result.trans he⟩

theorem Matched.not_closeBrace {n : Nesting} {t : Token} {ts : List Token}
    (h : Matched n (t :: ts)) : t.lexeme.isMark .closeBrace = false := by
  cases h with
  | token _ hc => exact isMark_of_closes hc rfl
  | pair ho => exact isMark_of_closerOf? ho rfl

theorem Matched.of_trivia_cons {n : Nesting} {t : Token} {ts : List Token}
    (h : Matched n (t :: ts)) (ht : t.lexeme.isTrivia = true) : Matched n ts := by
  cases h with
  | token _ _ hts => exact hts
  | pair ho => cases ho.symm.trans (isTrivia_closes ht).1

/-- **The reading of matched tokens inside of `@media` keeps pace with the scan.** -/
theorem Matched.reads {n : Nesting} {ts : List Token} (h : Matched n ts) :
    Reads n ts (leave .between ts) := by
  induction hlen : ts.length using Nat.strongRecOn generalizing ts with
  | ind len ih =>
    subst hlen
    cases ts with
    | nil => exact .between fun more => ⟨[], .refl n more⟩
    | cons t ts =>
      cases ht : t.lexeme.isTrivia with
      | true =>
        rw [leave_trivia ht]
        exact (ih ts.length (Nat.lt_succ_self _) (h.of_trivia_cons ht) rfl).before
          fun more => ⟨[], .trivia ht _⟩
      | false =>
        have hc := h.not_closeBrace
        obtain ⟨atRule, hskips⟩ := h.skipStatement ht
        generalize leave .between (t :: ts) = o at hskips ⊢
        cases hskips with
        | ended hrest hlt hend =>
          exact (ih _ hlt hrest rfl).before fun more => Finds.statement ht hc (hend more)
        | unfinished hend hopens =>
          exact .within (fun more => ⟨[], .refl n _⟩) ⟨⟨t, ts, rfl, ht, hc⟩, hend, hopens⟩
        | stuck hend hopens =>
          refine .stuck fun more => ?_
          obtain ⟨e, he⟩ := hend more
          exact ⟨e, mediaBody_stuck ht hc (hopens more) he⟩

/-! ### Rulesets -/

/-- The tokens are a ruleset, up to the brace that closes its block. -/
structure IsRuleset (n : Nesting) (r : Ruleset) (ts : List Token) : Prop where
  matched : Matched n ts
  read : ∃ skipped, ruleset n (skipTrivia ts) = .ok ⟨r, skipped, []⟩

/-- The tokens are rulesets, with trivia around them. -/
inductive Rulesets (n : Nesting) : List Ruleset → List Token → Prop
  | nil {ts : List Token} : (∀ t ∈ ts, t.lexeme.isTrivia = true) → Rulesets n [] ts
  | cons {r : Ruleset} {rs : List Ruleset} {ts us : List Token} : IsRuleset n r ts →
      Rulesets n rs us → Rulesets n (r :: rs) (ts ++ us)

theorem Rulesets.none (n : Nesting) : Rulesets n [] [] :=
  .nil (by simp)

theorem Rulesets.matched {n : Nesting} {rs : List Ruleset} {ts : List Token}
    (h : Rulesets n rs ts) : Matched n ts := by
  induction h with
  | nil ht => exact .of_trivia ht
  | cons hr _ ih => exact hr.matched.append ih

theorem not_opensBlock_nil : ¬OpensBlock [] := by
  rintro ⟨loc, us, h⟩
  cases h

/-- **A statement that goes on into a ruleset ends with it.** -/
theorem IsRuleset.skipTail {n : Nesting} {r : Ruleset} {ts : List Token} (h : IsRuleset n r ts)
    (atRule : Bool) (more : List Token) : Grammar.skipTail n atRule (ts ++ more) = .ok more := by
  have hfalse (more : List Token) : Grammar.skipTail n false (ts ++ more) = .ok more := by
    obtain ⟨skipped, hr⟩ := h.read
    obtain ⟨loc, us, hstretch⟩ := ruleset_opensBlock hr
    have hopens : OpensBlock (ts ++ []) := by
      rw [List.append_nil]
      exact ⟨loc, us, (skipTrivia_stretch ts).trans hstretch⟩
    have hskips := h.matched.skipTail false
    generalize leave (.within false) ts = o at hskips
    cases hskips with
    | @ended rest _ _ hend =>
      have hshort := hend []
      rw [List.append_nil, List.append_nil] at hshort
      have hnil := ruleset_skipTail hr ((skipTrivia_stretch ts).skipTail hshort)
      rw [hend more, ← hnil]
      rfl
    | unfinished _ hblock => exact absurd (hblock [] hopens) not_opensBlock_nil
    | stuck _ hblock => exact absurd hopens (hblock [])
  cases atRule with
  | false => exact hfalse more
  | true => exact skipTail_atRule (hfalse more)

theorem IsRuleset.hasStop {n : Nesting} {r : Ruleset} {ts : List Token} (h : IsRuleset n r ts) :
    HasStop ts := by
  have hbehind : Behind (ts ++ [⟨.whitespace, .start⟩]) ([] ++ [⟨.whitespace, .start⟩]) :=
    skipTail_behind (h.skipTail false _) (by simp)
  exact hbehind.hasStop

/-- **A ruleset is read with anything behind it.** -/
theorem IsRuleset.ruleset_append {n : Nesting} {r : Ruleset} {ts : List Token}
    (h : IsRuleset n r ts) (more : List Token) :
    ∃ skipped, ruleset n (skipTrivia ts ++ more) = .ok ⟨r, skipped, more⟩ := by
  obtain ⟨skipped, hr⟩ := h.read
  refine ⟨skipped, ?_⟩
  by_cases hm : more = []
  · rw [hm, List.append_nil]
    exact hr
  · have hstop := h.hasStop.skipTrivia
    rw [Grammar.ruleset_append hm hstop, hr]
    · rfl
    · intro x hx
      have hskip := (skipTrivia_stretch (ts ++ more)).skipTail (h.skipTail false more)
      rw [skipTrivia_append h.hasStop] at hskip
      exact ⟨[], ruleset_skipTail hx hskip⟩

theorem IsRuleset.finds {n : Nesting} {r : Ruleset} {ts : List Token} (h : IsRuleset n r ts)
    (more : List Token) : Finds n (ts ++ more) [r] more := by
  obtain ⟨skipped, hr⟩ := h.ruleset_append more
  have heq := mediaBody_eq n (ts ++ more)
  rw [skipTrivia_append h.hasStop] at heq
  cases hs : skipTrivia ts with
  | nil => exact absurd hs h.hasStop.skipTrivia.ne_nil
  | cons t us =>
    rw [hs, List.cons_append] at hr heq
    simp only [(ruleset_opensBlock hr).not_closeBrace, hr, Bool.false_eq_true, if_false] at heq
    exact ⟨by rw [heq]; rfl, by rw [heq]⟩

theorem Rulesets.finds {n : Nesting} {rs : List Ruleset} {ts : List Token} (h : Rulesets n rs ts)
    (more : List Token) : Finds n (ts ++ more) rs more := by
  induction h with
  | nil ht => exact .trivias ht more
  | cons hr _ ih =>
    rw [List.append_assoc]
    exact (hr.finds _).trans ih

/-! ### What is read of an `@media` -/

/-- The rulesets behind the tokens `junk` that are read as they stand, of `rs`, if the inside of
`@media` can be read to its end: all of them, or all but the first one if a statement goes on into
that. -/
def spared (junk : List Token) (rs : List Ruleset) : Option (List Ruleset) :=
  match leave .between junk with
  | some .between => some rs
  | some (.within _) => rs.tail?
  | none => none

theorem mediaBody_closed (n : Nesting) (loc : Location) (ts : List Token) :
    mediaBody n (⟨.mark .closeBrace, loc⟩ :: ts) = ⟨[], [], none, .ok ts⟩ := by
  rw [mediaBody_eq]
  rfl

theorem not_opensBlock_closed {ts : List Token} (h : ∀ t ∈ ts, t.lexeme.isTrivia = true)
    (loc : Location) (us : List Token) : ¬OpensBlock (ts ++ ⟨.mark .closeBrace, loc⟩ :: us) := by
  induction ts with
  | nil =>
    intro hopens
    cases (hopens.token rfl).1
  | cons t ts ih =>
    intro hopens
    have ho := (isTrivia_closes (h t List.mem_cons_self)).1
    exact ih (fun u hu => h u (List.mem_cons_of_mem t hu)) (hopens.token ho).2

theorem skipTail_closed {n : Nesting} {atRule : Bool} {ts : List Token}
    (h : ∀ t ∈ ts, t.lexeme.isTrivia = true) (loc : Location) (us : List Token) :
    ∃ e, skipTail n atRule (ts ++ ⟨.mark .closeBrace, loc⟩ :: us) = .error e := by
  induction ts with
  | nil =>
    rw [List.nil_append, skipTail_token rfl]
    cases atRule <;> exact ⟨_, rfl⟩
  | cons t ts ih =>
    have ht := h t List.mem_cons_self
    have hp := isPlain_of_isTrivia ht
    rw [List.cons_append, skipTail_token (isTrivia_closes ht).1]
    simp only [isMark_semicolon_of_isPlain hp, hp, Bool.and_false, Bool.false_eq_true, if_false,
      if_true]
    exact ih fun u hu => h u (List.mem_cons_of_mem t hu)

section

variable {n : Nesting} {as bs : List Ruleset} {fore junk rear after : List Token} {loc : Location}

/-- A statement that goes on into the first of some rulesets costs that one at most. -/
theorem Unfinished.finds {atRule : Bool} {us ts : List Token} {r : Ruleset}
    (h : Unfinished n atRule us) (hr : IsRuleset n r ts) (more : List Token) :
    ∃ found, Finds n (us ++ (ts ++ more)) found more := by
  have hskip := (h.skip (ts ++ more)).trans (hr.skipTail atRule more)
  obtain ⟨t, vs, rfl, ht, hc⟩ := h.begins
  exact Finds.statement ht hc hskip

theorem Unfinished.stuck {atRule : Bool} {us : List Token} (h : Unfinished n atRule us)
    (hrear : ∀ t ∈ rear, t.lexeme.isTrivia = true) :
    ∃ e, (mediaBody n (us ++ (rear ++ ⟨.mark .closeBrace, loc⟩ :: after))).result = .error e := by
  obtain ⟨e, he⟩ := @skipTail_closed n atRule rear hrear loc after
  have hskip := (h.skip _).trans he
  have hopens := fun hopens => not_opensBlock_closed hrear loc after (h.opens _ hopens)
  obtain ⟨t, vs, rfl, ht, hc⟩ := h.begins
  exact ⟨e, mediaBody_stuck ht hc hopens hskip⟩

/-- **What is read inside of `@media`**, where tokens whose brackets match stand between
rulesets. -/
theorem mediaBody_spared (has : Rulesets n as fore) (hjunk : Matched n junk)
    (hbs : Rulesets n bs rear) :
    let body := mediaBody n (fore ++ (junk ++ (rear ++ ⟨.mark .closeBrace, loc⟩ :: after)))
    (∀ kept, spared junk bs = some kept →
      ∃ found, body.rules = as ++ (found ++ kept) ∧ body.result = .ok after) ∧
    (spared junk bs = none → ∃ e, body.result = .error e) := by
  intro body
  have hfore : Finds n _ as _ := has.finds (junk ++ (rear ++ ⟨.mark .closeBrace, loc⟩ :: after))
  -- behind rulesets there is nothing but the brace that closes the block
  have hend {found kept : List Ruleset} {us : List Token}
      (h : Finds n (junk ++ (rear ++ ⟨.mark .closeBrace, loc⟩ :: after)) found
        (us ++ ⟨.mark .closeBrace, loc⟩ :: after)) (hkept : Rulesets n kept us) :
      body.rules = as ++ (found ++ kept) ∧ body.result = .ok after := by
    have hall := hfore.trans (h.trans (hkept.finds (⟨.mark .closeBrace, loc⟩ :: after)))
    refine ⟨hall.rules.trans ?_, hall.result.trans ?_⟩
    · rw [mediaBody_closed, List.append_nil]
    · rw [mediaBody_closed]
  have hreads := hjunk.reads
  unfold spared
  generalize leave .between junk = o at hreads
  cases hreads with
  | between hfinds =>
    refine ⟨fun kept hkept => ?_, nofun⟩
    cases hkept
    obtain ⟨found, hfound⟩ := hfinds (rear ++ ⟨.mark .closeBrace, loc⟩ :: after)
    exact ⟨found, hend hfound hbs⟩
  | within hfinds hun =>
    obtain ⟨found, hfound⟩ := hfinds (rear ++ ⟨.mark .closeBrace, loc⟩ :: after)
    cases hbs with
    | nil hrear =>
      refine ⟨nofun, fun _ => ?_⟩
      obtain ⟨e, he⟩ := hun.stuck hrear
      exact ⟨e, (hfore.trans hfound).result.trans he⟩
    | @cons r rs ts us hr hrs =>
      refine ⟨fun kept hkept => ?_, nofun⟩
      cases hkept
      obtain ⟨found', hfound'⟩ := hun.finds hr (us ++ ⟨.mark .closeBrace, loc⟩ :: after)
      rw [← List.append_assoc ts] at hfound'
      exact ⟨found ++ found', hend (hfound.trans hfound') hrs⟩
  | stuck hstuck =>
    refine ⟨nofun, fun _ => ?_⟩
    obtain ⟨e, he⟩ := hstuck (rear ++ ⟨.mark .closeBrace, loc⟩ :: after)
    exact ⟨e, hfore.result.trans he⟩

/-- **What is read of an `@media`**, where tokens whose brackets match stand between its
rulesets. -/
theorem tryMedia_spared {m : Nesting} {ts : List Token} {names : List String}
    (hhead : mediaHead m ts
      = .ok (names, n, fore ++ (junk ++ (rear ++ ⟨.mark .closeBrace, loc⟩ :: after))))
    (has : Rulesets n as fore) (hjunk : Matched n junk) (hbs : Rulesets n bs rear) :
    (∀ kept, spared junk bs = some kept → ∃ found, (tryMedia m ts).result = .ok after ∧
      (tryMedia m ts).events = (Statement.media names (as ++ (found ++ kept))).events) ∧
    (spared junk bs = none → ∃ e, (tryMedia m ts).result = .error e) := by
  obtain ⟨hkept, hnone⟩ := @mediaBody_spared n as bs fore junk rear after loc has hjunk hbs
  rw [tryMedia, hhead]
  dsimp only
  refine ⟨fun kept hspared => ?_, fun hspared => ?_⟩
  · obtain ⟨found, hrules, hresult⟩ := hkept kept hspared
    rw [hresult, hrules]
    exact ⟨found, rfl, rfl⟩
  · obtain ⟨e, he⟩ := hnone hspared
    rw [he]
    exact ⟨e, rfl⟩

/-- If the `@media` is skipped, then up to its closing brace. -/
theorem mediaHead_skipTail {m k : Nesting} {ts r : List Token} {names : List String}
    (hhead : mediaHead m ts
      = .ok (names, n, fore ++ (junk ++ (rear ++ ⟨.mark .closeBrace, loc⟩ :: after))))
    (has : Rulesets n as fore) (hjunk : Matched n junk) (hbs : Rulesets n bs rear)
    (h : skipTail k true ts = .ok r) : r = after := by
  obtain ⟨d, hd⟩ := mediaHead_contents hhead h
  refine contents_agree (n := d) (m := n) rfl hd ?_
  rw [has.matched.contents rfl, hjunk.contents rfl, hbs.matched.contents rfl]
  exact contents_mark n _ loc after

theorem tryStatement_of_media (m : Nesting) (phase : Phase) {ts : List Token}
    (h : keyword? ts = some "media") : tryStatement m phase ts = tryMedia m ts.tail := by
  rw [tryStatement, h]
  rfl

end

end Grammar

/-! ### Sheets -/

namespace Parser

open Protocol

theorem Reaches.accounts {options : ParseOptions} {stop : Location} {ts rest : List Token}
    {events : List Event} {phase : Phase} (h : Reaches options stop ts events phase rest) :
    ∃ ss, Accounts events ss := by
  have hkeeps : Keeps options fun _ _ => True :=
    { start := trivial
      read := fun _ hr => by
        obtain ⟨s, hs⟩ := Grammar.exists_statement hr
        exact ⟨s, hs, trivial⟩
      skipped := fun _ _ => trivial }
  obtain ⟨ss, hss, -⟩ := hkeeps.reaches h
  exact ⟨ss, hss⟩

end Parser

namespace Sheet

open Protocol

theorem ofEvents_accounts {es : List Event} {ss : List Statement} (h : Accounts es ss) :
    ofEvents (.startDocument :: es) = ⟨ss⟩ := by
  rw [← ofEvents_document]
  exact (Account.complete h).ofEvents

section

variable {options : ParseOptions} {stop : Location} {ts rest after : List Token}
  {events : List Event} {phase : Phase} {ss : List Statement}

/-- A statement that the loop reads is built behind those before it, and what follows it is built
behind that. -/
theorem parseTokens_read (h : Parser.Reaches options stop ts events phase rest)
    (hss : Accounts events ss) (hs : Parser.skipBetween rest ≠ []) {s : Statement}
    (hr : (Grammar.tryStatement ⟨options.maxNesting, 0⟩ phase (Parser.skipBetween rest)).result
      = .ok after)
    (hevents : (Grammar.tryStatement ⟨options.maxNesting, 0⟩ phase (Parser.skipBetween rest)).events
      = s.events) :
    (∃ more, (builtBy (parseTokens options ts stop)).statements = ss ++ s :: more) ∧
      (after = [] → parseTokens options ts stop = .ok ⟨ss ++ [s]⟩) := by
  obtain ⟨t, tail, htail⟩ := List.exists_cons_of_ne_nil hs
  rw [htail] at hr hevents
  have hreach := h.read htail hr
  rw [hevents] at hreach
  have hall : Accounts (events ++ s.events) (ss ++ [s]) := by
    have hone := hss.append (.statement s .nil)
    rwa [List.append_nil] at hone
  refine ⟨?_, fun hafter => ?_⟩
  · have hprefix := prefix_ofEvents (.startDocument :: (events ++ s.events))
      (Parser.statements options stop (Parser.nextPhase phase (Grammar.keyword? (t :: tail)))
        after).events
    rw [ofEvents_accounts hall] at hprefix
    obtain ⟨more, hmore⟩ := hprefix
    rw [List.append_assoc] at hmore
    rw [builtBy_parseTokens, hreach.statements_eq]
    exact ⟨more, hmore.symm⟩
  · subst hafter
    have hend := hreach.statements_of_ended rfl
    rw [parseTokens_of_ok (by rw [hend]), hend, ofEvents_accounts hall]

/-- A statement at the end of the text that the loop cannot read is not built. -/
theorem parseTokens_dropped (h : Parser.Reaches options stop ts events phase rest)
    (hss : Accounts events ss) (hs : Parser.skipBetween rest ≠ []) {e : Failure}
    (hr : (Grammar.tryStatement ⟨options.maxNesting, 0⟩ phase (Parser.skipBetween rest)).result
      = .error e)
    (hend : ∀ r, Grammar.skipStatement ⟨options.maxNesting, 0⟩ (Parser.skipBetween rest) = .ok r →
      r = []) :
    (builtBy (parseTokens options ts stop)).statements = ss := by
  obtain ⟨t, tail, htail⟩ := List.exists_cons_of_ne_nil hs
  rw [htail] at hr hend
  have habandoned := reported_tryStatement ⟨options.maxNesting, 0⟩ phase (t :: tail)
  rw [Reported, hr] at habandoned
  rw [builtBy_parseTokens]
  by_cases hskip : options.forwardCompatible = true ∧
      ∃ r, Grammar.skipStatement ⟨options.maxNesting, 0⟩ (t :: tail) = .ok r
  · obtain ⟨hf, r, hk⟩ := hskip
    obtain rfl := hend r hk
    have hall := hss.append (.rejected (e.toError stop) habandoned .nil)
    rw [(h.skipped htail hr hf hk).statements_of_ended rfl, ofEvents_accounts hall]
    exact List.append_nil ss
  · have hstuck : Parser.Stuck options phase (t :: tail) := by
      refine ⟨e, hr, fun hf => ?_⟩
      cases hk : Grammar.skipStatement ⟨options.maxNesting, 0⟩ (t :: tail) with
      | ok r => exact absurd ⟨hf, r, hk⟩ hskip
      | error e' => exact ⟨e', rfl⟩
    obtain ⟨cause, notes, hbroken⟩ := hstuck.statements_eq htail stop
    rw [h.statements_eq, hbroken]
    exact congrArg Sheet.statements
      ((ofEvents_abandoned habandoned _).trans (ofEvents_accounts hss))

/-- **What becomes of an `@media` with malformed statements in it.**  Wherever the loop over the
statements of a sheet starts an `@media`, let tokens whose brackets match stand between its rulesets
`as` and `bs`.  If the scan of these tokens ends between two statements, or if there is a ruleset
behind them, then the sheet has the statements before, and then the `@media` with all the rulesets
in front of the tokens and all those behind them, except that a statement may go on into the first
of those.  Otherwise the sheet has nothing of the `@media`. -/
theorem parseTokens_media {options : ParseOptions} {stop loc : Location} {ts : List Token} {i : Nat}
    {events : List Event} {names : List String} {n : Nesting} {as bs : List Ruleset}
    {fore junk rear after : List Token} (hstart : Parser.StartsAt options stop ts i events)
    (hkey : Grammar.keyword? (ts.drop i) = some "media")
    (hhead : Grammar.mediaHead ⟨options.maxNesting, 0⟩ (ts.drop i).tail
      = .ok (names, n, fore ++ (junk ++ (rear ++ ⟨.mark .closeBrace, loc⟩ :: after))))
    (has : Grammar.Rulesets n as fore) (hjunk : Grammar.Matched n junk)
    (hbs : Grammar.Rulesets n bs rear) :
    let before := (builtBy (parseTokens options (ts.take i) stop)).statements
    (∀ kept, Grammar.spared junk bs = some kept → ∃ found,
      let media := Statement.media names (as ++ (found ++ kept))
      (∃ more, (builtBy (parseTokens options ts stop)).statements = before ++ media :: more) ∧
        (after = [] → parseTokens options ts stop = .ok ⟨before ++ [media]⟩)) ∧
    (Grammar.spared junk bs = none → after = [] →
      (builtBy (parseTokens options ts stop)).statements = before) := by
  intro before
  have htake := hstart.parseTokens stop
  obtain ⟨hi, phase, rest, hreach, hs⟩ := hstart
  obtain ⟨ss, hss⟩ := hreach.accounts
  have hbefore : before = ss := by
    show (builtBy (parseTokens options (ts.take i) stop)).statements = ss
    rw [htake, ofEvents_accounts hss]
    rfl
  have hne : Parser.skipBetween rest ≠ [] := by
    rw [hs]
    simpa using hi
  have hmedia := Grammar.tryStatement_of_media ⟨options.maxNesting, 0⟩ phase hkey
  rw [← hs] at hmedia hhead hkey
  obtain ⟨hkept, hnone⟩ := Grammar.tryMedia_spared hhead has hjunk hbs
  rw [← hmedia] at hkept hnone
  rw [hbefore]
  refine ⟨fun kept hspared => ?_, fun hspared hafter => ?_⟩
  · obtain ⟨found, hresult, hevents⟩ := hkept kept hspared
    exact ⟨found, parseTokens_read hreach hss hne hresult hevents⟩
  · obtain ⟨e, he⟩ := hnone hspared
    refine parseTokens_dropped hreach hss hne he fun r hr => ?_
    have hskip := Grammar.skipStatement_atKeyword hkey hr
    exact (Grammar.mediaHead_skipTail hhead has hjunk hbs hskip).trans hafter

end

/-- The ruleset without declarations for the elements of one name. -/
def bare (name : String) : Ruleset :=
  ⟨⟨[⟨[⟨some name, [], .first⟩]⟩]⟩, []⟩

theorem rulesets_bare {n : Nesting} (hn : n.depth < n.limit) (name : String)
    (l l' l'' : Location) {rs : List Ruleset} {ts : List Token} (h : Grammar.Rulesets n rs ts) :
    Grammar.Rulesets n (bare name :: rs)
      ([⟨.ident name, l⟩, ⟨.mark .openBrace, l'⟩, ⟨.mark .closeBrace, l''⟩] ++ ts) := by
  have hblock : Grammar.Matched n [⟨.mark .openBrace, l'⟩, ⟨.mark .closeBrace, l''⟩] :=
    @Grammar.Matched.pair n _ _ l'' [] [] rfl hn (.nil _) (.nil _)
  refine .cons ⟨.token rfl rfl hblock, [], ?_⟩ h
  have hread : Grammar.block n [⟨.mark .openBrace, l'⟩, ⟨.mark .closeBrace, l''⟩]
      = .ok ⟨[], [], []⟩ := by
    rw [Grammar.block]
    show (n.enter [⟨.mark .closeBrace, l''⟩] >>= _) = _
    rw [Grammar.enter_of_lt hn]
    with_unfolding_all rfl
  have hselector : Grammar.selector [⟨.ident name, l⟩, ⟨.mark .openBrace, l'⟩,
      ⟨.mark .closeBrace, l''⟩]
        = .ok ((bare name).selector, [⟨.mark .openBrace, l'⟩, ⟨.mark .closeBrace, l''⟩]) := by
    with_unfolding_all rfl
  rw [Grammar.skipTrivia_cons_self _ rfl, Grammar.ruleset, hselector]
  dsimp only [bind, Except.bind]
  rw [hread]
  rfl

/-- A delimiter between two rulesets costs the one behind it, and nothing else. -/
theorem parseTokens_media_delim : ∃ found,
    parseTokens {} (scan "@media a\x7bb\x7b\x7d!c\x7b\x7dd\x7b\x7d\x7d") ⟨1, 21, 20⟩
      = .ok ⟨[.media ["a"] ([bare "b"] ++ (found ++ [bare "d"]))]⟩ := by
  have hfore := @rulesets_bare ⟨64, 1⟩ (by decide) "b" ⟨1, 10, 9⟩ ⟨1, 11, 10⟩ ⟨1, 12, 11⟩ _ _
    (.none _)
  have hrear := @rulesets_bare ⟨64, 1⟩ (by decide) "c" ⟨1, 14, 13⟩ ⟨1, 15, 14⟩ ⟨1, 16, 15⟩ _ _
    (rulesets_bare (by decide) "d" ⟨1, 17, 16⟩ ⟨1, 18, 17⟩ ⟨1, 19, 18⟩ (.none _))
  have hjunk : Grammar.Matched ⟨64, 1⟩ [⟨.delim '!', ⟨1, 13, 12⟩⟩] := .token rfl rfl (.nil _)
  have hstart : Parser.StartsAt {} ⟨1, 21, 20⟩
      (scan "@media a\x7bb\x7b\x7d!c\x7b\x7dd\x7b\x7d\x7d") 0 [] :=
    ⟨by with_unfolding_all decide, .start, _, .start, by with_unfolding_all rfl⟩
  have hmedia := @parseTokens_media {} ⟨1, 21, 20⟩ ⟨1, 20, 19⟩ _ _ _ ["a"] _ _ _ _ _ _ [] hstart
    (by with_unfolding_all rfl) (by with_unfolding_all rfl) hfore hjunk hrear
  obtain ⟨found, -, h⟩ := hmedia.1 [bare "d"] (by with_unfolding_all rfl)
  have hbefore : (builtBy (parseTokens {} (List.take 0
      (scan "@media a\x7bb\x7b\x7d!c\x7b\x7dd\x7b\x7d\x7d")) ⟨1, 21, 20⟩)).statements = [] := by
    with_unfolding_all rfl
  rw [hbefore] at h
  exact ⟨found, h rfl⟩

/-- Not every `@media` with matched tokens between its rulesets is kept: a name in front of the
closing brace drops it, with the ruleset that was read already. -/
theorem not_parseTokens_media : ¬∀ (options : ParseOptions) (stop loc : Location) (ts : List Token)
    (names : List String) (n : Nesting) (as bs : List Ruleset) (fore junk rear : List Token),
    Grammar.keyword? ts = some "media" →
    Grammar.mediaHead ⟨options.maxNesting, 0⟩ ts.tail
      = .ok (names, n, fore ++ (junk ++ (rear ++ [⟨.mark .closeBrace, loc⟩]))) →
    Grammar.Rulesets n as fore → Grammar.Matched n junk → Grammar.Rulesets n bs rear →
    ∃ s rules, parseTokens options ts stop = .ok s ∧ .media names rules ∈ s.statements ∧
      as <+: rules := by
  intro h
  have hfore := @rulesets_bare ⟨64, 1⟩ (by decide) "b" ⟨1, 10, 9⟩ ⟨1, 11, 10⟩ ⟨1, 12, 11⟩ _ _
    (.none _)
  have hjunk : Grammar.Matched ⟨64, 1⟩ [⟨.ident "c", ⟨1, 13, 12⟩⟩] := .token rfl rfl (.nil _)
  obtain ⟨s, rules, hs, hmem, -⟩ := h {} ⟨1, 15, 14⟩ ⟨1, 14, 13⟩ (scan "@media a\x7bb\x7b\x7dc\x7d")
    ["a"] _ _ _ _ _ _ (by with_unfolding_all rfl) (by with_unfolding_all rfl) hfore hjunk
    (.none _)
  have hempty : parseTokens {} (scan "@media a\x7bb\x7b\x7dc\x7d") ⟨1, 15, 14⟩ = .ok ⟨[]⟩ := by
    with_unfolding_all rfl
  rw [hempty] at hs
  cases hs
  exact List.not_mem_nil hmem

end Sheet

end Css2
