import Css2.Proofs.Sheet.Invariant
import Css2.Proofs.Sheet.ReadBack

/-!
# The order of statements

The phase says which statements may still come, and a statement that comes too late is not read. The
phase is moved on by the keyword of each statement, whether that was read or skipped, so it never
lags behind the statements that were built: before anything is read there are none, and before the
body there are only `@charset` and imports (`Phase.Covers`).

So the statements of a sheet, or those before an unrecoverable error, are at most one `@charset`,
then the imports, and then everything else (`Sheet.parseTokens_parts`).
-/

namespace Css2

/-! ### The parts of a sheet -/

/-- The part of a sheet where statements of this kind stand, named for its phase. -/
def Statement.part : Statement → Phase
  | charset _ => .start
  | importSheet _ _ => .imports
  | ruleset _ => .body
  | media _ _ => .body
  | page _ _ _ => .body
  | fontFace _ => .body

/-- At most one `@charset`, and imports behind it. -/
def Statement.heads (charset : Option String) (imports : List (String × List String)) :
    List Statement :=
  (charset.map Statement.charset).toList ++ imports.map fun i => .importSheet i.1 i.2

/-- The statements may have been built by the time a phase is reached. -/
def Phase.Covers (phase : Phase) (ss : List Statement) : Prop :=
  ∃ charset imports body, ss = Statement.heads charset imports ++ body ∧
    (∀ s ∈ body, s.part = .body) ∧ (phase ≠ .body → body = []) ∧
      (phase = .start → charset = none ∧ imports = [])

theorem Statement.heads_append_import (charset : Option String)
    (imports : List (String × List String)) (url : String) (media : List String) :
    heads charset imports ++ [.importSheet url media] =
      heads charset (imports ++ [(url, media)]) := by
  simp [heads]

/-! ### One statement -/

/-- **A statement that is read may come in its phase**, and it begins with its keyword. -/
theorem Grammar.tryStatement_mayCome {n : Nesting} {phase : Phase} {ts rest : List Token}
    (h : (tryStatement n phase ts).result = .ok rest) :
    ∃ s : Statement, (tryStatement n phase ts).events = s.events ∧ s.mayCome phase = true ∧
      keyword? ts = s.keyword? := by
  rw [tryStatement] at h ⊢
  split at h
  · next hk =>
    rw [hk]
    rw [tryRuleset] at h ⊢
    split at h
    · cases h
    · next r _ => exact ⟨.ruleset r.value, rfl, rfl, rfl⟩
  · next hk =>
    split at h
    · next hphase =>
      rw [hk, if_pos hphase]
      rw [tryCharset] at h ⊢
      split at h
      · cases h
      · next name _ _ => exact ⟨.charset name, rfl, decide_eq_true hphase, rfl⟩
    · cases h
  · next hk =>
    split at h
    · cases h
    · next hphase =>
      rw [hk, if_neg hphase]
      rw [tryImport] at h ⊢
      split at h
      · cases h
      · next url names _ _ => exact ⟨.importSheet url names, rfl, decide_eq_true hphase, rfl⟩
  · next hk =>
    rw [hk]
    rw [tryMedia] at h ⊢
    split at h
    · cases h
    · next names _ _ _ =>
      dsimp only at h ⊢
      split at h
      · exact ⟨.media names _, rfl, rfl, rfl⟩
      · cases h
  · next hk =>
    rw [hk]
    rw [tryPage] at h ⊢
    split at h
    · cases h
    · next name pseudo b _ => exact ⟨.page name pseudo b.value, rfl, rfl, rfl⟩
  · next hk =>
    rw [hk]
    rw [tryFontFace] at h ⊢
    split at h
    · cases h
    · next b _ => exact ⟨.fontFace b.value, rfl, rfl, rfl⟩
  · cases h

/-! ### The turns -/

namespace Phase

open Css2.Parser (nextPhase)

theorem nextPhase_body (keyword : Option String) : nextPhase .body keyword = .body :=
  rfl

/-- Behind a statement it is too late for `@charset`. -/
theorem nextPhase_ne_start (phase : Phase) (keyword : Option String) :
    nextPhase phase keyword ≠ .start := by
  unfold nextPhase
  split <;> exact nofun

theorem nextPhase_of_part {s : Statement} (h : s.part = .body) (phase : Phase) :
    nextPhase phase s.keyword? = .body := by
  cases s with
  | charset | importSheet => cases h
  | _ => cases phase <;> rfl

theorem Covers.nextPhase {phase : Phase} {ss : List Statement} (h : phase.Covers ss)
    (keyword : Option String) : (nextPhase phase keyword).Covers ss := by
  obtain ⟨charset, imports, body, hss, hbody, hlate, -⟩ := h
  refine ⟨charset, imports, body, hss, hbody, fun hne => hlate fun heq => hne ?_, fun heq => ?_⟩
  · rw [heq]
    exact nextPhase_body keyword
  · exact absurd heq (nextPhase_ne_start phase keyword)

/-- **A statement that may come is covered by the next phase**, together with those before it. -/
theorem Covers.append {phase : Phase} {ss : List Statement} (h : phase.Covers ss) {s : Statement}
    (hs : s.mayCome phase = true) : (Parser.nextPhase phase s.keyword?).Covers (ss ++ [s]) := by
  obtain ⟨charset, imports, body, rfl, hbody, hlate, hearly⟩ := h
  cases hpart : s.part with
  | start =>
    cases s with
    | charset name =>
      obtain rfl : phase = .start := of_decide_eq_true hs
      obtain ⟨rfl, rfl⟩ := hearly rfl
      obtain rfl : body = [] := hlate nofun
      exact ⟨some name, [], [], rfl, nofun, fun _ => rfl, nofun⟩
    | _ => cases hpart
  | imports =>
    cases s with
    | importSheet url media =>
      obtain rfl : body = [] := hlate (of_decide_eq_true hs)
      refine ⟨charset, imports ++ [(url, media)], [], ?_, nofun, fun _ => rfl, fun heq => ?_⟩
      · rw [List.append_nil, List.append_nil, Statement.heads_append_import]
      · exact absurd heq (nextPhase_ne_start phase _)
    | _ => cases hpart
  | body =>
    rw [nextPhase_of_part hpart]
    refine ⟨charset, imports, body ++ [s], List.append_assoc .., ?_, fun hne => absurd rfl hne,
      nofun⟩
    intro t ht
    rcases List.mem_append.1 ht with ht | ht
    · exact hbody t ht
    · exact List.mem_singleton.1 ht ▸ hpart

end Phase

/-- The phase covers the statements built so far. -/
theorem Parser.keeps_covers (options : ParseOptions) : Keeps options Phase.Covers where
  start := ⟨none, [], [], rfl, nofun, fun _ => rfl, fun _ => ⟨rfl, rfl⟩⟩
  read h hr := by
    obtain ⟨s, hs, hcome, hkeyword⟩ := Grammar.tryStatement_mayCome hr
    exact ⟨s, hs, hkeyword ▸ h.append hcome⟩
  skipped h keyword := h.nextPhase keyword

/-! ### Sheets -/

/-- **The parts of a sheet come in order.**  Whatever the tokens and the options are, the statements
that a parse has built, be they the sheet or those before an unrecoverable error, are at most one
`@charset`, then imports, and then rulesets, `@media`, `@page` and `@font-face`. -/
theorem Sheet.parseTokens_parts (options : ParseOptions) (tokens : List Token)
    (stop : Location) :
    ∃ (charset : Option String) (imports : List (String × List String)) (body : List Statement),
      (builtBy (parseTokens options tokens stop)).statements
        = (charset.map Statement.charset).toList
          ++ imports.map (fun i => .importSheet i.1 i.2) ++ body ∧
      ∀ s ∈ body, s.part = .body := by
  obtain ⟨phase, charset, imports, body, hss, hbody, -⟩ :=
    (Parser.keeps_covers options).ofEvents (p := Parser.ofTokens tokens stop options)
  refine ⟨charset, imports, body, ?_, hbody⟩
  rw [builtBy_parseTokens, ← ofEvents_document]
  exact hss

end Css2
