import Css2.Proofs.Sheet.Invariant
import Css2.Proofs.Sheet.Origin

/-!
# How deep functions are nested

Each function of a value and each block around it takes one level of nesting while it is read, so
what is left of the limit bounds the functions of a value (`Grammar.terms_functionDepth`).  From
there the bound goes up to declarations, statements and sheets (`Sheet.fits_ofEvents`): with
fewer levels left there are fewer functions inside of each other, and a statement that has used up
too many is not in the sheet.
-/

namespace Css2

/-! ### Depths -/

mutual

/-- How many functions are inside of each other in a value. -/
def Value.functionDepth : Value → Nat
  | .function _ args => Term.functionDepthAll args + 1
  | _ => 0

def Term.functionDepth : Term → Nat
  | ⟨value, _, _⟩ => value.functionDepth

def Term.functionDepthAll : List Term → Nat
  | [] => 0
  | t :: ts => max t.functionDepth (Term.functionDepthAll ts)

end

theorem Value.functionDepth_ofFunction (name : String) (args : List Term) :
    (Value.ofFunction name args).functionDepth ≤ Term.functionDepthAll args + 1 := by
  rcases Value.ofFunction_cases name args with h | ⟨address, h⟩ | ⟨color, h⟩
  · rw [h, functionDepth]
  · rw [h]
    simp [functionDepth]
  · rw [h]
    simp [functionDepth]

/-- The functions of a statement fit into `k` levels, together with the blocks around them. -/
def Statement.Fits (k : Nat) (s : Statement) : Prop :=
  ∀ d ∈ s.declarations, Term.functionDepthAll d.value + s.depth ≤ k

/-- The attempt reports a statement as a whole, and this statement fits. -/
def Attempt.Fits (n : Nesting) (a : Attempt) : Prop :=
  ∃ s : Statement, a.events = s.events ∧ s.Fits (n.limit - n.depth)

namespace Grammar

/-! ### Values -/

theorem simpleValue?_functionDepth {l : Lexeme} {v : Value} (h : simpleValue? l = some v) :
    v.functionDepth = 0 := by
  cases l <;> cases h <;> rfl

/-- A value is no deeper than there are levels left, if its arguments are not. -/
theorem value_functionDepth_of {n : Nesting} {t : Token} {rest after : List Token} {v : Value}
    (ih : ∀ args mid, terms { n with depth := n.depth + 1 } (skipTrivia rest) = .ok (args, mid) →
      Term.functionDepthAll args ≤ n.limit - (n.depth + 1))
    (h : value n t rest = .ok (v, after)) : v.functionDepth ≤ n.limit - n.depth := by
  rw [value] at h
  split at h
  · next name _ =>
    obtain ⟨deeper, hn, h⟩ := bind_eq_ok h
    obtain ⟨hlt, rfl⟩ := enter_eq_ok hn
    obtain ⟨⟨args, mid⟩, hargs, h⟩ := bind_eq_ok h
    obtain ⟨us, _, h⟩ := bind_eq_ok h
    cases h
    have hdepth := ih args mid hargs
    have hfunction := Value.functionDepth_ofFunction name args
    omega
  · split at h
    · next hv =>
      cases h
      rw [simpleValue?_functionDepth hv]
      exact Nat.zero_le _
    · cases h

/-- **The functions of a value are no deeper than there are levels left.** -/
theorem terms_functionDepth {n : Nesting} {ts rest : List Token} {v : List Term}
    (h : terms n ts = .ok (v, rest)) : Term.functionDepthAll v ≤ n.limit - n.depth := by
  -- the arguments of a function have fewer tokens and one level less
  induction hlen : ts.length using Nat.strongRecOn generalizing n ts rest v with
  | ind len ih =>
    subst hlen
    have hsign := sign_le ts
    rw [terms_eq] at h
    split at h
    · cases h
    · next s t us hs =>
      rw [hs, List.length_cons] at hsign
      obtain ⟨⟨w, after⟩, hw, h⟩ := bind_eq_ok h
      have hvalue : w.functionDepth ≤ n.limit - n.depth := by
        refine value_functionDepth_of (fun args mid hargs => ?_) hw
        have hle := skipTrivia_le us
        exact ih _ (by omega) hargs rfl
      dsimp only at h
      split at h
      · cases h
      · split at h
        · cases h
          exact Nat.max_le.2 ⟨hvalue, Nat.zero_le _⟩
        · next separator following hnext =>
          obtain ⟨⟨more, final⟩, hmore, h⟩ := bind_eq_ok h
          cases h
          have hle := next?_le hnext
          have hafter := value_le hw
          exact Nat.max_le.2 ⟨hvalue, ih _ (by omega) hmore rfl⟩

/-! ### Declarations -/

theorem declaration_functionDepth {n : Nesting} {ts rest : List Token} {d : Declaration}
    (h : declaration n ts = .ok (d, rest)) :
    Term.functionDepthAll d.value ≤ n.limit - n.depth := by
  rw [declaration] at h
  obtain ⟨⟨property, us⟩, _, h⟩ := bind_eq_ok h
  obtain ⟨vs, _, h⟩ := bind_eq_ok h
  obtain ⟨⟨value, ws⟩, hterms, h⟩ := bind_eq_ok h
  have hvalue : d.value = value := by
    dsimp only at h
    split at h <;> (cases h; rfl)
  rw [hvalue]
  exact terms_functionDepth hterms

theorem declarations_functionDepth (n : Nesting) (inBlock : Bool) (ts : List Token) :
    ∀ d ∈ (declarations n inBlock ts).value,
      Term.functionDepthAll d.value ≤ n.limit - n.depth := by
  fun_induction declarations n inBlock ts with
  | case1 => simp
  | case2 => simp
  | case3 _ _ _ _ _ _ ih => exact ih
  | case4 ts t rest hs _ _ d after hd more ih =>
    rw [listedDeclaration] at hd
    obtain ⟨⟨e, us⟩, hread, hd⟩ := bind_eq_ok hd
    dsimp only at hd
    split at hd
    · cases hd
      intro c hc
      rcases List.mem_cons.1 hc with rfl | hc
      · exact declaration_functionDepth hread
      · exact ih c hc
    · cases hd
  | case5 _ _ _ _ _ _ _ _ _ ih => exact ih

/-- The declarations of a block have one level less than there is around it. -/
theorem block_functionDepth {n : Nesting} {ts : List Token} {b : Lenient (List Declaration)}
    (h : block n ts = .ok b) :
    ∀ d ∈ b.value, Term.functionDepthAll d.value + 1 ≤ n.limit - n.depth := by
  rw [block] at h
  obtain ⟨us, _, h⟩ := bind_eq_ok h
  obtain ⟨deeper, hn, h⟩ := bind_eq_ok h
  obtain ⟨hlt, rfl⟩ := enter_eq_ok hn
  cases h
  intro d hd
  have hdepth : Term.functionDepthAll d.value ≤ n.limit - (n.depth + 1) :=
    declarations_functionDepth _ true us d hd
  omega

/-! ### Statements -/

theorem ruleset_functionDepth {n : Nesting} {ts : List Token} {r : Lenient Ruleset}
    (h : ruleset n ts = .ok r) :
    ∀ d ∈ r.value.declarations, Term.functionDepthAll d.value + 1 ≤ n.limit - n.depth := by
  rw [ruleset] at h
  obtain ⟨⟨s, us⟩, _, h⟩ := bind_eq_ok h
  obtain ⟨b, hb, h⟩ := bind_eq_ok h
  cases h
  exact block_functionDepth hb

theorem mediaBody_functionDepth (n : Nesting) (ts : List Token) :
    ∀ d ∈ (mediaBody n ts).rules.flatMap Ruleset.declarations,
      Term.functionDepthAll d.value + 1 ≤ n.limit - n.depth := by
  fun_induction mediaBody n ts with
  | case1 => simp
  | case2 => simp
  | case3 _ _ _ _ _ r hr _ ih =>
    intro d hd
    rcases List.mem_append.1 hd with hd | hd
    · exact ruleset_functionDepth hr d hd
    · exact ih d hd
  | case4 => simp
  | case5 _ _ _ _ _ _ _ _ _ _ ih => exact ih

theorem tryRuleset_fits {n : Nesting} {ts rest : List Token}
    (h : (tryRuleset n ts).result = .ok rest) : (tryRuleset n ts).Fits n := by
  rw [tryRuleset] at h ⊢
  split at h
  · cases h
  · next r hr => exact ⟨.ruleset r.value, rfl, ruleset_functionDepth hr⟩

theorem tryCharset_fits (n : Nesting) {ts rest : List Token}
    (h : (tryCharset ts).result = .ok rest) : (tryCharset ts).Fits n := by
  rw [tryCharset] at h ⊢
  split at h
  · cases h
  · next name _ _ => exact ⟨.charset name, rfl, by simp [Statement.Fits, Statement.declarations]⟩

theorem tryImport_fits (n : Nesting) {ts rest : List Token}
    (h : (tryImport ts).result = .ok rest) : (tryImport ts).Fits n := by
  rw [tryImport] at h ⊢
  split at h
  · cases h
  · next url names _ _ =>
    exact ⟨.importSheet url names, rfl, by simp [Statement.Fits, Statement.declarations]⟩

theorem tryPage_fits {n : Nesting} {ts rest : List Token}
    (h : (tryPage n ts).result = .ok rest) : (tryPage n ts).Fits n := by
  rw [tryPage] at h ⊢
  split at h
  · cases h
  · next name pseudo b hr =>
    rw [page] at hr
    dsimp only at hr
    obtain ⟨⟨pseudo', us⟩, _, hr⟩ := bind_eq_ok hr
    obtain ⟨b', hb, hr⟩ := bind_eq_ok hr
    cases hr
    exact ⟨.page _ _ b.value, rfl, block_functionDepth hb⟩

theorem tryFontFace_fits {n : Nesting} {ts rest : List Token}
    (h : (tryFontFace n ts).result = .ok rest) : (tryFontFace n ts).Fits n := by
  rw [tryFontFace] at h ⊢
  split at h
  · cases h
  · next b hb => exact ⟨.fontFace b.value, rfl, block_functionDepth hb⟩

/-- Inside of `@media` there is one block more around the declarations. -/
theorem tryMedia_fits {n : Nesting} {ts rest : List Token}
    (h : (tryMedia n ts).result = .ok rest) : (tryMedia n ts).Fits n := by
  rw [tryMedia] at h ⊢
  split at h
  · cases h
  · next names deeper us hm =>
    rw [mediaHead] at hm
    obtain ⟨⟨names', vs⟩, _, hm⟩ := bind_eq_ok hm
    obtain ⟨ws, _, hm⟩ := bind_eq_ok hm
    obtain ⟨d, hn, hm⟩ := bind_eq_ok hm
    cases hm
    obtain ⟨hlt, rfl⟩ := enter_eq_ok hn
    dsimp only at h ⊢
    split at h
    · refine ⟨.media names _, rfl, fun d hd => ?_⟩
      have hdepth : Term.functionDepthAll d.value + 1 ≤ n.limit - (n.depth + 1) :=
        mediaBody_functionDepth _ us d hd
      show Term.functionDepthAll d.value + 2 ≤ n.limit - n.depth
      omega
    · cases h

/-- **The functions of a statement are no deeper than its blocks leave levels.** -/
theorem tryStatement_fits {n : Nesting} {phase : Phase} {ts rest : List Token}
    (h : (tryStatement n phase ts).result = .ok rest) : (tryStatement n phase ts).Fits n := by
  rw [tryStatement] at h ⊢
  split at h
  · exact tryRuleset_fits h
  · split at h
    · next hphase =>
      rw [if_pos hphase]
      exact tryCharset_fits n h
    · cases h
  · split at h
    · cases h
    · next hphase =>
      rw [if_neg hphase]
      exact tryImport_fits n h
  · exact tryMedia_fits h
  · exact tryPage_fits h
  · exact tryFontFace_fits h
  · cases h

end Grammar

/-! ### Sheets -/

theorem Parser.keeps_fits (options : ParseOptions) :
    Keeps options fun _ ss => ∀ s ∈ ss, s.Fits options.maxNesting where
  start := by simp
  read {_ _ _ ss} hss hr := by
    obtain ⟨s, hs, hfits⟩ := Grammar.tryStatement_fits hr
    refine ⟨s, hs, fun t ht => ?_⟩
    rcases List.mem_append.1 ht with ht | ht
    · exact hss t ht
    · exact List.mem_singleton.1 ht ▸ hfits
  skipped hss _ := hss

/-- **The functions of a sheet fit**: what was built, be it the sheet or the part of it before an
unrecoverable error, holds no function that is deeper than the limit allows. -/
theorem Sheet.fits_ofEvents (p : Parser) :
    ∀ s ∈ (Sheet.ofEvents p.sheet.events).statements, s.Fits p.options.maxNesting := by
  obtain ⟨_, hfits⟩ := (Parser.keeps_fits p.options).ofEvents
  exact hfits

end Css2
