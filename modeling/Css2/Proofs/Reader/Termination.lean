import Css2.Proofs.Reader.Call
import Css2.Proofs.Reader.Loop

/-!
# Readers come to an end

A reader never goes on for ever (`Reader.call_ends`).  Each of its loops is taken apart into turns,
and a turn that does not leave its loop leaves fewer tokens than there were (`Progresses`).

This is plain for the turns that take a token or fail.  It is less so for those that try something
first: when the attempt fails the reader is back where the turn began, and then something must be
skipped.  There is a token to skip, because the turn has looked at it, and whatever is skipped
begins with it: a declaration also where it begins with a closing brace, a statement unless the core
grammar rejects it too.
-/

namespace Css2

namespace Reader

/-- What is done with a declaration that is read in a block or in a list by itself. -/
def sinkOf : Bool → Declaration → Production Unit
  | true, d => emit (.property d)
  | false, _ => pure ()

/-! ### Turns -/

/-- A statement of a sheet is read or skipped, behind what may stand between statements. -/
def statementsTurn (phase : Phase) : Production (Turn Phase Unit) := do
  skipBetween
  match ← peek with
  | none => return .leave ()
  | some t =>
    topLevelStatement phase
    return .again (Parser.nextPhase phase (Grammar.keyword? [t]))

/-- A ruleset inside of `@media` is read, or a statement is skipped that is none. -/
def mediaBodyTurn : Production (Turn Unit Unit) := do
  let _ ← skipTrivia
  match ← peek with
  | none =>
    emit .endMedia
    return .leave ()
  | some t =>
    if t.lexeme.isMark .closeBrace then
      let _ ← bump
      emit .endMedia
      return .leave ()
    else
      if let .error _ ← outcome (attempt ruleset) then coreStatement
      return .again ()

/-- A declaration of a list is read or skipped, or a semicolon is passed over.  `ds` are the
declarations that were read so far. -/
def declarationsTurn (inBlock : Bool) (ds : List Declaration) :
    Production (Turn (List Declaration) (List Declaration)) := do
  let _ ← skipTrivia
  match ← peek with
  | none => return .leave ds
  | some t =>
    if inBlock && t.lexeme.isMark .closeBrace then
      let _ ← bump
      return .leave ds
    else if t.lexeme.isMark .semicolon then
      let _ ← bump
      return .again ds
    else match ← outcome (attempt listedDeclaration) with
      | .ok d =>
        sinkOf inBlock d
        return .again (ds ++ [d])
      | .error _ =>
        skipMalformed inBlock [] false
        return .again ds

def malformedTurn (inBlock : Bool) (closers : List Mark) (begun : Bool) :
    Production (Turn (List Mark × Bool) Unit) := do
  match ← peek with
  | none => return .leave ()
  | some t =>
    if closers.isEmpty && t.lexeme.isMark .semicolon then
      let _ ← bump
      return .leave ()
    else if closers.isEmpty && inBlock && begun && t.lexeme.isMark .closeBrace then
      return .leave ()
    else
      let _ ← bump
      return .again (Grammar.pushCloser closers t.lexeme, true)

/-- A term is read behind the term `last`, which gets its separator then. -/
def termsTurn (ts : List Term) (last : Term) :
    Production (Turn (List Term × Term) (List Term)) := do
  match ← separator? with
  | none => return .leave (ts ++ [last])
  | some separator =>
    let t ← term
    return .again (ts ++ [{ last with separator }], t)

def chainsTurn (cs : List Chain) : Production (Turn (List Chain) (List Chain)) := do
  if ← nextIs (·.isMark .comma) then
    let _ ← bump
    let _ ← skipTrivia
    let c ← chain
    return .again (cs ++ [c])
  else return .leave cs

def linksTurn (ls : List Link) : Production (Turn (List Link) Chain) := do
  match ← combinator? with
  | none => return .leave ⟨ls⟩
  | some c =>
    let l ← link c
    return .again (ls ++ [l])

/-- A condition is read.  Tests of attributes in a row are put together in the end. -/
def conditionsTurn (cs : List Condition) : Production (Turn (List Condition) (List Condition)) := do
  match ← condition? with
  | none => return .leave (cs.foldr Grammar.joinCondition [])
  | some c => return .again (cs ++ [c])

def mediaTurn (names : List String) : Production (Turn (List String) (List String)) := do
  let _ ← skipTrivia
  if ← nextIs (·.isMark .comma) then
    let _ ← bump
    let _ ← skipTrivia
    let name ← ident .medium
    return .again (names ++ [name])
  else return .leave names

/-- A token or a pair of brackets before the block of a statement is skipped. -/
def coreTailTurn (atRule : Bool) : Production (Turn Unit Unit) := do
  match ← peek with
  | none => return .leave ()
  | some t =>
    if t.lexeme.isMark .openBrace then
      coreBlock
      return .leave ()
    else if atRule && t.lexeme.isMark .semicolon then
      let _ ← bump
      return .leave ()
    else
      coreAny
      return .again ()

/-- A token, a block or a pair of brackets inside of brackets is skipped. -/
def contentsTurn (closer : Mark) : Production (Turn Unit Unit) := do
  match ← peek with
  | none => return .leave ()
  | some t =>
    if t.lexeme.isMark closer then
      let _ ← bump
      return .leave ()
    else if t.lexeme.isMark .openBrace then
      coreBlock
      return .again ()
    else if Grammar.isInner t.lexeme then
      let _ ← bump
      return .again ()
    else
      coreAny
      return .again ()

/-! ### Each turn leaves fewer tokens -/

theorem ends_coreAny {r : Reader} {t : Token} {rest : List Token} (hu : r.unread = t :: rest)
    (ht : t.lexeme.isMark .openBrace = false) :
    Ends coreAny r fun _ r' => r'.unread.length < r.unread.length := by
  have hpasses := passes_coreAny_of hu ht fun closer r' _ => passes_contents closer r'
  refine hpasses.ends _ fun r' h => ?_
  rw [hu]
  exact Nat.lt_succ_of_le (Grammar.any_le h)

theorem ends_coreBlock {r : Reader} {t : Token} {rest : List Token} (hu : r.unread = t :: rest)
    (ht : t.lexeme.isMark .openBrace = true) :
    Ends coreBlock r fun _ r' => r'.unread.length < r.unread.length := by
  have hpasses := passes_coreBlock_of hu ht fun closer r' _ => passes_contents closer r'
  refine hpasses.ends _ fun r' h => ?_
  rw [hu]
  exact Nat.lt_succ_of_le (Grammar.brackets_le h)

theorem progresses_contents (closer : Mark) : Progresses fun _ => contentsTurn closer := by
  refine progresses_of_ends fun _ r => .peek ?_
  cases hu : r.unread with
  | nil => exact .pure fun _ h => by cases h
  | cons t rest =>
    dsimp only [List.head?_cons]
    split
    · exact .bump hu fun r' _ => .pure fun _ h => by cases h
    · split
      · next ht => exact (ends_coreBlock hu ht).bind fun _ r' hlt => .pure fun _ _ => hu ▸ hlt
      · split
        · exact .bump hu fun r' hu' => .pure fun _ _ => by rw [hu']; exact Nat.lt_succ_self _
        · next ht _ =>
          exact (ends_coreAny hu (Bool.not_eq_true _ ▸ ht)).bind fun _ r' hlt =>
            .pure fun _ _ => hu ▸ hlt

theorem progresses_coreTail (atRule : Bool) : Progresses fun _ => coreTailTurn atRule := by
  refine progresses_of_ends fun _ r => .peek ?_
  cases hu : r.unread with
  | nil => exact .pure fun _ h => by cases h
  | cons t rest =>
    dsimp only [List.head?_cons]
    split
    · next ht => exact (ends_coreBlock hu ht).bind fun _ r' _ => .pure fun _ h => by cases h
    · split
      · exact .bump hu fun r' _ => .pure fun _ h => by cases h
      · next ht _ =>
        exact (ends_coreAny hu (Bool.not_eq_true _ ▸ ht)).bind fun _ r' hlt =>
          .pure fun _ _ => hu ▸ hlt

theorem progresses_media : Progresses mediaTurn := by
  refine progresses_of_ends fun names r => .skipTrivia fun r₁ hu₁ => .nextIs ?_
  have hle := Grammar.skipTrivia_le r.unread
  rw [← hu₁] at hle
  cases hu : r₁.unread with
  | nil => exact .pure fun _ h => by cases h
  | cons t rest =>
    rw [hu, List.length_cons] at hle
    split
    · refine .bump hu fun r₂ hu₂ => .skipTrivia fun r₃ hu₃ => ?_
      have hle' := Grammar.skipTrivia_le rest
      rw [hu₂] at hu₃
      rw [← hu₃] at hle'
      refine ((reads_ident _ r₃).ends (fun _ r' => r'.unread.length < r₃.unread.length)
        fun a r₄ h => Grammar.ident_lt h).bind fun name r₄ hlt => .pure fun _ _ => ?_
      omega
    · exact .pure fun _ h => by cases h

theorem progresses_conditions : Progresses conditionsTurn := by
  refine progresses_of_ends fun cs r => ?_
  refine ((reads_condition? r).ends (fun c? r' =>
    ∀ c, c? = some c → r'.unread.length < r.unread.length) fun c? r' h c hc => ?_).bind
      fun c? r' hlt => ?_
  · rw [hc] at h
    exact conditionOf_lt h
  · cases c? with
    | none => exact .pure fun _ h => by cases h
    | some c => exact .pure fun _ _ => hlt c rfl

theorem progresses_links : Progresses linksTurn := by
  refine progresses_of_ends fun ls r => ?_
  refine ((reads_combinator? r).ends (fun c? r' =>
    ∀ c, c? = some c → r'.unread.length ≤ r.unread.length) fun c? r' h c hc => ?_).bind
      fun c? r' hle => ?_
  · rw [hc] at h
    exact combinatorOf_le h
  · cases c? with
    | none => exact .pure fun _ h => by cases h
    | some c =>
      refine ((reads_link c r').ends (fun _ r'' => r''.unread.length < r'.unread.length)
        fun l r'' h => Grammar.link_lt h).bind fun l r'' hlt => .pure fun _ _ => ?_
      exact Nat.lt_of_lt_of_le hlt (hle c rfl)

theorem progresses_chains : Progresses chainsTurn := by
  refine progresses_of_ends fun cs r => .nextIs ?_
  cases hu : r.unread with
  | nil => exact .pure fun _ h => by cases h
  | cons t rest =>
    split
    · refine .bump hu fun r₁ hu₁ => .skipTrivia fun r₂ hu₂ => ?_
      have hle := Grammar.skipTrivia_le rest
      rw [hu₁] at hu₂
      rw [← hu₂] at hle
      refine ((reads_chain r₂).ends (fun _ r' => r'.unread.length < r₂.unread.length)
        fun c r' h => Grammar.chain_lt h).bind fun c r' hlt => .pure fun _ _ => ?_
      rw [List.length_cons]
      omega
    · exact .pure fun _ h => by cases h

theorem progresses_terms : Progresses fun s => termsTurn s.1 s.2 := by
  refine progresses_of_ends fun s r => ?_
  refine ((reads_separator? r).ends (fun s? r' =>
    ∀ s, s? = some s → r'.unread.length ≤ r.unread.length) fun s? r' h s hs => ?_).bind
      fun s? r' hle => ?_
  · subst hs
    split at h
    · cases h
    · next hnext =>
      cases h
      exact Grammar.next?_le hnext
  · cases s? with
    | none => exact .pure fun _ h => by cases h
    | some s =>
      refine ((reads_term_of fun r'' _ => reads_terms r'').ends
        (fun _ r'' => r''.unread.length < r'.unread.length)
        fun t r'' h => Grammar.term_le h).bind fun t r'' hlt => .pure fun _ _ => ?_
      exact Nat.lt_of_lt_of_le hlt (hle s rfl)

theorem progresses_malformed (inBlock : Bool) :
    Progresses fun s => malformedTurn inBlock s.1 s.2 := by
  refine progresses_of_ends fun s r => .peek ?_
  cases hu : r.unread with
  | nil => exact .pure fun _ h => by cases h
  | cons t rest =>
    dsimp only [List.head?_cons]
    split
    · exact .bump hu fun r' _ => .pure fun _ h => by cases h
    · split
      · exact .pure fun _ h => by cases h
      · exact .bump hu fun r' hu' => .pure fun _ _ => by rw [hu']; exact Nat.lt_succ_self _

/-! ### Turns that may go back -/

theorem sinkOf_apply (inBlock : Bool) (d : Declaration) (r : Reader) :
    ∃ r', sinkOf inBlock d r = some (.ok (), r') ∧ r'.unread = r.unread := by
  cases inBlock with
  | true => exact ⟨{ r with events := r.events ++ [.property d] }, rfl, rfl⟩
  | false => exact ⟨r, rfl, rfl⟩

theorem progresses_declarations (inBlock : Bool) : Progresses (declarationsTurn inBlock) := by
  refine progresses_of_ends fun ds r => .skipTrivia fun r₁ hu₁ => .peek ?_
  have hle := Grammar.skipTrivia_le r.unread
  rw [← hu₁] at hle
  cases hu : r₁.unread with
  | nil => exact .pure fun _ h => by cases h
  | cons t rest =>
    rw [hu, List.length_cons] at hle
    dsimp only [List.head?_cons]
    split
    · exact .bump hu fun r₂ _ => .pure fun _ h => by cases h
    · split
      · exact .bump hu fun r₂ hu₂ => .pure fun _ _ => by rw [hu₂]; omega
      · refine (reads_listedDeclaration r₁).does.ends_tried.bind fun x r₂ h₂ => ?_
        cases x with
        | ok d =>
          have hlt := Grammar.listedDeclaration_lt h₂
          rw [hu, List.length_cons] at hlt
          obtain ⟨r₃, h₃, hu₃⟩ := sinkOf_apply inBlock d r₂
          exact .step h₃ (.pure fun _ _ => by rw [hu₃]; omega)
        | error e =>
          have hskip := Grammar.skipDeclaration_le inBlock t rest
          refine ((passes_skipMalformed_first inBlock (h₂.trans hu)).ends (fun _ r' =>
            r'.unread.length ≤ rest.length) fun r₃ h => ?_).bind
              fun _ r₃ hle' => .pure fun _ _ => by omega
          rw [← Except.ok.inj h]
          exact hskip

theorem progresses_mediaBody : Progresses fun _ => mediaBodyTurn := by
  refine progresses_of_ends fun _ r => .skipTrivia fun r₁ hu₁ => .peek ?_
  have hle := Grammar.skipTrivia_le r.unread
  rw [← hu₁] at hle
  have hemit (r' : Reader) : emit .endMedia r'
      = some (.ok (), { r' with events := r'.events ++ [.endMedia] }) := rfl
  cases hu : r₁.unread with
  | nil => exact .step (hemit r₁) (.pure fun _ h => by cases h)
  | cons t rest =>
    dsimp only [List.head?_cons]
    split
    · exact .bump hu fun r₂ _ => .step (hemit r₂) (.pure fun _ h => by cases h)
    · refine (does_ruleset r₁).ends_tried.bind fun x r₂ h₂ => ?_
      cases x with
      | ok _ =>
        refine .pure fun _ _ => Nat.lt_of_lt_of_le ?_ hle
        obtain ⟨rest', hr, heq⟩ := Grammar.map_eq_ok h₂
        cases heq
        exact Grammar.tryRuleset_lt hr
      | error e =>
        refine ((passes_coreStatement r₂).ends (fun _ r' =>
          r'.unread.length < r₂.unread.length) fun r₃ h => Grammar.skipStatement_lt h).bind
            fun _ r₃ hlt => .pure fun _ _ => Nat.lt_of_lt_of_le (h₂ ▸ hlt) hle

theorem ends_topLevelStatement (phase : Phase) (r : Reader) :
    Ends (topLevelStatement phase) r fun _ r' => r'.unread.length < r.unread.length := by
  refine .step (get_apply r) ?_
  dsimp only
  refine (does_cssStatement phase r).ends_tried.bind fun x r₁ h₁ => ?_
  cases x with
  | ok _ =>
    obtain ⟨rest, hr, heq⟩ := Grammar.map_eq_ok h₁
    cases heq
    exact ⟨.ok (), { r₁ with diagnostics := [] }, rfl, fun _ _ => Grammar.tryStatement_lt hr⟩
  | error e =>
    dsimp only
    split
    · refine (passes_coreStatement r₁).does.ends_tried.bind fun y r₂ h₂ => ?_
      cases y with
      | ok _ =>
        obtain ⟨rest, hs, heq⟩ := Grammar.map_eq_ok h₂
        cases heq
        rw [show r₁.unread = r.unread from h₁] at hs
        exact ⟨.ok (), { r₂ with
          events := r₂.events ++ [.error e], diagnostics := [], activity := .running }, rfl,
          fun _ _ => Grammar.skipStatement_lt hs⟩
      | error e' => exact .of_error rfl
    · exact .of_error rfl

theorem progresses_statements : Progresses statementsTurn := by
  refine progresses_of_ends fun phase r => ?_
  have hle := Parser.skipBetween_le r.unread
  refine ((passes_skipBetween r).ends (fun _ r' => r'.unread = Parser.skipBetween r.unread)
    fun r₁ h => (Except.ok.inj h).symm).bind fun _ r₁ hu₁ => .peek ?_
  rw [← hu₁] at hle
  cases r₁.unread.head? with
  | none => exact .pure fun _ h => by cases h
  | some t =>
    exact (ends_topLevelStatement phase r₁).bind fun _ r₂ hlt =>
      .pure fun _ _ => Nat.lt_of_lt_of_le hlt hle

/-! ### The loops -/

theorem isLoop_statements : IsLoop (statements .start) (pure .start) statementsTurn := by
  refine .of_rest progresses_statements statements (fun phase => ?_) (pure_bind _ _).symm
  conv => lhs; rw [statements.eq_1]
  rw [statementsTurn]
  simp only [bind_assoc]
  refine bind_congr fun _ => bind_congr fun t? => ?_
  cases t? with
  | none => simp
  | some t => simp

theorem isLoop_mediaBody : IsLoop mediaBody (pure ()) fun _ => mediaBodyTurn := by
  refine .of_rest progresses_mediaBody (fun _ => mediaBody) (fun _ => ?_) rfl
  conv => lhs; rw [mediaBody.eq_1]
  rw [mediaBodyTurn]
  simp only [bind_assoc]
  refine bind_congr fun _ => bind_congr fun t? => ?_
  cases t? with
  | none => simp
  | some t =>
    dsimp only
    split
    · simp
    · simp only [bind_assoc]
      refine bind_congr fun x => ?_
      cases x with
      | ok _ => simp
      | error e => simp

theorem isLoop_declarations (inBlock : Bool) :
    IsLoop (declarations inBlock (sinkOf inBlock)) (pure []) (declarationsTurn inBlock) := by
  refine .of_rest (progresses_declarations inBlock)
    (fun ds => do return ds ++ (← declarations inBlock (sinkOf inBlock))) (fun ds => ?_) ?_
  · conv => lhs; rw [declarations.eq_1]
    rw [declarationsTurn]
    simp only [bind_assoc]
    refine bind_congr fun _ => bind_congr fun t? => ?_
    cases t? with
    | none => simp
    | some t =>
      dsimp only
      split
      · simp
      · split
        · simp
        · simp only [bind_assoc]
          refine bind_congr fun x => ?_
          cases x with
          | ok d =>
            simp only [bind_assoc, pure_bind, List.append_assoc, List.singleton_append]
          | error e => simp
  · simp

theorem isLoop_skipMalformed (inBlock : Bool) :
    IsLoop (skipMalformed inBlock [] false) (pure ([], false))
      fun s => malformedTurn inBlock s.1 s.2 := by
  refine .of_rest (progresses_malformed inBlock) (fun s => skipMalformed inBlock s.1 s.2)
    (fun s => ?_) (pure_bind _ _).symm
  conv => lhs; rw [skipMalformed.eq_1]
  rw [malformedTurn]
  simp only [bind_assoc]
  refine bind_congr fun t? => ?_
  cases t? with
  | none => simp
  | some t =>
    dsimp only
    split
    · simp
    · split
      · simp
      · simp

theorem isLoop_terms : IsLoop terms (do return ([], ← term)) fun s => termsTurn s.1 s.2 := by
  refine .of_rest progresses_terms (fun s => do
    match ← separator? with
    | none => return s.1 ++ [s.2]
    | some separator => return s.1 ++ { s.2 with separator } :: (← terms)) (fun s => ?_) ?_
  · rw [termsTurn]
    simp only [bind_assoc]
    refine bind_congr fun s? => ?_
    cases s? with
    | none => simp
    | some separator =>
      dsimp only
      conv => lhs; rw [terms.eq_1]
      simp only [bind_assoc, pure_bind]
      refine bind_congr fun t => bind_congr fun s? => ?_
      cases s? with
      | none => simp
      | some separator => simp
  · conv => lhs; rw [terms.eq_1]
    simp only [bind_assoc, pure_bind]
    refine bind_congr fun t => bind_congr fun s? => ?_
    cases s? with
    | none => simp
    | some separator => simp

theorem isLoop_chains : IsLoop chains (do return [← chain]) chainsTurn := by
  refine .of_rest progresses_chains (fun cs => do
    if ← nextIs (·.isMark .comma) then
      let _ ← bump
      let _ ← skipTrivia
      return cs ++ (← chains)
    else return cs) (fun cs => ?_) ?_
  · rw [chainsTurn]
    simp only [bind_assoc]
    refine bind_congr fun comma => ?_
    cases comma with
    | false => simp
    | true =>
      conv => lhs; rw [chains.eq_1]
      simp only [bind_assoc, pure_bind, if_true]
      refine bind_congr fun _ => bind_congr fun _ => bind_congr fun c => bind_congr fun comma => ?_
      cases comma with
      | false => simp
      | true => simp
  · conv => lhs; rw [chains.eq_1]
    simp

theorem isLoop_chain : IsLoop chain (do return [← link .first]) linksTurn := by
  refine .of_rest progresses_links (fun ls => do return ⟨ls ++ (← moreLinks)⟩) (fun ls => ?_) ?_
  · conv => lhs; rw [moreLinks.eq_1]
    rw [linksTurn]
    simp only [bind_assoc]
    refine bind_congr fun c? => ?_
    cases c? with
    | none => simp
    | some c => simp
  · simp [chain]

theorem isLoop_conditions : IsLoop conditions (pure []) conditionsTurn := by
  refine .of_rest progresses_conditions
    (fun cs => do return cs.foldr Grammar.joinCondition (← conditions)) (fun cs => ?_) ?_
  · conv => lhs; rw [conditions.eq_1]
    rw [conditionsTurn]
    simp only [bind_assoc]
    refine bind_congr fun c? => ?_
    cases c? with
    | none => simp
    | some c => simp
  · simp

theorem isLoop_mediaList : IsLoop mediaList (do return [← ident .medium]) mediaTurn := by
  refine .of_rest progresses_media (fun names => do
    let _ ← skipTrivia
    if ← nextIs (·.isMark .comma) then
      let _ ← bump
      let _ ← skipTrivia
      return names ++ (← mediaList)
    else return names) (fun names => ?_) ?_
  · rw [mediaTurn]
    simp only [bind_assoc]
    refine bind_congr fun _ => bind_congr fun comma => ?_
    cases comma with
    | false => simp
    | true =>
      conv => lhs; rw [mediaList.eq_1]
      simp only [bind_assoc, pure_bind, if_true]
      refine bind_congr fun _ => bind_congr fun _ => bind_congr fun name =>
        bind_congr fun _ => bind_congr fun comma => ?_
      cases comma with
      | false => simp
      | true => simp
  · conv => lhs; rw [mediaList.eq_1]
    simp

theorem isLoop_coreTail (atRule : Bool) :
    IsLoop (coreTail atRule) (pure ()) fun _ => coreTailTurn atRule := by
  refine .of_rest (progresses_coreTail atRule) (fun _ => coreTail atRule) (fun _ => ?_) rfl
  conv => lhs; rw [coreTail.eq_1]
  rw [coreTailTurn]
  simp only [bind_assoc]
  refine bind_congr fun t? => ?_
  cases t? with
  | none => simp
  | some t =>
    dsimp only
    split
    · simp
    · split
      · simp
      · simp

theorem isLoop_contents (closer : Mark) :
    IsLoop (contents closer) (pure ()) fun _ => contentsTurn closer := by
  refine .of_rest (progresses_contents closer) (fun _ => contents closer) (fun _ => ?_) rfl
  conv => lhs; rw [contents.eq_1]
  rw [contentsTurn]
  simp only [bind_assoc]
  refine bind_congr fun t? => ?_
  cases t? with
  | none => simp
  | some t =>
    dsimp only
    split
    · simp
    · split
      · simp
      · split
        · simp
        · simp

/-! ### Calls -/

/-- **A reader comes to an end.**  Every call ends, whatever was called before.  And every loop of
the reader progresses: a turn that does not leave the loop leaves fewer tokens to be read, also
where an attempt failed and the reader went back before it skipped anything. -/
theorem call_ends (source : TokenStream) (options : ParseOptions) (cs : List Call) (c : Call) :
    (∃ r result r', (ofStream source options).calls cs = some r ∧ r.call c = some (result, r')) ∧
      IsLoop (statements .start) (pure .start) statementsTurn ∧
      IsLoop mediaBody (pure ()) (fun _ => mediaBodyTurn) ∧
      (∀ inBlock, IsLoop (declarations inBlock (sinkOf inBlock)) (pure [])
        (declarationsTurn inBlock)) ∧
      (∀ inBlock, IsLoop (skipMalformed inBlock [] false) (pure ([], false))
        fun s => malformedTurn inBlock s.1 s.2) ∧
      IsLoop terms (do return ([], ← term)) (fun s => termsTurn s.1 s.2) ∧
      IsLoop chains (do return [← chain]) chainsTurn ∧
      IsLoop chain (do return [← link .first]) linksTurn ∧
      IsLoop conditions (pure []) conditionsTurn ∧
      IsLoop mediaList (do return [← ident .medium]) mediaTurn ∧
      (∀ atRule, IsLoop (coreTail atRule) (pure ()) fun _ => coreTailTurn atRule) ∧
      ∀ closer, IsLoop (contents closer) (pure ()) fun _ => contentsTurn closer := by
  obtain ⟨r, hr, hk, -⟩ := calls_eq cs (ofStream source options) rfl
  obtain ⟨r', hr', -⟩ := call_eq c r hk.depth
  exact ⟨⟨r, _, r', hr, hr'⟩, isLoop_statements, isLoop_mediaBody, isLoop_declarations,
    isLoop_skipMalformed, isLoop_terms, isLoop_chains, isLoop_chain, isLoop_conditions,
    isLoop_mediaList, isLoop_coreTail, isLoop_contents⟩

end Reader

end Css2
