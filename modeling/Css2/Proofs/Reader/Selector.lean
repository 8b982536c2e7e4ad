import Css2.Proofs.Reader.Reads
import Css2.Reader.Selector

/-!
# Readers of selectors

A reader reads the selectors of the grammar (`Reader.reads_selector`), link by link and condition by
condition.
-/

namespace Css2

namespace Reader

/-! ### Conditions -/

theorem reads_attributeValue (r : Reader) :
    Reads attributeValue r (Grammar.attributeValue r.unread) := by
  refine Reads.peek ?_
  cases hu : r.unread with
  | nil => exact reads_unexpected_of hu _
  | cons t rest =>
    obtain ⟨l, loc⟩ := t
    cases l with
    | ident value => exact .bump hu fun r' _ hu' => .pure _ hu'
    | string value => exact .bump hu fun r' _ hu' => .pure _ hu'
    | _ => exact reads_unexpected_of hu _

theorem reads_attributeSel {r : Reader} {loc : Location} {rest : List Token}
    (hu : r.unread = ⟨.mark .openBracket, loc⟩ :: rest) :
    Reads attributeSel r (Grammar.attributeSel rest) := by
  have hopen := reads_expect .openBracket r
  rw [hu] at hopen
  unfold Grammar.attributeSel
  refine hopen.step fun r₁ _ hu₁ => .skipTrivia fun r₂ _ hu₂ => ?_
  rw [hu₁] at hu₂
  rw [← hu₂]
  refine .bind (reads_ident _ r₂) fun name r₃ _ _ => .skipTrivia fun r₄ _ hu₄ => .peek ?_
  dsimp only
  rw [← hu₄]
  cases hu₅ : r₄.unread with
  | nil => exact reads_unexpected_of hu₅ _
  | cons t rest =>
    dsimp only [List.head?_cons]
    split
    · exact .bump hu₅ fun r₅ _ hu₆ => .pure _ hu₆
    · cases Grammar.attributeTest? t.lexeme with
      | none => exact reads_unexpected_of hu₅ _
      | some test =>
        refine .bump hu₅ fun r₅ _ hu₆ => .skipTrivia fun r₆ _ hu₇ => ?_
        rw [hu₆] at hu₇
        dsimp only
        rw [← hu₇]
        refine .bind (reads_attributeValue r₆) fun value r₇ _ _ => .skipTrivia fun r₈ _ hu₈ => ?_
        dsimp only
        rw [← hu₈]
        exact .bind_rest (reads_expect _ r₈) fun r₉ _ _ => .pure _ rfl

theorem reads_pseudo {r : Reader} {loc : Location} {rest : List Token}
    (hu : r.unread = ⟨.mark .colon, loc⟩ :: rest) :
    Reads pseudo r (Grammar.pseudo rest) := by
  have hcolon := reads_expect .colon r
  rw [hu] at hcolon
  refine hcolon.step fun r₁ _ hu₁ => .peek ?_
  rw [hu₁]
  cases rest with
  | nil => exact reads_unexpected_of hu₁ _
  | cons t rest =>
    obtain ⟨l, loc⟩ := t
    cases l with
    | ident name => exact .bump hu₁ fun r₂ _ hu₂ => .pure _ hu₂
    | function name =>
      refine .bump hu₁ fun r₂ _ hu₂ => .skipTrivia fun r₃ _ hu₃ => ?_
      rw [hu₂] at hu₃
      rw [Grammar.pseudo, ← hu₃]
      refine .bind (reads_ident _ r₃) fun argument r₄ _ _ => .skipTrivia fun r₅ _ hu₅ => ?_
      dsimp only
      rw [← hu₅]
      exact .bind_rest (reads_expect _ r₅) fun r₆ _ _ => .pure _ rfl
    | _ => exact reads_unexpected_of hu₁ _

def conditionOf (ts : List Token) : Except Failure (Option Condition × List Token) :=
  (Grammar.condition? ts).map fun
    | none => (none, ts)
    | some (c, rest) => (some c, rest)

theorem reads_condition? (r : Reader) : Reads condition? r (conditionOf r.unread) := by
  refine Reads.peek ?_
  cases hu : r.unread with
  | nil => exact .pure _ hu
  | cons t rest =>
    obtain ⟨l, loc⟩ := t
    cases l with
    | hash name isIdent =>
      cases isIdent with
      | true => exact .bump hu fun r₁ _ hu₁ => .pure _ hu₁
      | false => exact reads_unexpected_of hu _
    | delim c =>
      rw [conditionOf, Grammar.condition?]
      show Reads (if c = '.' then _ else _) _ _
      by_cases hc : c = '.'
      · rw [if_pos hc, if_pos hc, map_bind]
        refine .bump hu fun r₁ _ hu₁ => ?_
        rw [← hu₁]
        exact .bind (reads_ident _ r₁) fun name r₂ _ _ => .pure _ rfl
      · rw [if_neg hc, if_neg hc]
        exact .pure _ hu
    | mark m =>
      cases m with
      | openBracket =>
        rw [conditionOf, Grammar.condition?, map_bind]
        exact .bind (reads_attributeSel hu) fun test r₁ _ _ => .pure _ rfl
      | colon =>
        rw [conditionOf, Grammar.condition?, map_bind]
        exact .bind (reads_pseudo hu) fun p r₁ _ _ => .pure _ rfl
      | _ => exact .pure _ hu
    | _ => exact .pure _ hu

theorem conditions_eq_conditionOf (ts : List Token) :
    Grammar.conditions ts = (do
      let (c?, rest) ← conditionOf ts
      match c? with
      | none => .ok ([], rest)
      | some c => do
        let (cs, final) ← Grammar.conditions rest
        .ok (Grammar.joinCondition c cs, final)) := by
  rw [Grammar.conditions_eq, conditionOf]
  cases Grammar.condition? ts with
  | error e => rfl
  | ok x => cases x <;> rfl

theorem conditionOf_lt {ts rest : List Token} {c : Condition}
    (h : conditionOf ts = .ok (some c, rest)) : rest.length < ts.length := by
  unfold conditionOf at h
  obtain ⟨x, hx, h⟩ := Grammar.map_eq_ok h
  cases x with
  | none => cases h
  | some x =>
    cases h
    exact Grammar.condition?_lt hx

theorem reads_conditions (r : Reader) : Reads conditions r (Grammar.conditions r.unread) := by
  induction hn : r.unread.length using Nat.strongRecOn generalizing r with
  | ind n ih =>
    subst hn
    rw [conditions.eq_1, conditions_eq_conditionOf]
    refine .bind (reads_condition? r) fun c? r₁ _ hc => ?_
    dsimp only
    cases c? with
    | none => exact .pure _ rfl
    | some c => exact .bind (ih _ (conditionOf_lt hc) r₁ rfl) fun cs r₂ _ _ => .pure _ rfl

/-! ### Links -/

theorem reads_elementName? (r : Reader) :
    Reads elementName? r (match Grammar.elementName? r.unread with
      | some (name, rest) => .ok (some name, rest)
      | none => .ok (none, r.unread)) := by
  refine Reads.peek ?_
  cases hu : r.unread with
  | nil => exact .pure _ hu
  | cons t rest =>
    obtain ⟨l, loc⟩ := t
    cases l with
    | ident name => exact .bump hu fun r₁ _ hu₁ => .pure _ hu₁
    | delim c =>
      rw [Grammar.elementName?]
      show Reads (if c = '*' then _ else _) _ _
      by_cases hc : c = '*'
      · rw [if_pos hc, if_pos hc]
        exact .bump hu fun r₁ _ hu₁ => .pure _ hu₁
      · rw [if_neg hc, if_neg hc]
        exact .pure _ hu
    | _ => exact .pure _ hu

theorem eq_of_conditions_nil {ts rest : List Token} (h : Grammar.conditions ts = .ok ([], rest)) :
    rest = ts := by
  rw [Grammar.conditions_eq] at h
  split at h
  · cases h
  · cases h
    rfl
  · next c after _ =>
    obtain ⟨⟨cs, final⟩, _, h⟩ := Grammar.bind_eq_ok h
    have hjoin : Grammar.joinCondition c cs = [] := congrArg Prod.fst (Except.ok.inj h)
    unfold Grammar.joinCondition at hjoin
    split at hjoin <;> cases hjoin

theorem reads_link (combinator : Combinator) (r : Reader) :
    Reads (link combinator) r (Grammar.link combinator r.unread) := by
  have hname := reads_elementName? r
  unfold Grammar.link
  split
  · next name rest h =>
    rw [h] at hname
    refine hname.step fun r₁ _ hu₁ => ?_
    rw [← hu₁]
    exact .bind (reads_conditions r₁) fun cs r₂ _ _ => .pure _ rfl
  · next h =>
    rw [h] at hname
    refine hname.step fun r₁ _ hu₁ => ?_
    rw [← hu₁]
    refine .bind (reads_conditions r₁) fun cs r₂ _ hcs => ?_
    dsimp only
    cases cs with
    | nil => exact reads_unexpected_of (eq_of_conditions_nil hcs) _
    | cons c cs => exact .pure _ rfl

/-- What joins a link to the next one, or nothing, and what is left. -/
def combinatorOf (ts : List Token) : Except Failure (Option Combinator × List Token) :=
  (Grammar.combinator? ts).map fun
    | none => (none, Grammar.skipTrivia ts)
    | some (c, rest) => (some c, rest)

theorem reads_combinator? (r : Reader) : Reads combinator? r (combinatorOf r.unread) := by
  unfold combinatorOf Grammar.combinator?
  refine .skipTrivia fun r₁ _ hu₁ => .peek ?_
  rw [← hu₁]
  cases hu : r₁.unread with
  | nil => exact .pure _ hu
  | cons t rest =>
    dsimp only [List.head?_cons]
    split
    · exact .bump hu fun r₂ _ hu₂ => .skipTrivia fun r₃ _ hu₃ => .pure _ (by rw [hu₃, hu₂])
    · split
      · exact .bump hu fun r₂ _ hu₂ => .skipTrivia fun r₃ _ hu₃ => .pure _ (by rw [hu₃, hu₂])
      · split
        · exact .pure _ hu
        · split
          · exact .pure _ hu
          · exact reads_unexpected_of hu _

theorem moreLinks_eq_combinatorOf (ts : List Token) :
    Grammar.moreLinks ts = (do
      let (c?, rest) ← combinatorOf ts
      match c? with
      | none => .ok ([], rest)
      | some c => do
        let (l, rest) ← Grammar.link c rest
        let (ls, final) ← Grammar.moreLinks rest
        .ok (l :: ls, final)) := by
  rw [Grammar.moreLinks_eq, combinatorOf]
  cases Grammar.combinator? ts with
  | error e => rfl
  | ok x => cases x <;> rfl

theorem combinatorOf_le {ts rest : List Token} {c : Combinator}
    (h : combinatorOf ts = .ok (some c, rest)) : rest.length ≤ ts.length := by
  unfold combinatorOf at h
  obtain ⟨x, hx, h⟩ := Grammar.map_eq_ok h
  cases x with
  | none => cases h
  | some x =>
    cases h
    exact Grammar.combinator?_le hx

theorem reads_moreLinks (r : Reader) : Reads moreLinks r (Grammar.moreLinks r.unread) := by
  induction hn : r.unread.length using Nat.strongRecOn generalizing r with
  | ind n ih =>
    subst hn
    rw [moreLinks.eq_1, moreLinks_eq_combinatorOf]
    refine .bind (reads_combinator? r) fun c? r₁ _ hc => ?_
    dsimp only
    cases c? with
    | none => exact .pure _ rfl
    | some c =>
      refine .bind (reads_link c r₁) fun l r₂ _ hl => ?_
      have hlt := Nat.lt_of_lt_of_le (Grammar.link_lt hl) (combinatorOf_le hc)
      exact .bind (ih _ hlt r₂ rfl) fun ls r₃ _ _ => .pure _ rfl

/-! ### Chains and groups -/

theorem reads_chain (r : Reader) : Reads chain r (Grammar.chain r.unread) := by
  unfold Grammar.chain
  refine .bind (reads_link .first r) fun l r₁ _ _ => ?_
  exact .bind (reads_moreLinks r₁) fun ls r₂ _ _ => .pure _ rfl

theorem chains_eq_bind (ts : List Token) :
    Grammar.chains ts = (do
      let (c, rest) ← Grammar.chain ts
      match rest with
      | ⟨.mark .comma, _⟩ :: rest => do
        let (cs, final) ← Grammar.chains (Grammar.skipTrivia rest)
        .ok (c :: cs, final)
      | rest => .ok ([c], rest)) := by
  rw [Grammar.chains_eq]
  cases Grammar.chain ts with
  | error e => rfl
  | ok x =>
    obtain ⟨c, rest⟩ := x
    cases rest with
    | nil => rfl
    | cons t rest =>
      obtain ⟨l, loc⟩ := t
      cases l with
      | mark m => cases m <;> rfl
      | _ => rfl

theorem reads_chains (r : Reader) : Reads chains r (Grammar.chains r.unread) := by
  induction hn : r.unread.length using Nat.strongRecOn generalizing r with
  | ind n ih =>
    subst hn
    rw [chains.eq_1, chains_eq_bind]
    refine .bind (reads_chain r) fun c r₁ _ hc => ?_
    have hlt := Grammar.chain_lt hc
    cases hu : r₁.unread with
    | nil => exact .nextIs (b := false) (by rw [hu]; rfl) (.pure _ hu)
    | cons t rest =>
      rw [hu, List.length_cons] at hlt
      obtain ⟨l, loc⟩ := t
      have hlast : l.isMark .comma = false →
          Reads (do
            if ← nextIs (·.isMark .comma) then
              let _ ← bump
              let _ ← skipTrivia
              let cs ← chains
              return c :: cs
            else return [c]) r₁ (.ok ([c], ⟨l, loc⟩ :: rest)) := fun hl =>
        .nextIs (b := false) (by rw [hu]; exact hl) (.pure _ hu)
      cases l with
      | mark m =>
        cases m with
        | comma =>
          refine .nextIs (b := true) (by rw [hu]; rfl) ?_
          refine .bump hu fun r₂ _ hu₂ => .skipTrivia fun r₃ _ hu₃ => ?_
          rw [hu₂] at hu₃
          have hle := Grammar.skipTrivia_le rest
          dsimp only
          rw [← hu₃]
          refine .bind (ih _ ?_ r₃ rfl) fun cs r₄ _ _ => .pure _ rfl
          rw [hu₃]
          omega
        | _ => exact hlast rfl
      | _ => exact hlast rfl

/-- **A reader reads the selectors of the grammar.** -/
theorem reads_selector (r : Reader) : Reads selector r (Grammar.selector r.unread) := by
  unfold Grammar.selector
  exact .bind (reads_chains r) fun cs r₁ _ _ => .pure _ rfl

end Reader

end Css2
