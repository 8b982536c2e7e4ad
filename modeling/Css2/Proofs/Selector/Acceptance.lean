import Css2.Proofs.Reader.Depth
import Css2.Proofs.Selector.Derivation

/-!
# Which tokens are a selector

The grammar reads a selector just from the tokens that have a derivation, followed by trivia and
then by an opening brace or by nothing, and what it gives back is what the derivation means
(`Derivation.selector_iff`).  There is such an equivalence for each production, and it has to say
what may follow: a production reads as much as it can, so it stops where the next token does not go
on.  Since tokens have at most one derivation, the reading is the only one.
-/

namespace Css2

namespace Derivation

/-! ### Tokens of lexemes -/

/-- The tokens `ts` begin with tokens of the lexemes `ls`, and `rest` is left. -/
def Spells (ls : List Lexeme) (ts rest : List Token) : Prop :=
  ∃ read, ts = read ++ rest ∧ read.map Token.lexeme = ls

variable {ls ks : List Lexeme} {ts us rest : List Token}

theorem spells_nil : Spells [] ts rest ↔ ts = rest := by
  constructor
  · rintro ⟨read, rfl, hread⟩
    rw [List.map_eq_nil_iff.1 hread]
    rfl
  · rintro rfl
    exact ⟨[], rfl, rfl⟩

theorem spells_cons {l : Lexeme} :
    Spells (l :: ls) ts rest ↔ ∃ loc us, ts = ⟨l, loc⟩ :: us ∧ Spells ls us rest := by
  constructor
  · rintro ⟨read, rfl, hread⟩
    obtain ⟨⟨k, loc⟩, us, rfl, rfl, hus⟩ := List.map_eq_cons_iff.1 hread
    exact ⟨loc, us ++ rest, rfl, us, rfl, hus⟩
  · rintro ⟨loc, _, rfl, read, rfl, rfl⟩
    exact ⟨⟨l, loc⟩ :: read, rfl, rfl⟩

theorem spells_append :
    Spells (ls ++ ks) ts rest ↔ ∃ us, Spells ls ts us ∧ Spells ks us rest := by
  constructor
  · rintro ⟨read, rfl, hread⟩
    obtain ⟨as, bs, rfl, has, hbs⟩ := List.map_eq_append_iff.1 hread
    exact ⟨bs ++ rest, ⟨as, List.append_assoc .., has⟩, bs, rfl, hbs⟩
  · rintro ⟨_, ⟨as, rfl, rfl⟩, bs, rfl, rfl⟩
    exact ⟨as ++ bs, (List.append_assoc ..).symm, List.map_append ..⟩

theorem Spells.lexemes_eq (h : Spells ls ts rest) :
    ts.map Token.lexeme = ls ++ rest.map Token.lexeme := by
  obtain ⟨read, rfl, rfl⟩ := h
  exact List.map_append ..

theorem Spells.single (l : Lexeme) (loc : Location) (rest : List Token) :
    Spells [l] (⟨l, loc⟩ :: rest) rest :=
  ⟨[⟨l, loc⟩], rfl, rfl⟩

/-! ### Trivia -/

theorem lexemes_skipTrivia (ts : List Token) :
    (Grammar.skipTrivia ts).map Token.lexeme
      = (ts.map Token.lexeme).dropWhile Lexeme.isTrivia := by
  rw [List.dropWhile_map]
  rfl

theorem front_lexemes (ts : List Token) :
    front (ts.map Token.lexeme) = ((Grammar.skipTrivia ts).map Token.lexeme).head? := by
  rw [lexemes_skipTrivia, front]

theorem solid_skipTrivia (ts : List Token) :
    Solid ((Grammar.skipTrivia ts).map Token.lexeme) := by
  rw [lexemes_skipTrivia]
  intro l hl
  have := List.head?_dropWhile_not Lexeme.isTrivia (ts.map Token.lexeme)
  rw [hl] at this
  exact this

theorem exists_padding (ts : List Token) :
    ∃ p : Padding, Spells p.lexemes ts (Grammar.skipTrivia ts) ∧
      (Grammar.spaced ts = true → .whitespace ∈ p.lexemes) := by
  refine ⟨⟨(ts.takeWhile fun t => t.lexeme.isTrivia).map Token.lexeme, ?_⟩,
    ⟨_, List.takeWhile_append_dropWhile.symm, rfl⟩, ?_⟩
  · intro l hl
    obtain ⟨t, ht, rfl⟩ := List.mem_map.1 hl
    exact List.mem_takeWhile_imp (p := fun t : Token => t.lexeme.isTrivia) ht
  · intro h
    obtain ⟨⟨l, loc⟩, ht, hl⟩ := List.any_eq_true.1 h
    refine List.mem_map.2 ⟨_, ht, ?_⟩
    cases l <;> first | rfl | cases hl

theorem Padding.skipTrivia_eq {p : Padding} (h : Spells p.lexemes ts rest)
    (hrest : Solid (rest.map Token.lexeme)) : Grammar.skipTrivia ts = rest := by
  obtain ⟨read, rfl, hread⟩ := h
  rw [Grammar.skipTrivia, List.dropWhile_append_of_pos]
  · cases rest with
    | nil => rfl
    | cons t rest => exact List.dropWhile_cons_of_neg (by simp [hrest t.lexeme rfl])
  · intro t ht
    exact p.isTrivia _ (hread ▸ List.mem_map_of_mem ht)

theorem Padding.spaced_eq {p : Padding} (h : Spells p.lexemes ts rest)
    (hspace : .whitespace ∈ p.lexemes) : Grammar.spaced ts = true := by
  obtain ⟨read, rfl, hread⟩ := h
  rw [← hread] at hspace
  obtain ⟨t, ht, hl⟩ := List.mem_map.1 hspace
  rw [Grammar.spaced, List.takeWhile_append_of_pos]
  · refine List.any_eq_true.2 ⟨t, List.mem_append_left _ ht, ?_⟩
    rw [hl]
    rfl
  · intro t ht
    exact p.isTrivia _ (hread ▸ List.mem_map_of_mem ht)

/-! ### Conditions -/

theorem attributeTest?_iff {l : Lexeme} {test : AttributeTest} :
    Grammar.attributeTest? l = some test ↔
      ∃ c : Comparator, c.lexeme = l ∧ c.test = test := by
  constructor
  · intro h
    unfold Grammar.attributeTest? at h
    split at h
    · split at h
      · next hc =>
        cases h
        exact ⟨.equals, hc ▸ rfl, rfl⟩
      · cases h
    · cases h
      exact ⟨.includes, rfl, rfl⟩
    · cases h
      exact ⟨.dashMatch, rfl, rfl⟩
    · cases h
  · rintro ⟨c, rfl, rfl⟩
    cases c <;> rfl

theorem attributeValue_iff {value : String} :
    Grammar.attributeValue ts = .ok (value, rest) ↔
      ∃ o : Operand, o.value = value ∧ Spells [o.lexeme] ts rest := by
  constructor
  · intro h
    unfold Grammar.attributeValue at h
    split at h
    · cases h
      exact ⟨.ident value, rfl, .single _ _ _⟩
    · cases h
      exact ⟨.string value, rfl, .single _ _ _⟩
    · cases h
  · rintro ⟨o, rfl, h⟩
    obtain ⟨loc, us, rfl, hus⟩ := spells_cons.1 h
    rw [spells_nil.1 hus]
    cases o <;> rfl

theorem attributeSel_of_spells {p : Predicate} {loc : Location}
    (h : Spells p.lexemes (⟨.mark .openBracket, loc⟩ :: ts) rest) :
    Grammar.attributeSel ts = .ok (p.sel, rest) := by
  obtain ⟨_, _, ⟨⟩, hinner⟩ := spells_cons.1 h
  obtain ⟨_, hbefore, hnamed⟩ := spells_append.1 hinner
  obtain ⟨locName, us, rfl, hbehind⟩ := spells_cons.1 hnamed
  obtain ⟨vs, hafter, hcomparison⟩ := spells_append.1 hbehind
  have hname := p.before.skipTrivia_eq hbefore (solid_cons rfl _)
  have htest : Grammar.skipTrivia us = vs := by
    refine p.after.skipTrivia_eq hafter ?_
    rw [hcomparison.lexemes_eq, List.append_assoc]
    exact Predicate.solid_comparison? p.comparison _
  rw [Grammar.attributeSel, hname]
  dsimp only [Grammar.ident, bind, Except.bind]
  rw [htest, Predicate.sel]
  cases hc : p.comparison with
  | none =>
    rw [hc] at hcomparison
    obtain ⟨_, _, rfl, hend⟩ := spells_cons.1 hcomparison
    rw [spells_nil.1 hend]
    rfl
  | some c =>
    rw [hc] at hcomparison
    obtain ⟨locTest, ws, rfl, hcompared⟩ := spells_cons.1 hcomparison
    obtain ⟨_, hvalued, hclose⟩ := spells_append.1 hcompared
    obtain ⟨_, hbefore', hvalue⟩ := spells_append.1 hvalued
    obtain ⟨locValue, xs, rfl, hafter'⟩ := spells_cons.1 hvalue
    obtain ⟨locClose, _, rfl, hend⟩ := spells_cons.1 hclose
    obtain rfl := spells_nil.1 hend
    have hoperand := c.before.skipTrivia_eq hbefore' (solid_cons c.operand.isTrivia_lexeme _)
    have hbracket := c.after.skipTrivia_eq hafter' (solid_cons rfl _)
    have hread := attributeValue_iff.2 ⟨c.operand, rfl, Spells.single c.operand.lexeme locValue xs⟩
    have hopen : c.comparator.lexeme.isMark .closeBracket = false := by cases c.comparator <;> rfl
    simp only [hopen, attributeTest?_iff.2 ⟨c.comparator, rfl, rfl⟩, hoperand, hread, hbracket,
      Grammar.expect]
    rfl

theorem exists_comparison {test : AttributeTest} {l : Lexeme} {loc : Location} {value : String}
    (htest : Grammar.attributeTest? l = some test)
    (hvalue : Grammar.attributeValue (Grammar.skipTrivia ts) = .ok (value, us))
    (hclose : Grammar.expect .closeBracket (Grammar.skipTrivia us) = .ok rest) :
    ∃ c : Comparison, c.comparator.test = test ∧ c.operand.value = value ∧
      Spells (c.lexemes ++ [.mark .closeBracket]) (⟨l, loc⟩ :: ts) rest := by
  obtain ⟨comparator, rfl, rfl⟩ := attributeTest?_iff.1 htest
  obtain ⟨operand, rfl, hoperand⟩ := attributeValue_iff.1 hvalue
  obtain ⟨before, hbefore, -⟩ := exists_padding ts
  obtain ⟨after, hafter, -⟩ := exists_padding us
  obtain ⟨locClose, hclose⟩ := Grammar.expect_eq_ok hclose
  rw [hclose] at hafter
  refine ⟨⟨comparator, before, operand, after⟩, rfl, rfl, ?_⟩
  refine spells_cons.2 ⟨loc, ts, rfl, spells_append.2 ⟨_, ?_, .single _ locClose rest⟩⟩
  obtain ⟨locValue, xs, hvalue, hxs⟩ := spells_cons.1 hoperand
  rw [spells_nil.1 hxs] at hvalue
  exact spells_append.2 ⟨_, hbefore, spells_cons.2 ⟨locValue, us, hvalue, hafter⟩⟩

theorem exists_predicate {a : AttributeSel} (h : Grammar.attributeSel ts = .ok (a, rest))
    (loc : Location) :
    ∃ p : Predicate, p.sel = a ∧ Spells p.lexemes (⟨.mark .openBracket, loc⟩ :: ts) rest := by
  obtain ⟨⟨name, us⟩, hname, h⟩ := Grammar.bind_eq_ok h
  obtain ⟨locName, hts⟩ := Grammar.ident_eq_ok hname
  obtain ⟨before, hbefore, -⟩ := exists_padding ts
  obtain ⟨after, hafter, -⟩ := exists_padding us
  rw [hts] at hbefore
  have hspells : ∀ c : Option Comparison,
      Spells (c.elim [] Comparison.lexemes ++ [.mark .closeBracket]) (Grammar.skipTrivia us) rest →
      Spells (Predicate.mk before name after c).lexemes (⟨.mark .openBracket, loc⟩ :: ts) rest :=
    fun c hc => spells_cons.2 ⟨loc, ts, rfl, spells_append.2 ⟨_, hbefore,
      spells_cons.2 ⟨locName, us, rfl, spells_append.2 ⟨_, hafter, hc⟩⟩⟩⟩
  dsimp only at h
  split at h
  · cases h
  · next t ws hus =>
    rw [hus] at hspells
    obtain ⟨l, locTest⟩ := t
    split at h
    · next hclose =>
      cases h
      obtain rfl := Grammar.isMark_iff.1 hclose
      exact ⟨⟨before, name, after, none⟩, rfl, hspells none (.single _ _ _)⟩
    · split at h
      · cases h
      · next test htest =>
        obtain ⟨⟨value, xs⟩, hvalue, h⟩ := Grammar.bind_eq_ok h
        obtain ⟨ys, hclose, h⟩ := Grammar.bind_eq_ok h
        cases h
        obtain ⟨c, rfl, rfl, hc⟩ := exists_comparison htest hvalue hclose
        exact ⟨⟨before, name, after, some c⟩, rfl, hspells (some c) hc⟩

theorem pseudo_of_spells {p : PseudoName} {loc : Location}
    (h : Spells p.lexemes (⟨.mark .colon, loc⟩ :: ts) rest) :
    Grammar.pseudo ts = .ok (p.pseudo, rest) := by
  cases p with
  | plain name =>
    obtain ⟨_, _, ⟨⟩, hname⟩ := spells_cons.1 h
    obtain ⟨_, _, rfl, hend⟩ := spells_cons.1 hname
    rw [spells_nil.1 hend]
    rfl
  | applied name before argument after =>
    obtain ⟨_, _, ⟨⟩, hname⟩ := spells_cons.1 h
    obtain ⟨_, us, rfl, hinner⟩ := spells_cons.1 hname
    obtain ⟨_, hbefore, hargument⟩ := spells_append.1 hinner
    obtain ⟨_, vs, rfl, hbehind⟩ := spells_cons.1 hargument
    obtain ⟨_, hafter, hclose⟩ := spells_append.1 hbehind
    obtain ⟨_, _, rfl, hend⟩ := spells_cons.1 hclose
    obtain rfl := spells_nil.1 hend
    simp only [Grammar.pseudo, before.skipTrivia_eq hbefore (solid_cons rfl _), Grammar.ident, bind,
      Except.bind, after.skipTrivia_eq hafter (solid_cons rfl _), Grammar.expect]
    rfl

theorem exists_pseudoName {p : Pseudo} (h : Grammar.pseudo ts = .ok (p, rest)) (loc : Location) :
    ∃ q : PseudoName, q.pseudo = p ∧ Spells q.lexemes (⟨.mark .colon, loc⟩ :: ts) rest := by
  unfold Grammar.pseudo at h
  split at h
  · next name locName us =>
    cases h
    exact ⟨.plain name, rfl, [⟨.mark .colon, loc⟩, ⟨.ident name, locName⟩], rfl, rfl⟩
  · next name locName us =>
    obtain ⟨⟨argument, vs⟩, hargument, h⟩ := Grammar.bind_eq_ok h
    obtain ⟨ws, hclose, h⟩ := Grammar.bind_eq_ok h
    cases h
    obtain ⟨locArgument, hargument⟩ := Grammar.ident_eq_ok hargument
    obtain ⟨locClose, hclose⟩ := Grammar.expect_eq_ok hclose
    obtain ⟨before, hbefore, -⟩ := exists_padding us
    obtain ⟨after, hafter, -⟩ := exists_padding vs
    rw [hargument] at hbefore
    rw [hclose] at hafter
    refine ⟨.applied name before argument after, rfl, spells_cons.2 ⟨loc, _, rfl, ?_⟩⟩
    refine spells_cons.2 ⟨locName, us, rfl, spells_append.2 ⟨_, hbefore, ?_⟩⟩
    refine spells_cons.2 ⟨locArgument, vs, rfl, spells_append.2 ⟨_, hafter, ?_⟩⟩
    exact .single _ locClose rest
  · cases h

def Part.condition : Part → Condition
  | id name => .id name
  | className name => .className name
  | predicate p => .attributes [p.sel]
  | pseudo p => .pseudo p.pseudo

theorem conditions_cons (p : Part) (ps : List Part) :
    conditions (p :: ps) = Grammar.joinCondition p.condition (conditions ps) := by
  cases p with
  | predicate p =>
    rw [conditions, Part.condition]
    cases conditions ps with
    | nil => rfl
    | cons c cs => cases c <;> rfl
  | _ => rfl

theorem condition?_of_spells {p : Part} (h : Spells p.lexemes ts rest) :
    Grammar.condition? ts = .ok (some (p.condition, rest)) := by
  cases p with
  | id name =>
    obtain ⟨_, _, rfl, hend⟩ := spells_cons.1 h
    rw [spells_nil.1 hend]
    rfl
  | className name =>
    obtain ⟨_, _, rfl, hname⟩ := spells_cons.1 h
    obtain ⟨_, _, rfl, hend⟩ := spells_cons.1 hname
    rw [spells_nil.1 hend]
    rfl
  | predicate p =>
    obtain ⟨_, _, rfl, -⟩ := spells_cons.1 h
    rw [Grammar.condition?, attributeSel_of_spells h]
    rfl
  | pseudo p =>
    obtain ⟨loc, us, rfl⟩ : ∃ loc us, ts = ⟨.mark .colon, loc⟩ :: us := by
      cases p with
      | plain => obtain ⟨_, _, rfl, -⟩ := spells_cons.1 h; exact ⟨_, _, rfl⟩
      | applied => obtain ⟨_, _, rfl, -⟩ := spells_cons.1 h; exact ⟨_, _, rfl⟩
    rw [Grammar.condition?, pseudo_of_spells h]
    rfl

theorem exists_part {c : Condition} (h : Grammar.condition? ts = .ok (some (c, rest))) :
    ∃ p : Part, p.condition = c ∧ Spells p.lexemes ts rest := by
  unfold Grammar.condition? at h
  split at h
  · next name isIdent loc us =>
    split at h
    · next hident =>
      cases h
      subst hident
      exact ⟨.id name, rfl, .single _ _ _⟩
    · cases h
  · next c loc us =>
    split at h
    · next hdot =>
      obtain ⟨⟨name, vs⟩, hname, h⟩ := Grammar.bind_eq_ok h
      cases h
      subst hdot
      obtain ⟨locName, rfl⟩ := Grammar.ident_eq_ok hname
      exact ⟨.className name, rfl, [⟨.delim '.', loc⟩, ⟨.ident name, locName⟩], rfl, rfl⟩
    · cases h
  · next loc us =>
    obtain ⟨⟨a, vs⟩, ha, h⟩ := Grammar.bind_eq_ok h
    cases h
    obtain ⟨p, rfl, hp⟩ := exists_predicate ha loc
    exact ⟨.predicate p, rfl, hp⟩
  · next loc us =>
    obtain ⟨⟨a, vs⟩, ha, h⟩ := Grammar.bind_eq_ok h
    cases h
    obtain ⟨p, rfl, hp⟩ := exists_pseudoName ha loc
    exact ⟨.pseudo p, rfl, hp⟩
  · cases h

theorem condition?_of_endsParts (h : EndsParts (ts.map Token.lexeme)) :
    Grammar.condition? ts = .ok none := by
  cases ts with
  | nil => rfl
  | cons t ts =>
    obtain ⟨l, loc⟩ := t
    have hl : startsPart l = false := h l rfl
    cases l with
    | hash name isIdent => cases hl
    | delim c => exact if_neg (of_decide_eq_false hl)
    | mark m => cases m <;> first | rfl | cases hl
    | _ => rfl

theorem endsParts_of_condition? (h : Grammar.condition? ts = .ok none) :
    EndsParts (ts.map Token.lexeme) := by
  cases ts with
  | nil => rintro _ ⟨⟩
  | cons t ts =>
    obtain ⟨l, loc⟩ := t
    rintro _ ⟨⟩
    cases l with
    | hash name isIdent => cases isIdent <;> cases h
    | delim c =>
      refine decide_eq_false fun hdot => ?_
      rw [Grammar.condition?] at h
      dsimp only at h
      rw [if_pos hdot] at h
      obtain ⟨_, -, h⟩ := Grammar.bind_eq_ok h
      cases h
    | mark m =>
      cases m with
      | openBracket | colon =>
        obtain ⟨_, -, h⟩ := Grammar.bind_eq_ok h
        cases h
      | _ => rfl
    | _ => rfl

/-- **Conditions are read from parts**, as many as there are. -/
theorem conditions_iff {cs : List Condition} :
    Grammar.conditions ts = .ok (cs, rest) ↔
      ∃ ps, conditions ps = cs ∧ Spells (ps.flatMap Part.lexemes) ts rest ∧
        EndsParts (rest.map Token.lexeme) := by
  constructor
  · intro h
    fun_induction Grammar.conditions ts generalizing cs rest with
    | case1 => cases h
    | case2 ts hnone =>
      cases h
      exact ⟨[], rfl, spells_nil.2 rfl, endsParts_of_condition? hnone⟩
    | case3 ts c us hc ih =>
      obtain ⟨⟨ds, final⟩, hr, h⟩ := Grammar.bind_eq_ok h
      cases h
      obtain ⟨p, rfl, hp⟩ := exists_part hc
      obtain ⟨ps, rfl, hps, hends⟩ := ih hr
      exact ⟨p :: ps, conditions_cons p ps, spells_append.2 ⟨us, hp, hps⟩, hends⟩
  · rintro ⟨ps, rfl, hps, hends⟩
    induction ps generalizing ts with
    | nil =>
      rw [spells_nil.1 hps, Grammar.conditions_eq, condition?_of_endsParts hends]
      rfl
    | cons p ps ih =>
      obtain ⟨us, hp, hus⟩ := spells_append.1 hps
      rw [Grammar.conditions_eq, condition?_of_spells hp, conditions_cons]
      dsimp only
      rw [ih hus]
      rfl

/-! ### Links -/

theorem Element.elementName?_of_spells {e : Element} (h : Spells [e.lexeme] ts rest) :
    Grammar.elementName? ts = some (e.name?, rest) := by
  obtain ⟨_, _, rfl, hend⟩ := spells_cons.1 h
  rw [spells_nil.1 hend]
  cases e <;> rfl

theorem exists_element {name : Option String} (h : Grammar.elementName? ts = some (name, rest)) :
    ∃ e : Element, e.name? = name ∧ Spells [e.lexeme] ts rest := by
  unfold Grammar.elementName? at h
  split at h
  · cases h
    exact ⟨.named _, rfl, .single _ _ _⟩
  · split at h
    · next hstar =>
      cases h
      subst hstar
      exact ⟨.any, rfl, .single _ _ _⟩
    · cases h
  · cases h

theorem Part.elementName?_eq_none {p : Part} (h : Spells (p.lexemes ++ ls) ts rest) :
    Grammar.elementName? ts = none := by
  cases hname : Grammar.elementName? ts with
  | none => rfl
  | some x =>
    obtain ⟨e, -, he⟩ := exists_element hname
    have heq := he.lexemes_eq.symm.trans h.lexemes_eq
    rw [List.append_assoc] at heq
    exact absurd heq Simple.element_ne_parts

theorem conditions_ne_nil {ps : List Part} (h : ps ≠ []) : conditions ps ≠ [] := by
  cases ps with
  | nil => exact absurd rfl h
  | cons p ps =>
    rw [conditions_cons]
    cases p.condition <;> cases conditions ps with
    | nil => exact List.cons_ne_nil _ _
    | cons c cs => cases c <;> exact List.cons_ne_nil _ _

theorem link_iff {k : Combinator} {l : Link} :
    Grammar.link k ts = .ok (l, rest) ↔
      ∃ s : Simple, s.link k = l ∧ Spells s.lexemes ts rest ∧
        EndsParts (rest.map Token.lexeme) := by
  constructor
  · intro h
    unfold Grammar.link at h
    split at h
    · next name us hname =>
      obtain ⟨⟨cs, final⟩, hr, h⟩ := Grammar.bind_eq_ok h
      cases h
      obtain ⟨e, rfl, he⟩ := exists_element hname
      obtain ⟨ps, rfl, hps, hends⟩ := conditions_iff.1 hr
      exact ⟨⟨some e, ps, nofun⟩, rfl, spells_append.2 ⟨us, he, hps⟩, hends⟩
    · obtain ⟨⟨cs, final⟩, hr, h⟩ := Grammar.bind_eq_ok h
      dsimp only at h
      split at h
      · cases h
      · next hcs =>
        cases h
        obtain ⟨ps, rfl, hps, hends⟩ := conditions_iff.1 hr
        have hne : ps ≠ [] := by
          rintro rfl
          exact hcs rfl
        exact ⟨⟨none, ps, fun _ => hne⟩, rfl, hps, hends⟩
  · rintro ⟨⟨element, ps, hne⟩, rfl, hs, hends⟩
    cases element with
    | some e =>
      obtain ⟨us, he, hps⟩ := spells_append.1 hs
      rw [Grammar.link, e.elementName?_of_spells he]
      dsimp only
      rw [conditions_iff.2 ⟨ps, rfl, hps, hends⟩]
      rfl
    | none =>
      cases ps with
      | nil => exact absurd rfl (hne rfl)
      | cons p ps =>
        rw [Grammar.link, Part.elementName?_eq_none hs]
        dsimp only
        rw [conditions_iff.2 ⟨p :: ps, rfl, hs, hends⟩]
        dsimp only [bind, Except.bind]
        rw [if_neg (by simpa using conditions_ne_nil (hne rfl))]
        rfl

/-! ### Joints -/

theorem combinator?_of_spells {j : Joint} (h : Spells j.lexemes ts rest)
    (hlink : StartsLink (rest.map Token.lexeme)) :
    Grammar.combinator? ts = .ok (some (j.combinator, rest)) := by
  cases j with
  | child before after =>
    obtain ⟨_, hbefore, hchild⟩ := spells_append.1 h
    obtain ⟨_, us, rfl, hafter⟩ := spells_cons.1 hchild
    rw [Grammar.combinator?, before.skipTrivia_eq hbefore (solid_cons rfl _)]
    rw [← after.skipTrivia_eq hafter hlink.solid]
    rfl
  | adjacent before after =>
    obtain ⟨_, hbefore, hadjacent⟩ := spells_append.1 h
    obtain ⟨_, us, rfl, hafter⟩ := spells_cons.1 hadjacent
    rw [Grammar.combinator?, before.skipTrivia_eq hbefore (solid_cons rfl _)]
    rw [← after.skipTrivia_eq hafter hlink.solid]
    rfl
  | descendant blank hspace =>
    rw [Grammar.combinator?, blank.skipTrivia_eq h hlink.solid, blank.spaced_eq h hspace]
    obtain ⟨l, hl, hstarts⟩ := hlink
    obtain ⟨t, us, rfl, rfl⟩ : ∃ t us, rest = t :: us ∧ t.lexeme = l := by
      cases rest with
      | nil => cases hl
      | cons t us => exact ⟨t, us, rfl, Option.some.inj hl⟩
    obtain ⟨-, hplus, hgreater, hcomma, hbrace⟩ := Grammar.startsLink_ne hstarts
    simp [hplus, hgreater, hcomma, hbrace, Joint.combinator]

theorem exists_joint {c : Combinator} (h : Grammar.combinator? ts = .ok (some (c, rest))) :
    ∃ j : Joint, j.combinator = c ∧ Spells j.lexemes ts rest := by
  obtain ⟨before, hbefore, hspace⟩ := exists_padding ts
  unfold Grammar.combinator? at h
  split at h
  · cases h
  · next t us hts =>
    rw [hts] at hbefore
    obtain ⟨after, hafter, -⟩ := exists_padding us
    obtain ⟨l, loc⟩ := t
    split at h
    · next hplus =>
      cases h
      obtain rfl := Grammar.isDelim_iff.1 hplus
      exact ⟨.adjacent before after, rfl,
        spells_append.2 ⟨_, hbefore, spells_cons.2 ⟨loc, us, rfl, hafter⟩⟩⟩
    · split at h
      · next hgreater =>
        cases h
        obtain rfl := Grammar.isDelim_iff.1 hgreater
        exact ⟨.child before after, rfl,
          spells_append.2 ⟨_, hbefore, spells_cons.2 ⟨loc, us, rfl, hafter⟩⟩⟩
      · split at h
        · cases h
        · split at h
          · next hspaced =>
            cases h
            exact ⟨.descendant before (hspace hspaced), rfl, hbefore⟩
          · cases h

theorem combinator?_eq_none :
    Grammar.combinator? ts = .ok none ↔ EndsChain (ts.map Token.lexeme) := by
  rw [EndsChain, front_lexemes, Grammar.combinator?]
  cases Grammar.skipTrivia ts with
  | nil => simp
  | cons t us =>
    simp only [List.map_cons, List.head?_cons, Option.some.injEq, ← Grammar.isMark_iff]
    by_cases hends : t.lexeme.isMark .comma = true ∨ t.lexeme.isMark .openBrace = true
    · have hplus : ∀ c, t.lexeme.isDelim c = false := by
        intro c
        rcases hends with h | h <;> rw [Grammar.isMark_iff.1 h] <;> rfl
      simp [hplus, hends]
    · simp only [hends, Bool.or_eq_true, if_false, reduceCtorEq, or_false, iff_false]
      split
      · simp
      · split
        · simp
        · split <;> simp

/-! ### Chains -/

/-- What the grammar leaves behind a chain: the trivia are gone, and no further link follows. -/
def BehindChain (rest : List Token) : Prop :=
  Solid (rest.map Token.lexeme) ∧ EndsChain (rest.map Token.lexeme)

theorem moreLinks_iff {ls : List Link} :
    Grammar.moreLinks ts = .ok (ls, rest) ∧ EndsParts (ts.map Token.lexeme) ↔
      ∃ (js : List Joined) (p : Padding), js.map Joined.link = ls ∧
        Spells (js.flatMap Joined.lexemes ++ p.lexemes) ts rest ∧ BehindChain rest := by
  constructor
  · rintro ⟨h, hparts⟩
    fun_induction Grammar.moreLinks ts generalizing ls rest with
    | case1 => cases h
    | case2 ts hnone =>
      cases h
      obtain ⟨p, hp, -⟩ := exists_padding ts
      refine ⟨[], p, rfl, hp, solid_skipTrivia ts, ?_⟩
      have hends := combinator?_eq_none.1 hnone
      rwa [EndsChain, hp.lexemes_eq, p.front_append] at hends
    | case3 => cases h
    | case4 ts c us hc l vs hl ih =>
      obtain ⟨⟨ks, final⟩, hr, h⟩ := Grammar.bind_eq_ok h
      cases h
      obtain ⟨j, rfl, hj⟩ := exists_joint hc
      obtain ⟨s, rfl, hs, hends⟩ := link_iff.1 hl
      obtain ⟨js, p, rfl, hjs, hbehind⟩ := ih hr hends
      refine ⟨⟨j, s⟩ :: js, p, rfl, ?_, hbehind⟩
      rw [List.flatMap_cons, List.append_assoc]
      exact spells_append.2 ⟨vs, spells_append.2 ⟨us, hj, hs⟩, hjs⟩
  · rintro ⟨js, p, rfl, hjs, hsolid, hbehind⟩
    have hends : EndsChain (p.lexemes ++ rest.map Token.lexeme) := by
      rwa [EndsChain, p.front_append]
    induction js generalizing ts with
    | nil =>
      have hp : Spells p.lexemes ts rest := hjs
      rw [← hp.lexemes_eq] at hends
      refine ⟨?_, hends.endsParts⟩
      rw [Grammar.moreLinks_eq, combinator?_eq_none.2 hends, p.skipTrivia_eq hjs hsolid]
      rfl
    | cons j js ih =>
      rw [List.flatMap_cons, List.append_assoc] at hjs
      obtain ⟨vs, hj, hvs⟩ := spells_append.1 hjs
      obtain ⟨us, hjoint, hsimple⟩ := spells_append.1 hj
      obtain ⟨hmore, hparts⟩ := ih hvs
      have hstarts : StartsLink (us.map Token.lexeme) := by
        rw [hsimple.lexemes_eq]
        exact j.simple.startsLink.append _
      refine ⟨?_, hj.lexemes_eq ▸ j.endsParts _⟩
      rw [Grammar.moreLinks_eq, combinator?_of_spells hjoint hstarts]
      dsimp only
      rw [link_iff.2 ⟨j.simple, rfl, hsimple, hparts⟩]
      dsimp only [bind, Except.bind]
      rw [hmore]
      rfl

theorem chain_iff {c : Css2.Chain} :
    Grammar.chain ts = .ok (c, rest) ↔
      ∃ (d : Chain) (p : Padding), d.chain = c ∧ Spells (d.lexemes ++ p.lexemes) ts rest ∧
        BehindChain rest := by
  constructor
  · intro h
    obtain ⟨⟨l, us⟩, hl, h⟩ := Grammar.bind_eq_ok h
    obtain ⟨⟨ls, final⟩, hm, h⟩ := Grammar.bind_eq_ok h
    cases h
    obtain ⟨s, rfl, hs, hends⟩ := link_iff.1 hl
    obtain ⟨js, p, rfl, hjs, hbehind⟩ := moreLinks_iff.1 ⟨hm, hends⟩
    refine ⟨⟨s, js⟩, p, rfl, ?_, hbehind⟩
    rw [Chain.lexemes, List.append_assoc]
    exact spells_append.2 ⟨us, hs, hjs⟩
  · rintro ⟨⟨s, js⟩, p, rfl, h, hbehind⟩
    rw [Chain.lexemes, List.append_assoc] at h
    obtain ⟨us, hs, hjs⟩ := spells_append.1 h
    obtain ⟨hm, hends⟩ := moreLinks_iff.2 ⟨js, p, rfl, hjs, hbehind⟩
    rw [Grammar.chain, link_iff.2 ⟨s, rfl, hs, hends⟩]
    dsimp only [bind, Except.bind]
    rw [hm]
    rfl

/-! ### Groups -/

/-- The tokens are over, or an opening brace is next. -/
def BehindGroup (rest : List Token) : Prop :=
  ∀ t ∈ rest.head?, t.lexeme = .mark .openBrace

theorem BehindGroup.ends (h : BehindGroup rest) :
    Solid (rest.map Token.lexeme) ∧ EndsGroup (rest.map Token.lexeme) := by
  cases rest with
  | nil =>
    refine ⟨?_, .inl rfl⟩
    rintro _ ⟨⟩
  | cons t rest =>
    have ht : t.lexeme = .mark .openBrace := h t rfl
    rw [List.map_cons, ht]
    exact ⟨solid_cons rfl _, .inr (front_cons rfl _)⟩

theorem BehindGroup.behindChain (h : BehindGroup rest) : BehindChain rest :=
  ⟨h.ends.1, h.ends.2.endsChain⟩

theorem BehindChain.behindGroup (h : BehindChain rest)
    (hcomma : ∀ t ∈ rest.head?, t.lexeme ≠ .mark .comma) : BehindGroup rest := by
  intro t ht
  obtain ⟨hsolid, hends⟩ := h
  rw [EndsChain, hsolid.front_eq, List.head?_map, ht] at hends
  rcases hends with h | h | h
  · cases h
  · exact absurd (Option.some.inj h) (hcomma t ht)
  · exact Option.some.inj h

theorem Group.lexemes_cons_append (c : Chain) (l : Listed) (ls : List Listed) (ks : List Lexeme) :
    Group.lexemes ⟨c, l :: ls⟩ ++ ks = (c.lexemes ++ l.before.lexemes) ++
      .mark .comma :: (l.after.lexemes ++ (Group.lexemes ⟨l.chain, ls⟩ ++ ks)) := by
  simp [Group.lexemes, Listed.lexemes]

theorem chains_iff {cs : List Css2.Chain} :
    Grammar.chains ts = .ok (cs, rest) ↔
      ∃ (d : Group) (p : Padding), d.selector.chains = cs ∧
        Spells (d.lexemes ++ p.lexemes) ts rest ∧ BehindGroup rest := by
  constructor
  · intro h
    fun_induction Grammar.chains ts generalizing cs rest with
    | case1 => cases h
    | case2 ts c loc us hc ih =>
      obtain ⟨⟨ds, final⟩, hr, h⟩ := Grammar.bind_eq_ok h
      cases h
      obtain ⟨d, before, rfl, hd, -⟩ := chain_iff.1 hc
      obtain ⟨after, hafter, -⟩ := exists_padding us
      obtain ⟨⟨e, ls⟩, p, rfl, hg, hbehind⟩ := ih hr
      refine ⟨⟨d, ⟨before, after, e⟩ :: ls⟩, p, rfl, ?_, hbehind⟩
      rw [Group.lexemes_cons_append]
      exact spells_append.2 ⟨_, hd, spells_cons.2 ⟨loc, us, rfl, spells_append.2 ⟨_, hafter, hg⟩⟩⟩
    | case3 ts c us hcomma hc =>
      cases h
      obtain ⟨d, p, rfl, hd, hbehind⟩ := chain_iff.1 hc
      refine ⟨⟨d, []⟩, p, rfl, ?_, hbehind.behindGroup ?_⟩
      · rwa [Group.lexemes, List.flatMap_nil, List.append_nil]
      · rintro ⟨l, loc⟩ ht rfl
        cases us with
        | nil => cases ht
        | cons t us =>
          cases ht
          exact hcomma loc us rfl
  · rintro ⟨⟨c, ls⟩, p, rfl, h, hbehind⟩
    induction ls generalizing c ts with
    | nil =>
      rw [Group.lexemes, List.flatMap_nil, List.append_nil] at h
      rw [Grammar.chains_eq, chain_iff.2 ⟨c, p, rfl, h, hbehind.behindChain⟩]
      cases rest with
      | nil => rfl
      | cons t rest =>
        obtain ⟨l, loc⟩ := t
        obtain rfl : l = .mark .openBrace := hbehind _ rfl
        rfl
    | cons l ls ih =>
      rw [Group.lexemes_cons_append] at h
      obtain ⟨_, hc, hlisted⟩ := spells_append.1 h
      obtain ⟨loc, us, rfl, hus⟩ := spells_cons.1 hlisted
      obtain ⟨vs, hafter, hg⟩ := spells_append.1 hus
      have hcomma : BehindChain (⟨.mark .comma, loc⟩ :: us) :=
        ⟨solid_cons rfl _, .inr (.inl (front_cons rfl _))⟩
      have hskip : Grammar.skipTrivia us = vs := by
        refine l.after.skipTrivia_eq hafter ?_
        rw [hg.lexemes_eq, Group.lexemes, List.append_assoc, List.append_assoc]
        exact (l.chain.startsLink.append _).solid
      rw [Grammar.chains_eq, chain_iff.2 ⟨c, l.before, rfl, hc, hcomma⟩]
      dsimp only
      rw [hskip, ih l.chain hg]
      rfl

/-- The tokens `ts` are read as a selector and trivia behind it, and `rest` is left: the end, or
what an opening brace begins. -/
def Derives (ts : List Token) (d : Group) (p : Padding) (rest : List Token) : Prop :=
  Spells (d.lexemes ++ p.lexemes) ts rest ∧ BehindGroup rest

/-- **The grammar reads what has a derivation**, as the selector that it means. -/
theorem selector_iff {s : Selector} :
    Grammar.selector ts = .ok (s, rest) ↔
      ∃ d p, Derives ts d p rest ∧ d.selector = s := by
  constructor
  · intro h
    obtain ⟨⟨cs, final⟩, hc, h⟩ := Grammar.bind_eq_ok h
    cases h
    obtain ⟨d, p, rfl, hd⟩ := chains_iff.1 hc
    exact ⟨d, p, hd, rfl⟩
  · rintro ⟨d, p, hd, rfl⟩
    rw [Grammar.selector, chains_iff.2 ⟨d, p, rfl, hd⟩]
    rfl

/-- **Tokens have at most one derivation**, and it tells where the selector ends. -/
theorem Derives.unique {d d' : Group} {p p' : Padding} {rest' : List Token}
    (h : Derives ts d p rest) (h' : Derives ts d' p' rest') : d = d' ∧ p = p' ∧ rest = rest' := by
  obtain ⟨hspells, hbehind⟩ := h
  obtain ⟨hspells', hbehind'⟩ := h'
  have hends : ∀ {p : Padding} {us : List Token}, BehindGroup us →
      EndsGroup (p.lexemes ++ us.map Token.lexeme) := by
    intro p us hus
    rw [EndsGroup, p.front_append]
    exact hus.ends.2
  have heq := hspells.lexemes_eq.symm.trans hspells'.lexemes_eq
  rw [List.append_assoc, List.append_assoc] at heq
  obtain ⟨hgroup, hrest⟩ := decodes_group (hends hbehind) (hends hbehind') heq
  obtain ⟨hpadding, -⟩ := decodes_padding hbehind.ends.1 hbehind'.ends.1 hrest
  rw [← hgroup, ← hpadding] at hspells'
  obtain ⟨as, has, hreads⟩ := hspells
  obtain ⟨bs, hbs, hreads'⟩ := hspells'
  have hlength : as.length = bs.length := by
    rw [← List.length_map Token.lexeme, hreads, ← hreads', List.length_map]
  exact ⟨hgroup, hpadding, (List.append_inj (has.symm.trans hbs) hlength).2⟩

end Derivation

namespace Reader

/-- A reader that is asked for a selector does what the grammar does behind the trivia. -/
theorem call_selector_iff_grammar {options : ParseOptions} {ts rest : List Token} {stop : Location}
    {s : Selector} :
    (∃ r, (ofStream (.ofTokens ts stop) options).call .selector = some (.ok (.selector s), r) ∧
        r.unread = rest) ↔
      Grammar.selector (Grammar.skipTrivia ts) = .ok (s, rest) := by
  obtain ⟨r, hcall, -, -, hparser⟩ := call_eq .selector (ofStream (.ofTokens ts stop) options) rfl
  rw [Call.outcome, Parser.selector, Parser.construct] at hcall hparser
  rw [show (ofStream (.ofTokens ts stop) options).parser.tokens = ts from rfl] at hcall hparser
  cases hread : Grammar.selector (Grammar.skipTrivia ts) with
  | error e =>
    rw [hread] at hcall
    constructor
    · rintro ⟨_, h, -⟩
      cases hcall.symm.trans h
    · exact nofun
  | ok x =>
    rw [hread] at hcall hparser
    have hunread : r.unread = x.2 := congrArg Parser.tokens hparser
    constructor
    · rintro ⟨_, h, rfl⟩
      cases hcall.symm.trans h
      rw [hunread]
    · intro h
      cases h
      exact ⟨r, hcall, hunread⟩

/-- **A reader accepts the selectors that have a derivation**: asked for a selector, it gives back
one and leaves the tokens `rest` just if the tokens before them derive it, and they derive it in one
way only. -/
theorem call_selector_iff (options : ParseOptions) (stop : Location) {ts : List Token}
    (hts : ∀ t ∈ ts.head?, t.lexeme.isTrivia = false) :
    (∀ s rest,
      (∃ r, (ofStream (.ofTokens ts stop) options).call .selector = some (.ok (.selector s), r) ∧
          r.unread = rest) ↔
        ∃ d p, Derivation.Derives ts d p rest ∧ d.selector = s) ∧
      ∀ d p rest d' p' rest', Derivation.Derives ts d p rest → Derivation.Derives ts d' p' rest' →
        d = d' ∧ p = p' ∧ rest = rest' := by
  have hskip : Grammar.skipTrivia ts = ts := by
    cases ts with
    | nil => rfl
    | cons t ts => exact List.dropWhile_cons_of_neg (by simp [hts t rfl])
  refine ⟨fun s rest => ?_, fun _ _ _ _ _ _ => Derivation.Derives.unique⟩
  rw [call_selector_iff_grammar, hskip]
  exact Derivation.selector_iff

/-- The tokens of `a[x][y] > b {`: the tests of attributes are one condition. -/
theorem call_selector_iff_attributes :
    let ts : List Token := [⟨.ident "a", ⟨1, 1, 0⟩⟩, ⟨.mark .openBracket, ⟨1, 2, 1⟩⟩,
      ⟨.ident "x", ⟨1, 3, 2⟩⟩, ⟨.mark .closeBracket, ⟨1, 4, 3⟩⟩, ⟨.mark .openBracket, ⟨1, 5, 4⟩⟩,
      ⟨.ident "y", ⟨1, 6, 5⟩⟩, ⟨.mark .closeBracket, ⟨1, 7, 6⟩⟩, ⟨.whitespace, ⟨1, 8, 7⟩⟩,
      ⟨.delim '>', ⟨1, 9, 8⟩⟩, ⟨.whitespace, ⟨1, 10, 9⟩⟩, ⟨.ident "b", ⟨1, 11, 10⟩⟩,
      ⟨.whitespace, ⟨1, 12, 11⟩⟩, ⟨.mark .openBrace, ⟨1, 13, 12⟩⟩]
    (∀ t ∈ ts.head?, t.lexeme.isTrivia = false) ∧ ∃ r,
      (ofStream (.ofTokens ts ⟨1, 14, 13⟩) {}).call .selector
        = some (.ok (.selector ⟨[⟨[
            ⟨some "a", [.attributes [⟨"x", .present, none⟩, ⟨"y", .present, none⟩]], .first⟩,
            ⟨some "b", [], .child⟩]⟩]⟩), r) ∧
      r.unread = [⟨.mark .openBrace, ⟨1, 13, 12⟩⟩] := by
  intro ts
  have hsolid : ∀ t ∈ ts.head?, t.lexeme.isTrivia = false := by
    rintro _ ⟨⟩
    rfl
  refine ⟨hsolid, ((call_selector_iff {} ⟨1, 14, 13⟩ hsolid).1 _ _).2 ?_⟩
  let tight : Derivation.Padding := ⟨[], by simp⟩
  let blank : Derivation.Padding := ⟨[.whitespace], by simp [Lexeme.isTrivia]⟩
  let test (name : String) : Derivation.Part := .predicate ⟨tight, name, tight, none⟩
  refine ⟨⟨⟨⟨some (.named "a"), [test "x", test "y"], by simp⟩,
    [⟨.child blank blank, ⟨some (.named "b"), [], by simp⟩⟩]⟩, []⟩, blank, ⟨?_, ?_⟩, rfl⟩
  · exact ⟨ts.take 12, rfl, rfl⟩
  · rintro _ ⟨⟩
    rfl

end Reader

end Css2
