import Css2.Proofs.Grammar.Stretch
import Css2.Proofs.Selector.ReadBack
import Css2.Proofs.Token.Scanned

/-!
# The selectors that the grammar reads

A selector that the grammar reads from the tokens of a text can be written and read back
(`Grammar.selector_readable`), unless a name in it has a null character, which no escape stands
for.
-/

namespace Css2

/-! ### The names in a selector -/

/-- The names in a pseudo-class or a pseudo-element. -/
def Pseudo.names (p : Pseudo) : List String :=
  p.name :: p.argument.toList

/-- The names in a condition.  What an attribute is compared with is written as a string. -/
def Condition.names : Condition → List String
  | .className name => [name]
  | .id name => [name]
  | .pseudo p => p.names
  | .attributes tests => tests.map (·.name)

def Link.names (l : Link) : List String :=
  l.name.toList ++ l.conditions.flatMap Condition.names

def Chain.names (c : Chain) : List String :=
  c.links.flatMap Link.names

def Selector.names (s : Selector) : List String :=
  s.chains.flatMap Chain.names

/-- No name has a null character. -/
def NullFree (names : List String) : Prop :=
  ∀ name ∈ names, '\x00' ∉ name.toList

theorem NullFree.isName {names : List String} (h : NullFree names) {name : String}
    (hmem : name ∈ names) (hne : name ≠ "") : IsName name :=
  ⟨hne, h name hmem⟩

theorem nullFree_append {xs ys : List String} :
    NullFree (xs ++ ys) ↔ NullFree xs ∧ NullFree ys := by
  simp [NullFree, or_imp, forall_and]

theorem nullFree_flatMap {α : Type} {f : α → List String} {xs : List α} :
    NullFree (xs.flatMap f) ↔ ∀ x ∈ xs, NullFree (f x) := by
  simp only [NullFree, List.mem_flatMap]
  exact ⟨fun h x hx name hn => h name ⟨x, hx, hn⟩, fun h name ⟨x, hx, hn⟩ => h x hx name hn⟩

namespace Grammar

/-! ### Conditions -/

theorem ident_ne_empty {what : Expectation} {ts rest : List Token} {name : String}
    (h : ident what ts = .ok (name, rest)) (hts : Scanned ts) : name ≠ "" := by
  unfold ident at h
  split at h
  · cases h
    obtain ⟨_, _, hsound⟩ := hts.sound
    exact hsound
  · cases h

/-- A test of an attribute has a name, and a value just if it compares one. -/
theorem attributeSel_readable {ts rest : List Token} {a : AttributeSel}
    (h : attributeSel ts = .ok (a, rest)) (hts : Scanned ts) (hn : NullFree [a.name]) :
    a.Readable := by
  rw [attributeSel] at h
  obtain ⟨⟨name, us⟩, hident, h⟩ := bind_eq_ok h
  have hne := ident_ne_empty hident hts.skipTrivia
  dsimp only at h
  split at h
  · cases h
  · next t vs _ =>
    split at h
    · cases h
      exact ⟨hn.isName (List.mem_singleton.2 rfl) hne, Iff.intro (fun _ => rfl) (fun _ => rfl)⟩
    · split at h
      · cases h
      · next test htest =>
        obtain ⟨⟨value, ws⟩, _, h⟩ := bind_eq_ok h
        obtain ⟨xs, _, h⟩ := bind_eq_ok h
        cases h
        refine ⟨hn.isName (List.mem_singleton.2 rfl) hne, ?_⟩
        have hpresent : test ≠ .present := by
          rintro rfl
          unfold attributeTest? at htest
          split at htest
          · split at htest <;> cases htest
          · cases htest
          · cases htest
          · cases htest
        exact Iff.intro (fun h => absurd h hpresent) (fun h => nomatch h)

/-- A name behind a colon is readable: an address is not what has an identifier for its
argument. -/
theorem pseudo_readable {ts rest : List Token} {p : Pseudo} (h : pseudo ts = .ok (p, rest))
    (hts : Scanned ts) (hn : NullFree p.names) : p.Readable := by
  unfold pseudo at h
  split at h
  · cases h
    obtain ⟨_, _, hsound⟩ := hts.sound
    exact ⟨hn.isName (List.mem_singleton.2 rfl) hsound, fun _ h => nomatch h⟩
  · next name loc us =>
    obtain ⟨⟨argument, vs⟩, hident, h⟩ := bind_eq_ok h
    obtain ⟨ws, _, h⟩ := bind_eq_ok h
    cases h
    obtain ⟨_, _, hsound⟩ := hts.sound
    refine ⟨hn.isName (by simp [Pseudo.names]) hsound.1, ?_⟩
    rintro _ ⟨⟩
    have hne := ident_ne_empty hident hts.tail.skipTrivia
    refine ⟨hn.isName (by simp [Pseudo.names]) hne, ?_⟩
    rw [← Bool.not_eq_true]
    intro hurl
    unfold ident at hident
    split at hident
    · next heq =>
      rcases hts.url hurl heq with ⟨value, hl⟩ | hl <;> cases hl
    · cases hident
  · cases h

/-- **A condition that is read is readable.** -/
theorem condition?_readable {ts rest : List Token} {c : Condition}
    (h : condition? ts = .ok (some (c, rest))) (hts : Scanned ts) (hn : NullFree c.names) :
    c.Readable := by
  unfold condition? at h
  split at h
  · split at h
    · cases h
      obtain ⟨_, _, hsound⟩ := hts.sound
      exact hn.isName (List.mem_singleton.2 rfl) hsound
    · cases h
  · split at h
    · obtain ⟨⟨name, us⟩, hident, h⟩ := bind_eq_ok h
      cases h
      exact hn.isName (List.mem_singleton.2 rfl) (ident_ne_empty hident hts.tail)
    · cases h
  · obtain ⟨⟨a, us⟩, ha, h⟩ := bind_eq_ok h
    cases h
    exact ⟨a, rfl, attributeSel_readable ha hts.tail hn⟩
  · obtain ⟨⟨p, us⟩, hp, h⟩ := bind_eq_ok h
    cases h
    exact pseudo_readable hp hts.tail hn
  · cases h

theorem names_joinCondition (c : Condition) (cs : List Condition) :
    (joinCondition c cs).flatMap Condition.names = c.names ++ cs.flatMap Condition.names := by
  unfold joinCondition
  split
  · simp [Condition.names]
  · rfl

/-- **Conditions that are read are readable.** -/
theorem conditions_readable {ts rest : List Token} {cs : List Condition}
    (h : conditions ts = .ok (cs, rest)) (hts : Scanned ts)
    (hn : NullFree (cs.flatMap Condition.names)) : Condition.Joined cs := by
  fun_induction conditions ts generalizing cs rest with
  | case1 => cases h
  | case2 =>
    cases h
    exact .nil
  | case3 ts c us hc ih =>
    obtain ⟨⟨ds, final⟩, hr, h⟩ := bind_eq_ok h
    cases h
    rw [names_joinCondition, nullFree_append] at hn
    exact .cons (condition?_readable hc hts hn.1)
      (ih hr (hts.suffix (condition?_stretch hc).suffix) hn.2)

/-! ### Links and chains -/

/-- **A link that is read is readable.** -/
theorem link_readable {combinator : Combinator} {ts rest : List Token} {l : Link}
    (h : link combinator ts = .ok (l, rest)) (hts : Scanned ts) (hn : NullFree l.names) :
    l.Readable ∧ l.combinator = combinator := by
  rw [link] at h
  split at h
  · next name us hname =>
    obtain ⟨⟨cs, final⟩, hc, h⟩ := bind_eq_ok h
    cases h
    obtain ⟨hfirst, hothers⟩ := nullFree_append.1 hn
    have hus := hts.suffix (elementName?_stretch hname).suffix
    refine ⟨⟨?_, conditions_readable hc hus hothers⟩, rfl⟩
    rintro element rfl
    unfold elementName? at hname
    split at hname
    · cases hname
      obtain ⟨_, _, hsound⟩ := hts.sound
      exact hfirst.isName (List.mem_singleton.2 rfl) hsound
    · split at hname <;> cases hname
    · cases hname
  · obtain ⟨⟨cs, final⟩, hc, h⟩ := bind_eq_ok h
    dsimp only at h
    split at h
    · cases h
    · cases h
      obtain ⟨_, hothers⟩ := nullFree_append.1 hn
      exact ⟨⟨fun _ h => (by cases h), conditions_readable hc hts hothers⟩, rfl⟩

/-- What joins a link to the one before it is not the mark of a first link. -/
theorem combinator?_ne_first {ts rest : List Token} {c : Combinator}
    (h : combinator? ts = .ok (some (c, rest))) : c ≠ .first := by
  rw [combinator?] at h
  split at h
  · cases h
  · split at h
    · cases h
      decide
    · split at h
      · cases h
        decide
      · split at h
        · cases h
        · split at h
          · cases h
            decide
          · cases h

theorem moreLinks_readable {ts rest : List Token} {ls : List Link}
    (h : moreLinks ts = .ok (ls, rest)) (hts : Scanned ts)
    (hn : NullFree (ls.flatMap Link.names)) :
    ∀ k ∈ ls, k.Readable ∧ k.combinator ≠ .first := by
  fun_induction moreLinks ts generalizing ls rest with
  | case1 => cases h
  | case2 =>
    cases h
    intro _ hk
    cases hk
  | case3 => cases h
  | case4 ts c us hc l vs hl ih =>
    obtain ⟨⟨ks, final⟩, hm, h⟩ := bind_eq_ok h
    cases h
    obtain ⟨hfirst, hothers⟩ := nullFree_append.1 hn
    have hus := hts.suffix (combinator?_stretch hc).suffix
    obtain ⟨hread, hcomb⟩ := link_readable hl hus hfirst
    have hmore := ih hm (hus.suffix (link_stretch hl).suffix) hothers
    intro k hk
    rcases List.mem_cons.1 hk with rfl | hk
    · exact ⟨hread, hcomb ▸ combinator?_ne_first hc⟩
    · exact hmore k hk

/-- **A chain that is read is readable.** -/
theorem chain_readable {ts rest : List Token} {c : Chain} (h : chain ts = .ok (c, rest))
    (hts : Scanned ts) (hn : NullFree c.names) : c.Readable := by
  rw [chain] at h
  obtain ⟨⟨l, us⟩, hl, h⟩ := bind_eq_ok h
  obtain ⟨⟨ls, final⟩, hm, h⟩ := bind_eq_ok h
  cases h
  obtain ⟨hfirst, hothers⟩ := nullFree_append.1 hn
  obtain ⟨hread, hcomb⟩ := link_readable hl hts hfirst
  exact ⟨l, ls, rfl, hread, hcomb,
    moreLinks_readable hm (hts.suffix (link_stretch hl).suffix) hothers⟩

theorem chains_readable {ts rest : List Token} {cs : List Chain} (h : chains ts = .ok (cs, rest))
    (hts : Scanned ts) (hn : NullFree (cs.flatMap Chain.names)) :
    cs ≠ [] ∧ ∀ c ∈ cs, c.Readable := by
  fun_induction chains ts generalizing cs rest with
  | case1 => cases h
  | case2 ts c loc us hc ih =>
    obtain ⟨⟨ds, final⟩, hd, h⟩ := bind_eq_ok h
    cases h
    obtain ⟨hfirst, hothers⟩ := nullFree_append.1 hn
    have hus : Scanned us := (hts.suffix (chain_stretch hc).suffix).tail
    have hmore := ih hd hus.skipTrivia hothers
    refine ⟨List.cons_ne_nil _ _, ?_⟩
    intro k hk
    rcases List.mem_cons.1 hk with rfl | hk
    · exact chain_readable hc hts hfirst
    · exact hmore.2 k hk
  | case3 ts c us _ hc =>
    cases h
    refine ⟨List.cons_ne_nil _ _, ?_⟩
    intro k hk
    obtain rfl := List.mem_singleton.1 hk
    exact chain_readable hc hts (nullFree_append.1 hn).1

/-- **A selector that is read is readable.** -/
theorem selector_readable {ts rest : List Token} {s : Selector} (h : selector ts = .ok (s, rest))
    (hts : Scanned ts) (hn : NullFree s.names) : s.Readable := by
  rw [selector] at h
  obtain ⟨⟨cs, final⟩, hc, h⟩ := bind_eq_ok h
  cases h
  exact chains_readable hc hts hn

end Grammar

end Css2
