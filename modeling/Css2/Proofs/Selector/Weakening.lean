import Css2.Proofs.Selector.Witness

/-!
# Weaker links

A link that asks for less is met by more nodes.  For a chain this is not the whole story, since the
search settles on the nearest ancestor that meets a link: when a link asks for less the search may
stop short of the node where it went before, and look for what is further left from there.

* Nodes that were a witness of the chain still are one (`Placed.of_weaker`).
* The search finds them if the link is the subject, or is joined to the link behind it as a parent
  or a neighbour, where there is only one node to look at.
* It also finds nodes if the links up to the weaker one are joined by descent alone, since a nearer
  node has all the ancestors of the one further up, and more.

`Chain.matches_of_weakens` puts this together.  A match may be lost otherwise, and where siblings go
round in a circle it may give way to a search that does not end (`Chain.not_matches_of_weakens`).
-/

namespace Css2

/-! ### A link and its place -/

structure Chain.Place where
  before : List Link
  after : List Link

def Chain.Place.put (p : Chain.Place) (l : Link) : Chain :=
  ⟨p.before ++ l :: p.after⟩

theorem Chain.Place.reverse_put (p : Chain.Place) (l : Link) :
    (p.put l).links.reverse = p.after.reverse ++ l :: p.before.reverse := by
  simp [put]

/-- One thing that the first link asks for is missing in the second one: the name of the element, a
condition, or one of the tests of attributes that make up a condition. -/
inductive Link.Weakens : Link → Link → Prop
  | name (l : Link) : Weakens l { l with name := none }
  | condition (l : Link) (cs ds : List Condition) (k : Condition) :
      Weakens { l with conditions := cs ++ k :: ds } { l with conditions := cs ++ ds }
  | test (l : Link) (cs ds : List Condition) (ts us : List AttributeSel) (t : AttributeSel) :
      Weakens { l with conditions := cs ++ .attributes (ts ++ t :: us) :: ds }
        { l with conditions := cs ++ .attributes (ts ++ us) :: ds }

section

variable {o : MatchOptions} {d : Document} {l l' : Link}

theorem Link.Weakens.combinator_eq (h : l.Weakens l') : l'.combinator = l.combinator := by
  cases h <;> rfl

theorem Link.Weakens.answer (h : l.Weakens l') {n : Nat} (hl : l.answer o d n = some true) :
    l'.answer o d n = some true := by
  rw [Link.answer_eq_some_true_iff] at hl ⊢
  cases h with
  | name =>
    refine ⟨?_, hl.2⟩
    have hname := hl.1
    simp only [Link.matchesName] at hname ⊢
    split at hname
    · cases hname
    · rfl
  | condition m cs ds k =>
    obtain ⟨hname, hall⟩ := hl
    refine ⟨hname, fun c hc => hall c ?_⟩
    simp only [List.mem_append, List.mem_cons] at hc ⊢
    exact hc.imp_right .inr
  | test m cs ds ts us t =>
    obtain ⟨hname, hall⟩ := hl
    refine ⟨hname, fun c hc => ?_⟩
    simp only [List.mem_append, List.mem_cons] at hall hc
    rcases hc with hc | rfl | hc
    · exact hall c (.inl hc)
    · have htests := hall _ (.inr (.inl rfl))
      simp only [Condition.answer, Option.some_inj, List.all_append, List.all_cons,
        Bool.and_eq_true] at htests ⊢
      exact ⟨htests.1, htests.2.2⟩
    · exact hall c (.inr (.inr hc))

/-! ### Witnesses -/

/-- **A witness of a chain is one of the chain with a weaker link.**  The links come from right to
left, and the weaker one stands behind `ls`. -/
theorem Placed.of_weaker (h : l.Weakens l') (ls : List Link) {rs : List Link} {c : Combinator}
    {n : Nat} (hplaced : Placed o d (ls ++ l :: rs) c n) : Placed o d (ls ++ l' :: rs) c n := by
  induction ls generalizing c n with
  | nil =>
    obtain ⟨m, hrel, hm, hrest⟩ := hplaced
    rw [← h.combinator_eq] at hrest
    exact ⟨m, hrel, h.answer hm, hrest⟩
  | cons k ls ih =>
    obtain ⟨m, hrel, hm, hrest⟩ := hplaced
    exact ⟨m, hrel, hm, ih hrest⟩

/-! ### The search -/

/-- The combinator that joins what comes behind `ls`, in a chain from right to left in which `c`
joins the first link. -/
def lastJoint (c : Combinator) (ls : List Link) : Combinator :=
  (ls.getLast?.map Link.combinator).getD c

theorem lastJoint_cons (c : Combinator) (k : Link) (ls : List Link) :
    lastJoint c (k :: ls) = lastJoint k.combinator ls := by
  rw [lastJoint, lastJoint, List.getLast?_cons]
  cases ls.getLast? <;> rfl

/-- **The search with a weaker link.**  It does not fail where it succeeded before if it has no
choice for that link, or looks for nothing but ancestors from there on. -/
theorem matchLinks_of_weaker (h : l.Weakens l') (ls : List Link) {rs : List Link} {c : Combinator}
    {n : Nat}
    (hsecure : (lastJoint c ls).isNear = true ∨ ∀ b ∈ joints l.combinator rs, b.isNear = false)
    (hm : matchLinks o d (ls ++ l :: rs) c n = some true) :
    matchLinks o d (ls ++ l' :: rs) c n ≠ some false := by
  induction ls generalizing c n with
  | nil =>
    by_cases hc : c.isNear = true
    · -- the same node is found, and from there on nothing has changed
      obtain ⟨m, hfind, hrest⟩ := exists_find?_of_matchLinks hm
      obtain ⟨hrel, hl⟩ := Combinator.find?_some hfind
      rw [List.nil_append, matchLinks_of_find? rs (Combinator.find?_of_near hc hrel (h.answer hl)),
        h.combinator_eq, hrest]
      exact nofun
    · -- another node may be found, but then any will do
      have hfar : ∀ b ∈ c :: joints l.combinator rs, b.isNear = false := by
        intro b hb
        rcases List.mem_cons.1 hb with rfl | hb
        · simpa using hc
        · exact hsecure.resolve_left hc b hb
      have hplaced : Placed o d (l' :: rs) c n := (Placed.of_matchLinks hm).of_weaker h []
      refine hplaced.matchLinks_of_far ?_
      rw [joints, h.combinator_eq]
      exact hfar
  | cons k ls ih =>
    rw [lastJoint_cons] at hsecure
    obtain ⟨m, hfind, hrest⟩ := exists_find?_of_matchLinks hm
    rw [List.cons_append, matchLinks_of_find? _ hfind]
    exact ih hsecure hrest

/-! ### Chains -/

/-- The place of a link in a chain is secure if a weaker link there loses no match: the link is the
subject, or it is joined to the link behind it as a parent or a neighbour, or no parent and no
neighbour is asked for up to it.  The first link has nothing to be joined to. -/
def Chain.Place.Secure (p : Chain.Place) (l : Link) : Prop :=
  (∀ r ∈ p.after.head?, r.combinator.isNear = true) ∨
    ∀ b ∈ (p.before ++ [l]).tail, b.combinator.isNear = false

theorem Chain.Place.Secure.joints {p : Chain.Place} (h : p.Secure l) {subject : Link}
    {ls : List Link} (hafter : p.after.reverse = subject :: ls) :
    (lastJoint subject.combinator ls).isNear = true ∨
      ∀ b ∈ Css2.joints l.combinator p.before.reverse, b.isNear = false := by
  rcases h with h | h
  · left
    rw [← lastJoint_cons .first, ← hafter, lastJoint, List.getLast?_reverse]
    cases hhead : p.after.head? with
    | none =>
      rw [List.head?_eq_none_iff] at hhead
      rw [hhead] at hafter
      cases hafter
    | some r => exact h r hhead
  · right
    intro b hb
    rw [← List.mem_reverse, joints_reverse, List.reverse_cons, List.reverse_reverse] at hb
    obtain ⟨k, hk, rfl⟩ := List.mem_map.1 hb
    exact h k hk

/-- A weaker link in a secure place does not lose a match to another answer. -/
theorem Chain.Place.Secure.answer_ne {p : Chain.Place} (hsecure : p.Secure l) (h : l.Weakens l')
    {id : Nat} (hm : (p.put l).answer o d id = some true) :
    (p.put l').answer o d id ≠ some false := by
  have hlinks := p.reverse_put l
  have hlinks' := p.reverse_put l'
  cases hafter : p.after.reverse with
  | nil =>
    rw [hafter, List.nil_append] at hlinks hlinks'
    obtain ⟨hl, hrest⟩ := (answer_eq_some_true_iff hlinks).1 hm
    rw [answer_of_subject hlinks' (h.answer hl), h.combinator_eq, hrest]
    exact nofun
  | cons subject ls =>
    rw [hafter, List.cons_append] at hlinks hlinks'
    obtain ⟨hsubject, hrest⟩ := (answer_eq_some_true_iff hlinks).1 hm
    rw [answer_of_subject hlinks' hsubject]
    exact matchLinks_of_weaker h ls (hsecure.joints hafter) hrest

theorem Chain.exists_witness_of_weakens {p : Chain.Place} (h : l.Weakens l') {id : Nat}
    (hm : (p.put l).answer o d id = some true) : ∃ ps, (p.put l').Witness o d id ps := by
  have hlinks := p.reverse_put l
  have hlinks' := p.reverse_put l'
  cases hafter : p.after.reverse with
  | nil =>
    rw [hafter, List.nil_append] at hlinks hlinks'
    obtain ⟨hl, hrest⟩ := (answer_eq_some_true_iff hlinks).1 hm
    rw [← h.combinator_eq] at hrest
    exact (exists_witness_iff hlinks').2 ⟨h.answer hl, .of_matchLinks hrest⟩
  | cons subject ls =>
    rw [hafter, List.cons_append] at hlinks hlinks'
    obtain ⟨hsubject, hrest⟩ := (answer_eq_some_true_iff hlinks).1 hm
    exact (exists_witness_iff hlinks').2 ⟨hsubject, (Placed.of_matchLinks hrest).of_weaker h ls⟩

/-- **What a weaker link does to a match.**  If a chain selects a node, and one condition or the
name of the element is taken away from one of its links, then there still are nodes for all links
that stand to each other as the combinators say.  If the place of the link is secure then the answer
does not turn into no, and in a well-formed document the chain still selects the node. -/
theorem Chain.matches_of_weakens {p : Chain.Place} (h : l.Weakens l') {id : Nat}
    (hm : (p.put l).answer o d id = some true) :
    (∃ ps, (p.put l').Witness o d id ps) ∧
      (p.Secure l → (p.put l').answer o d id ≠ some false ∧
        (d.WellFormed → (p.put l').answer o d id = some true)) := by
  refine ⟨exists_witness_of_weakens h hm, fun hsecure => ⟨hsecure.answer_ne h hm, fun hd => ?_⟩⟩
  exact answer_eq_some_true hd (hsecure.answer_ne h hm)

end

/-- Without the class, `a b.x c` is found by way of the other `b`. -/
theorem Chain.matches_of_weakens_descendants :
    let a : Link := { name := some "a" }
    let c : Link := { name := some "c", combinator := .descendant }
    let p : Chain.Place := ⟨[a], [c]⟩
    let l : Link := { name := some "b", conditions := [.className "x"], combinator := .descendant }
    let l' : Link := { name := some "b", combinator := .descendant }
    l.Weakens l' ∧ (p.put l).answer {} Document.levels 4 = some true ∧ p.Secure l ∧
      Document.levels.WellFormed ∧ (p.put l').answer {} Document.levels 4 = some true := by
  intro a c p l l'
  have hweakens : l.Weakens l' := .condition l' [] [] (.className "x")
  have hsecure : p.Secure l := .inr (by decide)
  have hd : Document.levels.WellFormed := Document.built_levels.wellFormed
  have hm : (p.put l).answer {} Document.levels 4 = some true := by
    have hnear : (p.put l).NearLast := by decide
    have hw : (p.put l).Witness {} Document.levels 4 [(a, 1), (l, 2), (c, 4)] := by
      refine ⟨rfl, rfl, by decide +kernel, ?_⟩
      have hlc : Document.levels.Ancestor 2 4 := .tail (.single rfl) rfl
      exact .cons_cons (.single rfl) (.cons_cons hlc (.singleton _))
    exact answer_eq_some_true hd (answer_of_witness hnear ⟨_, hw⟩)
  exact ⟨hweakens, hm, hsecure, hd, ((matches_of_weakens hweakens hm).2 hsecure).2 hd⟩

/-! ### Matches that are lost -/

/-- `a > b.x c` selects the `c`, but `a > b c` does not, since the nearest `b` is not in the `a`
itself. -/
theorem Chain.not_matches_insecure :
    let a : Link := { name := some "a" }
    let c : Link := { name := some "c", combinator := .descendant }
    let p : Chain.Place := ⟨[a], [c]⟩
    let l : Link := { name := some "b", conditions := [.className "x"], combinator := .child }
    let l' : Link := { name := some "b", combinator := .child }
    (p.put l).answer ⟨.exact⟩ Document.levels 4 = some true ∧
      (p.put l').answer ⟨.exact⟩ Document.levels 4 = some false := by
  intro a c p l l'
  have hsubject : c.answer ⟨.exact⟩ Document.levels 4 = some true := by decide +kernel
  constructor
  · have hlinks : (p.put l).links.reverse = [c, l, a] := rfl
    have hl : Combinator.descendant.find? Document.levels (l.answer ⟨.exact⟩ Document.levels) 4
        = some (some 2) :=
      Document.search_eq_some_iff.2
        (.further rfl (by decide +kernel) (.here rfl (by decide +kernel)))
    have ha : Combinator.child.find? Document.levels (a.answer ⟨.exact⟩ Document.levels) 2
        = some (some 1) := by decide +kernel
    rw [answer_of_subject hlinks hsubject, matchLinks_of_find? _ hl, matchLinks_of_find? _ ha]
    rfl
  · have hlinks : (p.put l').links.reverse = [c, l', a] := rfl
    have hl : Combinator.descendant.find? Document.levels (l'.answer ⟨.exact⟩ Document.levels) 4
        = some (some 3) :=
      Document.search_eq_some_iff.2 (.here rfl (by decide +kernel))
    have ha : Combinator.child.find? Document.levels (a.answer ⟨.exact⟩ Document.levels) 3
        = some none := by decide +kernel
    rw [answer_of_subject hlinks hsubject, matchLinks_of_find? _ hl, matchLinks, ha]
    rfl

/-- A text stands in an element of the class `a` and is appended to it a second time, which makes it
the sibling before itself.  Behind it there is another element, in which there is a third one. -/
def Document.looping : Document :=
  (((((((((((empty.alloc (.element "x" [])).alloc (.element "y" [("class", "a")])).alloc
    (.text "t")).alloc (.element "y" [])).alloc (.element "z" [])).append 0 1).append 1 2).append
      2 3).append 2 3).append 2 4).append 4 5)

theorem Document.not_ancestor_looping (x : Nat) : ¬ looping.Ancestor x x := by
  have hlt : ∀ x < looping.size, ∀ y ∈ looping.parent? x, y < x := by decide
  intro hx
  exact Nat.lt_irrefl x (hx.lt fun x y hxy => hlt x (lt_size_of_parent? x y hxy) y hxy)

theorem Document.previousElement?_looping : looping.previousElement? 4 = none := by
  have hloop : looping.previous? 3 = some 3 := by decide
  have hbefore : looping.previous? 4 = some 3 := by decide
  rw [previousElement?, search_of_some hbefore]
  exact search_eq_none_of_loop hloop (by decide)

theorem Condition.answer_firstChild {o : MatchOptions} {d : Document} {id : Nat}
    (hparent : (d.parent? id).any d.isElement = true) :
    (Condition.pseudo ⟨"first-child", none⟩).answer o d id =
      (d.previousElement? id).map Option.isNone := by
  have hmeaning : Pseudo.meaning ⟨"first-child", none⟩ = .firstChild := by decide +kernel
  rw [Condition.answer, Pseudo.answer, hmeaning]
  dsimp only
  rw [if_pos hparent]
  cases d.previousElement? id <;> rfl

/-- With `.a:first-child z` the element behind the text has not got the class, and that is the end
of it.  With `:first-child z` it has to be a first child. -/
theorem Chain.not_matches_looping :
    let z : Link := { name := some "z", combinator := .descendant }
    let p : Chain.Place := ⟨[], [z]⟩
    let first : Condition := .pseudo ⟨"first-child", none⟩
    let l : Link := { conditions := [.className "a", first] }
    let l' : Link := { conditions := [first] }
    (p.put l).answer ⟨.exact⟩ Document.looping 5 = some true ∧
      (p.put l').answer ⟨.exact⟩ Document.looping 5 = none := by
  intro z p first l l'
  have hsubject : z.answer ⟨.exact⟩ Document.looping 5 = some true := by decide +kernel
  constructor
  · have hlinks : (p.put l).links.reverse = [z, l] := rfl
    have hl : l.answer ⟨.exact⟩ Document.looping 2 = some true := by
      refine Link.answer_eq_some_true_iff.2
        ⟨by decide, List.forall_mem_cons.2 ⟨?_, List.forall_mem_singleton.2 ?_⟩⟩
      · decide +kernel
      · rw [Condition.answer_firstChild (by decide), Document.previousElement?,
          Document.search_of_none (by decide)]
        rfl
    have hfind : Combinator.descendant.find? Document.looping
        (l.answer ⟨.exact⟩ Document.looping) 5 = some (some 2) :=
      Document.search_eq_some_iff.2 (.further rfl (by decide +kernel) (.here rfl hl))
    rw [answer_of_subject hlinks hsubject, matchLinks_of_find? _ hfind]
    rfl
  · have hlinks : (p.put l').links.reverse = [z, l'] := rfl
    have hl' : l'.answer ⟨.exact⟩ Document.looping 4 = none := by
      rw [Link.answer, if_pos (by decide), meetsAll, Condition.answer_firstChild (by decide),
        Document.previousElement?_looping]
      rfl
    have hparent : Document.looping.parent? 5 = some 4 := by decide
    have hfind : Combinator.descendant.find? Document.looping
        (l'.answer ⟨.exact⟩ Document.looping) 5 = none := by
      refine (Document.search_of_some hparent).trans ?_
      rw [hl']
      rfl
    rw [answer_of_subject hlinks hsubject, matchLinks, hfind]
    rfl

/-- **A weaker link may lose a match**: `a > b.x c` selects the `c`, but `a > b c` does not.  In a
secure place it may lose the answer, if all that is known of the document is that no node is its own
ancestor. -/
theorem Chain.not_matches_of_weakens :
    (¬ ∀ (o : MatchOptions) (d : Document) (p : Chain.Place) (l l' : Link) (id : Nat), d.Built →
      l.Weakens l' → (p.put l).answer o d id = some true →
        (p.put l').answer o d id = some true) ∧
    ¬ ∀ (o : MatchOptions) (d : Document) (p : Chain.Place) (l l' : Link) (id : Nat),
      (∀ x, ¬ d.Ancestor x x) → l.Weakens l' → p.Secure l →
        (p.put l).answer o d id = some true → (p.put l').answer o d id = some true := by
  constructor
  · intro h
    obtain ⟨hm, hlost⟩ := not_matches_insecure
    have hweakens := Link.Weakens.condition { name := some "b", combinator := .child } [] []
      (.className "x")
    cases hlost.symm.trans (h _ _ _ _ _ 4 Document.built_levels hweakens hm)
  · intro h
    obtain ⟨hm, hlost⟩ := not_matches_looping
    have hweakens := Link.Weakens.condition {} [] [.pseudo ⟨"first-child", none⟩] (.className "a")
    cases hlost.symm.trans
      (h _ _ _ _ _ 5 Document.not_ancestor_looping hweakens (.inr (by decide)) hm)

end Css2
