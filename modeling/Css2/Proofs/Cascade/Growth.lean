import Css2.Proofs.Cascade.Styles
import Css2.Proofs.Document.Growth
import Css2.Proofs.Document.Siblings

/-!
# Growing a document

A node that is appended leaves what was found before as it is: the matches of all other nodes, but
for those below the appended one, and the styles of all elements that belonged to the tree already
(`Document.append_keeps`).

Where two documents agree, an element has the same matching rulesets, so it gets the same style from
the same parent style (`Document.Agrees.resolve_eq`).  The rest is an induction down the tree, since
the nearest element above an element is the same in both documents too
(`Document.Agrees.styles_eq`).
-/

namespace Css2

open Document

/-! ### One element -/

namespace Document.Agrees

variable {d d' : Document} {s : Set Nat} {i : Nat} (h : d.Agrees d' s) (hi : i ∈ s)

include h hi

theorem matchSpecificity?_eq (o : MatchOptions) (sel : Selector) :
    sel.matchSpecificity? o d' i = sel.matchSpecificity? o d i := by
  rw [Selector.matchSpecificity?, Selector.matchSpecificity?]
  rw [List.filter_congr fun c _ => c.matches_eq h hi o]

theorem matched_eq (c : Cascade) (o : ResolveOptions) : c.matched o d' i = c.matched o d i := by
  rw [Cascade.matched, Cascade.matched, h.isElement_eq hi]
  split
  · refine List.filterMap_congr fun entry _ => ?_
    rw [h.matchSpecificity?_eq hi]
  · rfl

/-- **Where two documents agree, an element gets the same style** from the same parent style. -/
theorem resolve_eq (c : Cascade) (o : ResolveOptions) (parent : Style) :
    c.resolve o d' parent i = c.resolve o d parent i := by
  have hsorted : c.sortedWinners o d' i = c.sortedWinners o d i := by
    rw [Cascade.sortedWinners, Cascade.winners, Cascade.candidates, h.matched_eq hi]
    rfl
  rw [Cascade.resolve, Cascade.resolve, h.isElement_eq hi, hsorted]

end Document.Agrees

/-! ### The elements of a tree -/

theorem Cascade.Resolved.exists_style {c : Cascade} {o : ResolveOptions} {d : Document}
    {styles : Std.HashMap Nat Style} {e : Nat} (h : c.Resolved o d styles e) :
    ∃ s, styles[e]? = some s := by
  rcases h with ⟨a, s, ha, has, he⟩ | ⟨hnone, he⟩
  · exact ⟨_, he⟩
  · exact ⟨_, he⟩

/-- The pass over a tree ends with the styles of the document, and these are sound. -/
theorem Document.IsTree.sound_styles {d : Document} (h : d.IsTree) (c : Cascade)
    (o : ResolveOptions) :
    StylePass.Ends c o d .start (c.styles o d) ∧ StylePass.Sound c o d ⟨c.styles o d, []⟩ := by
  obtain ⟨styles, hends, hsound⟩ := (StylePass.sound_start h).ends h
  obtain rfl : c.styles o d = styles := hends.run_eq
  exact ⟨hends, hsound⟩

/-- In a tree, the elements below the document itself have the styles that resolve. -/
theorem Document.IsTree.resolved_styles {d : Document} (h : d.IsTree) {c : Cascade}
    {o : ResolveOptions} {e : Nat} (hel : d.isElement e = true) (he : d.Under root e) :
    c.Resolved o d (c.styles o d) e := by
  have hsound := (h.sound_styles c o).2
  exact hsound.resolved e ((hsound.covered e hel he).resolve_right nofun)

namespace Document.Agrees

variable {d d' : Document} {s : Set Nat} (h : d.Agrees d' s) (ht : d.IsTree) (ht' : d'.IsTree)
  (hs : ∀ x, d.Under root x → x ∈ s)

include h ht ht' hs

theorem under_root {x : Nat} (hx : d.Under root x) : d'.Under root x := by
  induction hx with
  | refl => exact .refl
  | @tail y z hy hyz ih =>
    have hz : z ∈ s := hs z (Relation.ReflTransGen.tail hy hyz)
    refine Under.trans ih (under_of_mem_children ((ht'.mem_children_iff y z).2 ?_))
    rw [h.parent z hz]
    exact (ht.mem_children_iff y z).1 hyz

/-- An element has the same style in both documents if the elements above it have. -/
theorem styles_eq_of_above {c : Cascade} {o : ResolveOptions} {e : Nat}
    (hel : d.isElement e = true) (he : d.Under root e)
    (habove : ∀ a, d.Ancestor a e → d.isElement a = true →
      (c.styles o d')[a]? = (c.styles o d)[a]?) :
    (c.styles o d')[e]? = (c.styles o d)[e]? := by
  have hes : e ∈ s := hs e he
  have hel' : d'.isElement e = true := (h.isElement_eq hes).trans hel
  have hnearest {a : Nat} : FirstAlong d'.parent? d'.isElement e a ↔
      FirstAlong d.parent? d.isElement e a := h.firstAlong_parent?_iff hes
  rcases ht.resolved_styles hel he with ⟨a, s, ha, hstyle, heq⟩ | ⟨hnone, heq⟩ <;>
    rcases ht'.resolved_styles hel' (h.under_root ht ht' hs he) with
      ⟨a', s', ha', hstyle', heq'⟩ | ⟨hnone', heq'⟩
  · obtain rfl : a' = a := (hnearest.1 ha').unique ha
    have habove' := habove a' ha.leads ha.passes
    rw [hstyle, hstyle', Option.some_inj] at habove'
    rw [heq, heq', h.resolve_eq hes, habove']
  · exact absurd (hnearest.2 ha) (not_firstAlong hnone')
  · exact absurd (hnearest.1 ha') (not_firstAlong hnone)
  · rw [heq, heq', h.resolve_eq hes]

/-- **Where two trees agree at all that is below the document itself in one of them, the elements
there have the same styles.** -/
theorem styles_eq (c : Cascade) (o : ResolveOptions) {e : Nat} (hel : d.isElement e = true)
    (he : d.Under root e) : (c.styles o d')[e]? = (c.styles o d)[e]? := by
  -- the induction goes down to the element and carries the elements above it along
  suffices hall : ∀ x, d.Under root x → ∀ a, a = x ∨ d.Ancestor a x → d.isElement a = true →
      (c.styles o d')[a]? = (c.styles o d)[a]? from hall e he e (.inl rfl) hel
  intro x hx
  induction hx with
  | refl =>
    have hnone : ∀ a, ¬ d.Ancestor a root := fun a => not_leads_of_none ht.root_free
    rintro a (rfl | ha) hel
    · exact h.styles_eq_of_above ht ht' hs hel .refl fun b hb => absurd hb (hnone b)
    · exact absurd ha (hnone a)
  | @tail y z hy hyz ih =>
    have hup {b : Nat} : d.Ancestor b z ↔ b = y ∨ d.Ancestor b y :=
      leads_iff_of_some ((ht.mem_children_iff y z).1 hyz)
    rintro a (rfl | ha) hel
    · refine h.styles_eq_of_above ht ht' hs hel (Relation.ReflTransGen.tail hy hyz) ?_
      intro b hb
      exact ih b (hup.1 hb)
    · exact ih a (hup.1 ha) hel

end Document.Agrees

/-! ### Appending a node -/

/-- **A node that is appended disturbs nothing that was found before.**  It is not the document
itself, it has no parent yet, and it is neither its new parent nor an ancestor of that.  Every chain
has the same answer for a node as before, unless that is the appended one or below it.  The pass
over the nodes ends before and after, and every element that was below the document itself has a
style and keeps it. -/
theorem Document.append_keeps {d d' : Document} {parent child : Nat} (h : d.Built)
    (hroot : child ≠ root) (hfree : d.parent? child = none) (hne : child ≠ parent)
    (hnot : ¬ d.Ancestor child parent) (hd : d.append? parent child = some d') :
    (∀ (o : MatchOptions) (c : Chain) (id : Nat), ¬ d.Under child id →
      ∃ b, c.answer o d id = some b ∧ c.answer o d' id = some b) ∧
    ∀ (c : Cascade) (o : ResolveOptions),
      StylePass.Ends c o d .start (c.styles o d) ∧ StylePass.Ends c o d' .start (c.styles o d') ∧
      ∀ e, d.isElement e = true → d.Under root e →
        ∃ s, (c.styles o d)[e]? = some s ∧ (c.styles o d')[e]? = some s := by
  have ht : d.IsTree := h.isTree
  have ht' : d'.IsTree := (h.append hroot hfree hne hnot hd).isTree
  unfold append? at hd
  split at hd
  · next hlt =>
    obtain rfl := Option.some_inj.1 hd
    have hagrees : d.Agrees (d.append parent child) {i | ¬ d.Under child i} :=
      h.agrees_append hfree hlt.2
    refine ⟨fun o c id hid => ?_, fun c o => ?_⟩
    · obtain ⟨b, hb⟩ := c.exists_answer h.wellFormed o id
      exact ⟨b, hb, (c.answer_eq hagrees hid o).trans hb⟩
    · refine ⟨(ht.sound_styles c o).1, (ht'.sound_styles c o).1, fun e hel he => ?_⟩
      obtain ⟨s, hs⟩ := (ht.resolved_styles hel he).exists_style
      have heq := hagrees.styles_eq ht ht' (fun x => ht.not_under_of_free hroot hfree) c o hel he
      exact ⟨s, hs, heq.trans hs⟩
  · cases hd

/-- An element is appended to a paragraph with an element in it.  The one that was there is selected
as before, and it keeps its style. -/
theorem Document.append_keeps_nested :
    nested.Built ∧ 4 ≠ root ∧ nested.parent? 4 = none ∧ 4 ≠ 1 ∧ ¬ nested.Ancestor 4 1 ∧
      nested.append? 1 4 = some (nested.append 1 4) ∧
      ¬ nested.Under 4 3 ∧ nested.isElement 3 = true ∧ nested.Under root 3 ∧
      (∀ (o : MatchOptions) (c : Chain), ∃ b,
        c.answer o nested 3 = some b ∧ c.answer o (nested.append 1 4) 3 = some b) ∧
      ∀ (c : Cascade) (o : ResolveOptions), ∃ s, (c.styles o nested)[3]? = some s ∧
        (c.styles o (nested.append 1 4))[3]? = some s := by
  have hnot : ¬ nested.Ancestor 4 1 := by
    have hup : nested.ancestors 1 = some [0] := by cbv
    exact mt (mem_walk_iff hup).2 (by decide)
  have hid : ¬ nested.Under 4 3 :=
    built_nested.isTree.not_under_of_free (by decide) (by decide) under_nested
  have hd : nested.append? 1 4 = some (nested.append 1 4) := by decide
  obtain ⟨hanswers, hstyles⟩ :=
    append_keeps built_nested (by decide) (by decide) (by decide) hnot hd
  exact ⟨built_nested, by decide, by decide, by decide, hnot, hd, hid, by decide, under_nested,
    fun o c => hanswers o c 3 hid, fun c o => (hstyles c o).2.2 3 (by decide) under_nested⟩

end Css2
