import Css2.Notice

/-!
# Notices are given once

The record holds a text for each notice that was given since it was last cleared, and a notice is
new if its text is not there (`Notices.mem_given_afterAll`).  The text does not tell all notices
apart: a closing bracket and a blank may end the component or stand inside of it, and two notices
have the same text if a part of the one's message is counted to the other's component
(`Notices.key_eq_iff`).  So a notice is given unless it, or one of that kind, was given before
(`Notices.warn_afterAll`).
-/

namespace Css2

namespace Notices

inductive Call where
  | warn (component message : String)
  | clear

def after (n : Notices) : Call → Notices
  | .warn component message => (n.warn component message).2
  | .clear => n.clear

def afterAll (n : Notices) (calls : List Call) : Notices :=
  calls.foldl after n

/-- A notice is called for, and the record is not cleared behind that. -/
def Stands (calls : List Call) (component message : String) : Prop :=
  ∃ before since, calls = before ++ .warn component message :: since ∧ .clear ∉ since

/-- The second notice is the first one with a part of its message, up to a closing bracket and a
blank, counted to its component. -/
def Shifted (component message component' message' : String) : Prop :=
  ∃ part, component' = component ++ "] " ++ part ∧ message = part ++ "] " ++ message'

/-! ### The text of a notice -/

theorem shifted_of_append {c c' part m m' : List Char} (hc : c' = c ++ part)
    (hm : ']' :: ' ' :: m = part ++ ']' :: ' ' :: m') :
    c' = c ∧ m = m' ∨ ∃ t, c' = c ++ ']' :: ' ' :: t ∧ m = t ++ ']' :: ' ' :: m' := by
  subst hc
  match part with
  | [] =>
    rw [List.nil_append, List.cons.injEq, List.cons.injEq] at hm
    exact .inl ⟨List.append_nil c, hm.2.2⟩
  | [d] =>
    rw [List.singleton_append, List.cons.injEq, List.cons.injEq] at hm
    exact absurd hm.2.1 (by decide)
  | d :: e :: t =>
    rw [List.cons_append, List.cons_append, List.cons.injEq, List.cons.injEq] at hm
    obtain ⟨rfl, rfl, rfl⟩ := hm
    exact .inr ⟨t, rfl, rfl⟩

theorem toList_key (component message : String) :
    (key component message).toList = '[' :: (component.toList ++ ']' :: ' ' :: message.toList) := by
  simp [key, String.toList_append]

theorem shifted_iff (c m c' m' : String) : Shifted c m c' m' ↔
    ∃ t, c'.toList = c.toList ++ ']' :: ' ' :: t ∧ m.toList = t ++ ']' :: ' ' :: m'.toList := by
  constructor
  · rintro ⟨part, rfl, rfl⟩
    exact ⟨part.toList, by simp, by simp⟩
  · rintro ⟨t, hc, hm⟩
    refine ⟨String.ofList t, String.toList_inj.1 ?_, String.toList_inj.1 ?_⟩
    · rw [hc]
      simp
    · rw [hm]
      simp

/-- **Which notices have the same text.** -/
theorem key_eq_iff (c m c' m' : String) : key c m = key c' m' ↔
    (c' = c ∧ m = m') ∨ Shifted c m c' m' ∨ Shifted c' m' c m := by
  have htext : key c m = key c' m' ↔ (key c m).toList = (key c' m').toList :=
    String.toList_inj.symm
  rw [htext, shifted_iff, shifted_iff, toList_key, toList_key, List.cons.injEq]
  constructor
  · rintro ⟨-, heq⟩
    rcases List.append_eq_append_iff.1 heq with ⟨part, hc, hm⟩ | ⟨part, hc, hm⟩
    · rcases shifted_of_append hc hm with ⟨hc, hm⟩ | hshift
      · exact .inl ⟨String.toList_inj.1 hc, String.toList_inj.1 hm⟩
      · exact .inr (.inl hshift)
    · rcases shifted_of_append hc hm with ⟨hc, hm⟩ | hshift
      · exact .inl ⟨String.toList_inj.1 hc.symm, String.toList_inj.1 hm.symm⟩
      · exact .inr (.inr hshift)
  · rintro (⟨rfl, rfl⟩ | ⟨t, hc, hm⟩ | ⟨t, hc, hm⟩)
    · exact ⟨rfl, rfl⟩
    · rw [hc, hm]
      simp
    · rw [hc, hm]
      simp

/-! ### What the record holds -/

theorem not_stands_nil (c m : String) : ¬ Stands [] c m := by
  rintro ⟨before, since, heq, -⟩
  simp at heq

theorem stands_cons {call : Call} {calls : List Call} {c m : String} :
    Stands (call :: calls) c m ↔ (call = .warn c m ∧ .clear ∉ calls) ∨ Stands calls c m := by
  constructor
  · rintro ⟨before, since, heq, hclear⟩
    cases before with
    | nil =>
      obtain ⟨rfl, rfl⟩ := List.cons.inj heq
      exact .inl ⟨rfl, hclear⟩
    | cons first before =>
      obtain ⟨rfl, rfl⟩ := List.cons.inj heq
      exact .inr ⟨before, since, rfl, hclear⟩
  · rintro (⟨rfl, hclear⟩ | ⟨before, since, rfl, hclear⟩)
    · exact ⟨[], calls, rfl, hclear⟩
    · exact ⟨call :: before, since, rfl, hclear⟩

theorem warn_fst (n : Notices) (c m : String) :
    (n.warn c m).1 = true ↔ key c m ∉ n.given := by
  rw [warn]
  split
  · next h => simpa using h
  · next h => simpa using h

theorem mem_given_warn (n : Notices) (c m k : String) :
    k ∈ (n.warn c m).2.given ↔ k ∈ n.given ∨ key c m = k := by
  rw [warn]
  split
  · next h =>
    rw [List.contains_iff_mem] at h
    constructor
    · exact .inl
    · rintro (hk | rfl)
      · exact hk
      · exact h
  · rw [List.mem_cons, or_comm, eq_comm]

/-- **The record holds the texts of the notices that were called for since it was last cleared**,
and those that it has held before if it was not cleared. -/
theorem mem_given_afterAll (n : Notices) (calls : List Call) (k : String) :
    k ∈ (n.afterAll calls).given ↔
      (k ∈ n.given ∧ .clear ∉ calls) ∨ ∃ c m, Stands calls c m ∧ key c m = k := by
  induction calls generalizing n with
  | nil => simp [afterAll, not_stands_nil]
  | cons call calls ih =>
    have hrun : n.afterAll (call :: calls) = (n.after call).afterAll calls := rfl
    simp only [hrun, ih, stands_cons, List.mem_cons, not_or]
    cases call with
    | warn c m =>
      simp only [after, mem_given_warn, Call.warn.injEq, reduceCtorEq, not_false_eq_true, true_and]
      constructor
      · rintro (⟨hk | rfl, hclear⟩ | ⟨c', m', hstands, rfl⟩)
        · exact .inl ⟨hk, hclear⟩
        · exact .inr ⟨c, m, .inl ⟨⟨rfl, rfl⟩, hclear⟩, rfl⟩
        · exact .inr ⟨c', m', .inr hstands, rfl⟩
      · rintro (⟨hk, hclear⟩ | ⟨c', m', ⟨⟨rfl, rfl⟩, hclear⟩ | hstands, rfl⟩)
        · exact .inl ⟨.inl hk, hclear⟩
        · exact .inl ⟨.inr rfl, hclear⟩
        · exact .inr ⟨c', m', hstands, rfl⟩
    | clear => simp [after, clear]

/-! ### New notices -/

/-- The component has no closing bracket with a blank behind it. -/
def Closed (component : String) : Prop :=
  ¬ [']', ' '] <:+: component.toList

theorem closed_of_notMem {component : String} (h : ']' ∉ component.toList) : Closed component := by
  rintro ⟨s, t, heq⟩
  rw [← heq] at h
  simp at h

theorem Shifted.not_closed {c m c' m' : String} (h : Shifted c m c' m') : ¬ Closed c' := by
  obtain ⟨part, rfl, -⟩ := h
  intro hclosed
  exact hclosed ⟨c.toList, part.toList, by simp⟩

/-- **When a notice is new.**  It is given if and only if neither the same notice nor one that is
shifted against it was called for before, since the record was last cleared.  Among components
without a closing bracket and a blank that is the notice itself: one with the same component and the
same message. -/
theorem warn_afterAll (calls : List Call) (component message : String) :
    ((((({} : Notices).afterAll calls).warn component message).1 = true ↔
        ¬ Stands calls component message ∧ ∀ c m, Stands calls c m →
          ¬ Shifted c m component message ∧ ¬ Shifted component message c m)) ∧
      (Closed component → (∀ c m, .warn c m ∈ calls → Closed c) →
        (((({} : Notices).afterAll calls).warn component message).1 = true ↔
          ¬ Stands calls component message)) := by
  have hnew : (((({} : Notices).afterAll calls).warn component message).1 = true ↔
      ¬ Stands calls component message ∧ ∀ c m, Stands calls c m →
        ¬ Shifted c m component message ∧ ¬ Shifted component message c m) := by
    rw [warn_fst, mem_given_afterAll]
    constructor
    · intro h
      refine ⟨fun hstands => h (.inr ⟨_, _, hstands, rfl⟩), fun c m hstands => ⟨?_, ?_⟩⟩
      · intro hshift
        exact h (.inr ⟨c, m, hstands, (key_eq_iff ..).2 (.inr (.inl hshift))⟩)
      · intro hshift
        exact h (.inr ⟨c, m, hstands, (key_eq_iff ..).2 (.inr (.inr hshift))⟩)
    · rintro ⟨hself, hothers⟩ (⟨hgiven, -⟩ | ⟨c, m, hstands, hkey⟩)
      · cases hgiven
      · rcases (key_eq_iff ..).1 hkey with ⟨rfl, rfl⟩ | hshift | hshift
        · exact hself hstands
        · exact (hothers c m hstands).1 hshift
        · exact (hothers c m hstands).2 hshift
  refine ⟨hnew, fun hcomponent hcalls => hnew.trans (and_iff_left ?_)⟩
  rintro c m ⟨before, since, rfl, -⟩
  exact ⟨fun hshift => hshift.not_closed hcomponent,
    fun hshift => hshift.not_closed (hcalls c m (by simp))⟩

/-- Two components, one of which begins like the other, and the record is cleared in between. -/
theorem warn_afterAll_cleared :
    Closed "matching" ∧ (∀ c m, .warn c m ∈ [Call.warn "match" "x", .clear, .warn "matching" "y"] →
        Closed c) ∧
      (((({} : Notices).afterAll [.warn "match" "x", .clear, .warn "matching" "y"]).warn
          "matching" "x").1 = true ↔
        ¬ Stands [.warn "match" "x", .clear, .warn "matching" "y"] "matching" "x") := by
  have hcomponent : Closed "matching" := closed_of_notMem (by simp)
  have hcalls : ∀ c m, .warn c m ∈ [Call.warn "match" "x", .clear, .warn "matching" "y"] →
      Closed c := by
    intro c m h
    simp only [List.mem_cons, Call.warn.injEq, reduceCtorEq, List.not_mem_nil, or_false,
      false_or] at h
    rcases h with ⟨rfl, -⟩ | ⟨rfl, -⟩
    · exact closed_of_notMem (by simp)
    · exact hcomponent
  exact ⟨hcomponent, hcalls, (warn_afterAll _ _ _).2 hcomponent hcalls⟩

/-- **A notice may be taken for another one.**  The second of two notices is not given, though it
has not been called for before: the first one has the same text. -/
theorem not_warn_afterAll :
    ¬ ∀ (calls : List Call) (component message : String),
      ((({} : Notices).afterAll calls).warn component message).1 = true ↔
        ¬ Stands calls component message := by
  intro h
  have hstands : ¬ Stands [.warn "a" "b] c"] "a] b" "c" := by
    rw [stands_cons]
    simp [not_stands_nil]
  exact absurd ((h [.warn "a" "b] c"] "a] b" "c").2 hstands) (by decide)

end Notices

end Css2
