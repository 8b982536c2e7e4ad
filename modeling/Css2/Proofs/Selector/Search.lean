import Css2.Proofs.Document.Walk
import Css2.Selector.Match

/-!
# The search for a node

For each link of a chain the search settles on one node, which stands to the node of the next link
as the combinator between them says and meets the link (`Combinator.find?_some`).  A parent or a
neighbour is the only one to look at (`Combinator.find?_of_near`).  Of the ancestors it is the
nearest that meets the link (`Combinator.find?_of_far`), if the search gets that far.

All this says what is found if anything is.  In a well-formed document every search ends, so there
is an answer for any chain and any node (`Chain.exists_answer`).
-/

namespace Css2

open Document

/-! ### Where to look -/

namespace Combinator

/-- How the node `m` of a link stands to the node `n` of the next one, which the combinator joins to
it. -/
def Relates (c : Combinator) (d : Document) (m n : Nat) : Prop :=
  match c with
  | first | descendant => d.Ancestor m n
  | child => d.parent? n = some m
  | adjacent => FirstAlong d.previous? d.isElement n m

/-- Whether the combinator leaves no choice: a node has one parent, and one element is the nearest
before it. -/
def isNear : Combinator → Bool
  | child | adjacent => true
  | first | descendant => false

end Combinator

/-! ### What comes behind a test -/

section

variable {α : Type} {test : Option Bool} {more : Option α} {a b : α}

theorem passes_eq_some_iff (hab : b ≠ a) :
    (do if ← test then more else return b) = some a ↔ test = some true ∧ more = some a := by
  rcases test with _ | _ | _
  · simp
  · simp [hab]
  · simp

theorem exists_passes (htest : ∃ t, test = some t) (hmore : ∃ a, more = some a) :
    ∃ a, (do if ← test then more else return b) = some a := by
  obtain ⟨t, rfl⟩ := htest
  cases t with
  | true => exact hmore
  | false => exact ⟨b, rfl⟩

end

/-! ### Combinators -/

variable {p : Nat → Option Bool} {d : Document} {m n : Nat}

theorem keepIf_eq_some_some_iff {r : Option Nat} :
    keepIf p r = some (some m) ↔ r = some m ∧ p m = some true := by
  cases r with
  | none => simp [keepIf]
  | some k =>
    rw [keepIf, passes_eq_some_iff (Option.some_ne_none m).symm]
    constructor
    · rintro ⟨hm, hk⟩
      cases hk
      exact ⟨rfl, hm⟩
    · rintro ⟨hk, hm⟩
      cases hk
      exact ⟨hm, rfl⟩

theorem exists_keepIf (hp : ∀ k, ∃ t, p k = some t) (r : Option Nat) :
    ∃ s, keepIf p r = some s := by
  cases r with
  | none => exact ⟨none, rfl⟩
  | some k => exact exists_passes (hp k) ⟨some k, rfl⟩

namespace Combinator

variable {c : Combinator}

theorem find?_some (h : c.find? d p n = some (some m)) : c.Relates d m n ∧ p m = some true := by
  cases c with
  | first | descendant => exact (search_eq_some_iff.1 h).leads
  | child => exact keepIf_eq_some_some_iff.1 h
  | adjacent =>
    obtain ⟨previous, hprevious, h⟩ := Option.bind_eq_some_iff.1 h
    obtain ⟨rfl, hm⟩ := keepIf_eq_some_some_iff.1 h
    exact ⟨previousElement?_eq_some_iff.1 hprevious, hm⟩

theorem find?_of_near (hc : c.isNear = true) (hrel : c.Relates d m n) (hm : p m = some true) :
    c.find? d p n = some (some m) := by
  cases c with
  | first | descendant => cases hc
  | child => exact keepIf_eq_some_some_iff.2 ⟨hrel, hm⟩
  | adjacent =>
    exact Option.bind_eq_some_iff.2
      ⟨some m, previousElement?_eq_some_iff.2 hrel, keepIf_eq_some_some_iff.2 ⟨rfl, hm⟩⟩

/-- A search among the ancestors does not miss one that passes, but it may find a nearer one. -/
theorem find?_of_far (hc : c.isNear = false) (hrel : c.Relates d m n) (hm : p m = some true)
    {r : Option Nat} (h : c.find? d p n = some r) :
    ∃ b, r = some b ∧ (b = m ∨ d.Ancestor m b) := by
  cases c with
  | first | descendant =>
    have hfound := search_eq_some_iff.1 h
    cases r with
    | none =>
      have hnot := hfound.refuses hrel
      rw [hm] at hnot
      cases hnot
    | some b => exact ⟨b, rfl, hfound.nearest hrel hm⟩
  | child | adjacent => cases hc

theorem exists_find? (hd : d.WellFormed) (hp : ∀ k, ∃ t, p k = some t) (n : Nat) :
    ∃ r, c.find? d p n = some r := by
  cases c with
  | first | descendant => exact exists_search hd.wellFounded_parent? hp n
  | child => exact exists_keepIf hp _
  | adjacent =>
    obtain ⟨previous, hprevious⟩ := hd.exists_previousElement? n
    obtain ⟨r, hr⟩ := exists_keepIf hp previous
    exact ⟨r, Option.bind_eq_some_iff.2 ⟨previous, hprevious, hr⟩⟩

end Combinator

/-! ### Links -/

variable {o : MatchOptions}

theorem meetsAll_eq_some_true_iff {ks : List Condition} :
    meetsAll o d n ks = some true ↔ ∀ k ∈ ks, k.answer o d n = some true := by
  induction ks with
  | nil => simp [meetsAll]
  | cons k ks ih => rw [meetsAll, List.forall_mem_cons, ← ih, passes_eq_some_iff Bool.false_ne_true]

theorem Link.answer_eq_some_true_iff {l : Link} : l.answer o d n = some true ↔
    l.matchesName d n = true ∧ ∀ k ∈ l.conditions, k.answer o d n = some true := by
  rw [Link.answer, ← meetsAll_eq_some_true_iff]
  cases l.matchesName d n <;> simp

/-! ### Chains -/

theorem matchLinks_of_find? {l : Link} {c : Combinator} (ls : List Link)
    (h : c.find? d (l.answer o d) n = some (some m)) :
    matchLinks o d (l :: ls) c n = matchLinks o d ls l.combinator m := by
  rw [matchLinks, h]
  rfl

/-- The search goes through all links only if it finds a node for the first one. -/
theorem exists_find?_of_matchLinks {l : Link} {ls : List Link} {c : Combinator}
    (h : matchLinks o d (l :: ls) c n = some true) :
    ∃ m, c.find? d (l.answer o d) n = some (some m) ∧
      matchLinks o d ls l.combinator m = some true := by
  rw [matchLinks] at h
  obtain ⟨r, hr, h⟩ := Option.bind_eq_some_iff.1 h
  cases r with
  | none => cases h
  | some m => exact ⟨m, hr, h⟩

section

variable {c : Chain} {l : Link} {ls : List Link}

theorem Chain.answer_of_subject (hlinks : c.links.reverse = l :: ls)
    (hl : l.answer o d n = some true) : c.answer o d n = matchLinks o d ls l.combinator n := by
  rw [Chain.answer, hlinks]
  dsimp only
  rw [hl]
  rfl

theorem Chain.answer_eq_some_true_iff (hlinks : c.links.reverse = l :: ls) :
    c.answer o d n = some true ↔
      l.answer o d n = some true ∧ matchLinks o d ls l.combinator n = some true := by
  rw [Chain.answer, hlinks]
  exact passes_eq_some_iff Bool.false_ne_true

end

/-! ### Well-formed documents -/

theorem Pseudo.exists_answer (hd : d.WellFormed) (k : Pseudo) (n : Nat) :
    ∃ t, k.answer d n = some t := by
  unfold Pseudo.answer
  split
  · split
    · obtain ⟨previous, hprevious⟩ := hd.exists_previousElement? n
      exact ⟨_, by rw [hprevious]; rfl⟩
    · exact ⟨false, rfl⟩
  · next code _ =>
    obtain ⟨found, hfound⟩ : ∃ found, language? d n = some found := by
      unfold language?
      split
      · exact ⟨_, rfl⟩
      · obtain ⟨found, hfound⟩ := exists_search hd.wellFounded_parent?
          (p := fun n => some (d.attribute? n "lang").isSome) (fun k => ⟨_, rfl⟩) n
        exact ⟨_, by rw [hfound]; rfl⟩
    exact ⟨_, by rw [hfound]; rfl⟩
  · exact ⟨false, rfl⟩
  · exact ⟨false, rfl⟩

theorem Condition.exists_answer (hd : d.WellFormed) (o : MatchOptions) (k : Condition) (n : Nat) :
    ∃ t, k.answer o d n = some t := by
  cases k with
  | className name => exact ⟨_, rfl⟩
  | id name => exact ⟨_, rfl⟩
  | pseudo k => exact k.exists_answer hd n
  | attributes tests => exact ⟨_, rfl⟩

theorem Link.exists_answer (hd : d.WellFormed) (o : MatchOptions) (l : Link) (n : Nat) :
    ∃ t, l.answer o d n = some t := by
  have hall (ks : List Condition) : ∃ t, meetsAll o d n ks = some t := by
    induction ks with
    | nil => exact ⟨true, rfl⟩
    | cons k ks ih => exact exists_passes (k.exists_answer hd o n) ih
  unfold Link.answer
  split
  · exact hall l.conditions
  · exact ⟨false, rfl⟩

theorem exists_matchLinks (hd : d.WellFormed) (o : MatchOptions) (ls : List Link) (c : Combinator)
    (n : Nat) : ∃ t, matchLinks o d ls c n = some t := by
  induction ls generalizing c n with
  | nil => exact ⟨true, rfl⟩
  | cons l ls ih =>
    obtain ⟨r, hr⟩ := c.exists_find? hd (l.exists_answer hd o) n
    rw [matchLinks, hr]
    cases r with
    | none => exact ⟨false, rfl⟩
    | some m => exact ih l.combinator m

/-- **In a well-formed document every question has an answer.** -/
theorem Chain.exists_answer (hd : d.WellFormed) (o : MatchOptions) (c : Chain) (n : Nat) :
    ∃ t, c.answer o d n = some t := by
  unfold Chain.answer
  split
  · exact ⟨false, rfl⟩
  · next l ls _ => exact exists_passes (l.exists_answer hd o n) (exists_matchLinks hd o ls _ n)

end Css2
