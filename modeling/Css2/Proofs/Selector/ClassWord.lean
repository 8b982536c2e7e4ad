import Css2.Proofs.Selector.Weakening

/-!
# Classes as words

The condition `.name` means that the name is a word of the attribute `class`, and so does the test
`[class~="name"]`.  They are decided in two ways.  The test does not pass for a name with white
space in it, since no word has any, but what counts as white space there is more than what separates
words: a no-break space may stand in a class, and it is a letter in a name.  For a name without
such a character the one may be written for the other in any link of any chain, and a chain with any
other name behind `~=` selects nothing (`Chain.matches_classWord`).
-/

namespace Css2

/-! ### Words of an attribute -/

theorem mem_wordsFrom {word cs w : List Char} (hword : ∀ c ∈ word, isBlank c = false)
    (h : w ∈ wordsFrom word cs) : w ≠ [] ∧ ∀ c ∈ w, isBlank c = false := by
  -- the word that is being read counts as the first one, if it is one
  have hfirst : w ∈ (if word.isEmpty then [] else [word.reverse]) →
      w ≠ [] ∧ ∀ c ∈ w, isBlank c = false := by
    intro hw
    cases word with
    | nil => cases hw
    | cons c word =>
      obtain rfl := List.mem_singleton.1 hw
      refine ⟨by simp, ?_⟩
      intro c hc
      exact hword c (List.mem_reverse.1 hc)
  induction cs generalizing word with
  | nil => exact hfirst h
  | cons c cs ih =>
    rw [wordsFrom] at h
    by_cases hc : isBlank c = true
    · rw [if_pos hc] at h
      by_cases hempty : word.isEmpty = true
      · rw [if_pos hempty] at h
        exact ih (by simp) h (by simp)
      · rw [if_neg hempty] at h hfirst
        rcases List.mem_cons.1 h with rfl | h
        · exact hfirst (by simp)
        · exact ih (by simp) h (by simp)
    · rw [if_neg hc] at h
      have hcons : ∀ d ∈ c :: word, isBlank d = false := by
        intro d hd
        rcases List.mem_cons.1 hd with rfl | hd
        · simpa using hc
        · exact hword d hd
      refine ih hcons h ?_
      intro hw
      obtain rfl : w = (c :: word).reverse := by simpa using hw
      refine ⟨by simp, ?_⟩
      intro d hd
      exact hcons d (List.mem_reverse.1 hd)

theorem mem_words {text w : String} (h : w ∈ words text) :
    w ≠ "" ∧ ∀ c ∈ w.toList, isBlank c = false := by
  obtain ⟨cs, hcs, rfl⟩ := List.mem_map.1 h
  obtain ⟨hne, hall⟩ := mem_wordsFrom (by simp) hcs
  rw [String.toList_ofList]
  refine ⟨?_, hall⟩
  intro heq
  exact hne (by rw [← String.toList_ofList (l := cs), heq]; rfl)

/-- White space that separates no words: the vertical tab, and that outside ASCII. -/
def isInnerSpace (c : Char) : Bool :=
  isSpacing c && !isBlank c

/-! ### The two conditions -/

/-- The test `[class~="name"]`. -/
def Condition.classWord (name : String) : Condition :=
  .attributes [⟨"class", .includes, some name⟩]

/-- **What the test and the class have in common.**  The test passes where the name is one of the
classes and has no white space of any kind. -/
theorem Condition.classWord_eq (o : MatchOptions) (d : Document) (id : Nat) (name : String) :
    (classWord name).answer o d id =
      ((className name).answer ⟨.exact⟩ d id).map (· && !name.toList.any isInnerSpace) := by
  simp only [classWord, Condition.answer, AttributeSel.matches, List.all_cons, List.all_nil,
    Bool.and_true, Option.getD_some, Option.map_some, Option.some_inj]
  cases d.attribute? id "class" with
  | none => rfl
  | some value =>
    rw [Option.any_some]
    dsimp only
    by_cases hmem : (words value).contains name = true
    · obtain ⟨hne, hblank⟩ := mem_words (List.contains_iff_mem.1 hmem)
      have hspace : name.toList.any isSpacing = name.toList.any isInnerSpace := by
        rw [Bool.eq_iff_iff, List.any_eq_true, List.any_eq_true]
        refine exists_congr fun c => and_congr_right fun hc => ?_
        rw [isInnerSpace, hblank c hc, Bool.not_false, Bool.and_true]
      rw [hmem, hspace, Bool.and_true, Bool.true_and, bne_iff_ne.2 hne, Bool.true_and]
    · rw [Bool.not_eq_true] at hmem
      rw [hmem, Bool.and_false, Bool.false_and]

/-! ### Conditions that mean the same -/

section

variable {o : MatchOptions} {d : Document} {l l' : Link}

/-- The link with one more condition, between others. -/
def Link.withCondition (l : Link) (cs ds : List Condition) (k : Condition) : Link :=
  { l with conditions := cs ++ k :: ds }

theorem Link.answer_withCondition_congr {k k' : Condition} {n : Nat}
    (hk : k'.answer o d n = k.answer o d n) (l : Link) (cs ds : List Condition) :
    (l.withCondition cs ds k').answer o d n = (l.withCondition cs ds k).answer o d n := by
  have hall : meetsAll o d n (cs ++ k' :: ds) = meetsAll o d n (cs ++ k :: ds) := by
    induction cs with
    | nil => rw [List.nil_append, List.nil_append, meetsAll, meetsAll, hk]
    | cons c cs ih => rw [List.cons_append, List.cons_append, meetsAll, meetsAll, ih]
  exact congrArg (if l.matchesName d n then · else some false) hall

theorem matchLinks_congr (hc : l'.combinator = l.combinator) (hl : l'.answer o d = l.answer o d)
    (ls rs : List Link) (c : Combinator) (n : Nat) :
    matchLinks o d (ls ++ l' :: rs) c n = matchLinks o d (ls ++ l :: rs) c n := by
  induction ls generalizing c n with
  | nil => rw [List.nil_append, List.nil_append, matchLinks, matchLinks, hl, hc]
  | cons k ls ih =>
    rw [List.cons_append, List.cons_append, matchLinks, matchLinks]
    refine Option.bind_congr fun found _ => ?_
    cases found with
    | none => rfl
    | some m => exact ih _ _

/-- Links that the same nodes meet may stand for each other anywhere in a chain. -/
theorem Chain.answer_put_congr (hc : l'.combinator = l.combinator)
    (hl : l'.answer o d = l.answer o d) (p : Chain.Place) (id : Nat) :
    (p.put l').answer o d id = (p.put l).answer o d id := by
  rw [Chain.answer, Chain.answer, p.reverse_put, p.reverse_put]
  cases p.after.reverse with
  | nil =>
    rw [List.nil_append, List.nil_append]
    dsimp only
    rw [hl, hc]
  | cons subject ls =>
    rw [List.cons_append, List.cons_append]
    dsimp only
    rw [matchLinks_congr hc hl]

theorem Chain.matches_put_of_never (hl : ∀ n, l.answer o d n ≠ some true) (p : Chain.Place)
    (id : Nat) : (p.put l).matches o d id = false := by
  refine decide_eq_false fun hm => ?_
  obtain ⟨ps, hps⟩ := exists_witness hm
  have hmem : l ∈ ps.map Prod.fst := by
    rw [hps.links]
    simp [Place.put]
  obtain ⟨q, hq, rfl⟩ := List.mem_map.1 hmem
  exact hl q.2 (hps.meets q hq)

end

/-- **A class is a word of the attribute `class`.**  If any condition `.name` of any link of a chain
is written as `[class~="name"]` then the chain selects the same nodes, provided that the name has no
white space that separates no words.  If it has, then the chain with the test selects no node. -/
theorem Chain.matches_classWord (p : Chain.Place) (l : Link) (cs ds : List Condition)
    (name : String) (d : Document) (id : Nat) :
    (p.put (l.withCondition cs ds (.classWord name))).matches ⟨.exact⟩ d id =
      ((p.put (l.withCondition cs ds (.className name))).matches ⟨.exact⟩ d id &&
        !name.toList.any isInnerSpace) := by
  cases hspace : name.toList.any isInnerSpace with
  | false =>
    have hl : (l.withCondition cs ds (.classWord name)).answer ⟨.exact⟩ d =
        (l.withCondition cs ds (.className name)).answer ⟨.exact⟩ d := by
      funext n
      refine l.answer_withCondition_congr ?_ cs ds
      simp [Condition.classWord_eq, hspace]
    have hc : (l.withCondition cs ds (.classWord name)).combinator =
        (l.withCondition cs ds (.className name)).combinator := rfl
    rw [Chain.matches, Chain.matches, answer_put_congr hc hl p id, Bool.not_false, Bool.and_true]
  | true =>
    rw [Bool.not_true, Bool.and_false]
    refine matches_put_of_never ?_ p id
    intro n hn
    have hword := (Link.answer_eq_some_true_iff.1 hn).2 (.classWord name)
      (by simp [Link.withCondition])
    rw [Condition.classWord_eq, hspace] at hword
    simp at hword

/-- A paragraph with one class, in which there is a no-break space. -/
def Document.spacedClass : Document :=
  (empty.alloc (.element "p" [("class", "a\xa0b")])).append 0 1

theorem Document.built_spacedClass : spacedClass.Built := by
  refine .append_leaf (.alloc .empty _) ?_ ?_ ?_ ?_ ?_
  all_goals decide

/-- **A class with a no-break space is no word for the test**: the paragraph has the class, but the
test does not pass. -/
theorem Chain.not_matches_classWord :
    ¬ ∀ (p : Chain.Place) (l : Link) (cs ds : List Condition) (name : String) (d : Document)
      (id : Nat), d.Built →
      (p.put (l.withCondition cs ds (.classWord name))).matches ⟨.exact⟩ d id =
        (p.put (l.withCondition cs ds (.className name))).matches ⟨.exact⟩ d id := by
  intro h
  have heq := h ⟨[], []⟩ {} [] [] "a\xa0b" Document.spacedClass 1 Document.built_spacedClass
  revert heq
  decide +kernel

end Css2
