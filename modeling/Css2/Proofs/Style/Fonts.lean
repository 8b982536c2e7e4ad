import Mathlib.Data.List.Forall2
import Css2.Parser
import Css2.Proofs.Reader.Depth
import Css2.Proofs.Style.Shorthand
import Css2.Proofs.Term.Signs
import Css2.Proofs.Token.Scanned

/-!
# Names of fonts

A value of `font-family` is meant to be a list of names with commas between them, each of them one
string or some identifiers (`NamesFamilies`).  It is read in one pass that remembers nothing but the
name it has so far (`fontNames_cons`), which is the same as cutting the value behind its commas and
reading item by item (`fontNames_eq_readItems`).

* `PassesAsFamily`: what is taken for an item.  A string has to stand where the name is empty, and
  this is so behind empty strings, too; nothing of the kind is asked of an identifier.
* `Style.carryOut_fontFamily`: `font-family` accepts what passes, as long as the last name is not
  empty.  Where strings are apart (`StringsApart`) and the last item is not an empty string, what
  passes is what is meant, because no identifier in a text is empty (`Parser.ident?_ne_of_value`).
* `Style.not_carryOut_fontFamily`: the two differ on a string with an identifier behind it.
-/

namespace Css2

/-! ### Items -/

namespace Term

def string? (t : Term) : Option String :=
  match t.value with
  | .string s => some s
  | _ => none

/-- The word that a term adds to the name of a font: its string or its identifier. -/
def word? (t : Term) : Option String :=
  t.string? <|> t.ident?

end Term

/-- The items of a value, which is cut behind every comma. -/
def cutAtCommas : List Term → List (List Term)
  | [] => [[]]
  | t :: ts =>
    if t.separator = some .comma then [t] :: cutAtCommas ts
    else (cutAtCommas ts).modifyHead (t :: ·)

/-- What an item is meant to be: a string, which is the name as it stands, or identifiers, which
are joined by single blanks. -/
inductive NamesFamily : List Term → String → Prop
  | quoted {t : Term} {name : String} (h : t.string? = some name) : NamesFamily [t] name
  | unquoted {item : List Term} (hne : item ≠ []) (h : ∀ t ∈ item, t.ident?.isSome) :
    NamesFamily item (" ".intercalate (item.filterMap Term.ident?))

/-- What passes for an item: strings and identifiers, where a string has only empty words before
it. -/
structure PassesAsFamily (item : List Term) : Prop where
  words : ∀ t ∈ item, t.word?.isSome
  strings : item.Pairwise fun t u => u.string?.isSome → t.word? = some ""

/-- The words of an item, joined by single blanks.  Empty ones at the front count for nothing. -/
def familyName (item : List Term) : String :=
  " ".intercalate ((item.filterMap Term.word?).dropWhile String.isEmpty)

theorem cutAtCommas_ne_nil (ts : List Term) : cutAtCommas ts ≠ [] := by
  cases ts with
  | nil => exact List.cons_ne_nil _ _
  | cons t ts =>
    rw [cutAtCommas]
    split
    · exact List.cons_ne_nil _ _
    · simpa using cutAtCommas_ne_nil ts

theorem flatten_cutAtCommas (ts : List Term) : (cutAtCommas ts).flatten = ts := by
  induction ts with
  | nil => rfl
  | cons t ts ih =>
    rw [cutAtCommas]
    split
    · rw [List.flatten_cons, ih, List.singleton_append]
    · obtain ⟨first, more, hcut⟩ := List.exists_cons_of_ne_nil (cutAtCommas_ne_nil ts)
      rw [hcut] at ih ⊢
      rw [List.modifyHead_cons, List.flatten_cons, List.cons_append, ← List.flatten_cons, ih]

theorem getLast?_of_nil_mem_cutAtCommas {ts : List Term} (h : [] ∈ cutAtCommas ts) :
    (cutAtCommas ts).getLast? = some [] := by
  induction ts with
  | nil => rfl
  | cons t ts ih =>
    obtain ⟨first, more, hcut⟩ := List.exists_cons_of_ne_nil (cutAtCommas_ne_nil ts)
    rw [cutAtCommas, hcut] at h ⊢
    rw [hcut] at ih
    split at h
    · next hcomma =>
      rw [if_pos hcomma, List.getLast?_cons_cons]
      exact ih (by simpa using h)
    · next hcomma =>
      rw [if_neg hcomma, List.modifyHead_cons] at *
      have hmore : [] ∈ more := by simpa using h
      obtain ⟨second, rest, rfl⟩ := List.exists_cons_of_ne_nil (List.ne_nil_of_mem hmore)
      rw [List.getLast?_cons_cons] at ih ⊢
      exact ih (List.mem_cons_of_mem _ hmore)

/-! ### Reading an item -/

def addWord (name word : String) : String :=
  if name.isEmpty then word else name ++ " " ++ word

/-- The name with the word of one more term.  A string may only stand where the name is empty. -/
def addTerm (name : String) (t : Term) : Option String :=
  if t.string?.isSome && !name.isEmpty then none else t.word?.map (addWord name)

theorem addWord_eq_empty_iff {name word : String} :
    addWord name word = "" ↔ name = "" ∧ word = "" := by
  rw [addWord]
  split <;> simp_all [String.isEmpty_iff]

theorem addTerm_eq_some_iff {name n : String} {t : Term} :
    addTerm name t = some n ↔
      (t.string?.isSome → name = "") ∧ ∃ w, t.word? = some w ∧ addWord name w = n := by
  rw [addTerm, ← Option.map_eq_some_iff]
  split <;> simp_all

/-- Words are joined by single blanks, once there is one that is not empty. -/
theorem foldl_addWord_of_ne {name : String} (h : name ≠ "") (words : List String) :
    words.foldl addWord name = " ".intercalate (name :: words) := by
  induction words generalizing name with
  | nil => simp
  | cons w words ih =>
    have hname : name.isEmpty = false := by simpa [String.isEmpty_iff] using h
    rw [List.foldl_cons, ih (mt addWord_eq_empty_iff.1 (by simp [h])), addWord, hname]
    simp [String.append_assoc]

theorem foldl_addWord (words : List String) :
    words.foldl addWord "" = " ".intercalate (words.dropWhile String.isEmpty) := by
  induction words with
  | nil => simp
  | cons w words ih =>
    rw [List.foldl_cons, List.dropWhile_cons]
    split
    · next hw =>
      rw [String.isEmpty_iff.1 hw]
      exact ih
    · next hw =>
      have hword : w ≠ "" := by simpa using hw
      exact foldl_addWord_of_ne hword words

theorem passesAsFamily_cons {t : Term} {item : List Term} :
    PassesAsFamily (t :: item) ↔
      (t.word?.isSome ∧ ∀ u ∈ item, u.string?.isSome → t.word? = some "") ∧
        PassesAsFamily item := by
  constructor
  · intro h
    obtain ⟨hword, hwords⟩ := List.forall_mem_cons.1 h.words
    obtain ⟨hstring, hstrings⟩ := List.pairwise_cons.1 h.strings
    exact ⟨⟨hword, hstring⟩, hwords, hstrings⟩
  · rintro ⟨⟨hword, hstring⟩, hwords, hstrings⟩
    exact ⟨List.forall_mem_cons.2 ⟨hword, hwords⟩, List.pairwise_cons.2 ⟨hstring, hstrings⟩⟩

/-- **What an item is read as**, where the name that was read before is `name`. -/
theorem foldlM_addTerm_eq_some_iff {name n : String} {item : List Term} :
    item.foldlM addTerm name = some n ↔
      PassesAsFamily item ∧ (name ≠ "" → ∀ t ∈ item, t.string? = none) ∧
        (item.filterMap Term.word?).foldl addWord name = n := by
  induction item generalizing name with
  | nil => simp [PassesAsFamily.mk]
  | cons t item ih =>
    rw [List.foldlM_cons, Option.bind_eq_bind, Option.bind_eq_some_iff, passesAsFamily_cons]
    constructor
    · rintro ⟨m, hm, hitem⟩
      obtain ⟨hstring, w, hw, rfl⟩ := addTerm_eq_some_iff.1 hm
      obtain ⟨hpasses, hnone, rfl⟩ := ih.1 hitem
      refine ⟨⟨⟨by rw [hw]; rfl, fun u hu hs => ?_⟩, hpasses⟩, fun hname => ?_, ?_⟩
      · by_contra hne
        rw [hw, Option.some_inj] at hne
        rw [hnone (fun h => hne (addWord_eq_empty_iff.1 h).2) u hu] at hs
        cases hs
      · refine List.forall_mem_cons.2 ⟨?_, hnone fun h => hname (addWord_eq_empty_iff.1 h).1⟩
        exact Option.not_isSome_iff_eq_none.1 fun hs => hname (hstring hs)
      · rw [List.filterMap_cons_some hw, List.foldl_cons]
    · rintro ⟨⟨⟨hword, hbehind⟩, hpasses⟩, hnone, rfl⟩
      obtain ⟨w, hw⟩ := Option.isSome_iff_exists.1 hword
      have hname {u : Term} (hu : u ∈ t :: item) (hs : u.string?.isSome) : name = "" := by
        by_contra hne
        rw [hnone hne u hu] at hs
        cases hs
      refine ⟨addWord name w, addTerm_eq_some_iff.2 ⟨hname List.mem_cons_self, w, hw, rfl⟩,
        ih.2 ⟨hpasses, fun hne u hu => ?_, by rw [List.filterMap_cons_some hw, List.foldl_cons]⟩⟩
      refine Option.not_isSome_iff_eq_none.1 fun hs => hne (addWord_eq_empty_iff.2 ⟨?_, ?_⟩)
      · exact hname (List.mem_cons_of_mem t hu) hs
      · rw [← Option.some_inj, ← hw]
        exact hbehind u hu hs

/-- **An item is read as its name, if it passes.** -/
theorem readItem_eq_some_iff {n : String} {item : List Term} :
    item.foldlM addTerm "" = some n ↔ PassesAsFamily item ∧ familyName item = n := by
  rw [foldlM_addTerm_eq_some_iff, foldl_addWord, familyName]
  simp

/-! ### Reading a value -/

/-- The names of items, where `name` was read of the first of them.  The last one is not empty. -/
def readItems (name : String) : List (List Term) → Option (List String)
  | [] => none
  | [item] => (item.foldlM addTerm name).bind fun n => if n.isEmpty then none else some [n]
  | item :: items => (item.foldlM addTerm name).bind fun n => (readItems "" items).map (n :: ·)

theorem readItems_cons (name : String) (item : List Term) {items : List (List Term)}
    (h : items ≠ []) : readItems name (item :: items) =
      (item.foldlM addTerm name).bind fun n => (readItems "" items).map (n :: ·) := by
  cases items with
  | nil => exact absurd rfl h
  | cons => rfl

theorem readItems_cons_cons (name : String) (t : Term) (item : List Term)
    (items : List (List Term)) : readItems name ((t :: item) :: items) =
      (addTerm name t).bind fun n => readItems n (item :: items) := by
  cases items with
  | nil => simp only [readItems, List.foldlM_cons, Option.bind_eq_bind, Option.bind_assoc]
  | cons => simp only [readItems, List.foldlM_cons, Option.bind_eq_bind, Option.bind_assoc]

theorem fontNames_cons (name : String) (t : Term) (ts : List Term) :
    fontNames name (t :: ts) = match t.separator with
      | some .slash => none
      | some .comma => (addTerm name t).bind fun n => (fontNames "" ts).map (n :: ·)
      | none => (addTerm name t).bind fun n => fontNames n ts := by
  obtain ⟨v, sign, separator⟩ := t
  cases v with
  | string s =>
    cases hname : name.isEmpty <;> rcases separator with _ | _ | _ <;>
      simp [fontNames, addTerm, addWord, Term.string?, Term.word?, hname]
  | ident s =>
    rcases separator with _ | _ | _ <;>
      simp [fontNames, addTerm, addWord, Term.string?, Term.word?, Term.ident?]
  | _ => rcases separator with _ | _ | _ <;> rfl

theorem fontNames_eq_none_of_slash {name : String} {ts : List Term}
    (h : ∃ t ∈ ts, t.separator = some .slash) : fontNames name ts = none := by
  induction ts generalizing name with
  | nil =>
    obtain ⟨t, ht, -⟩ := h
    cases ht
  | cons t ts ih =>
    rw [fontNames_cons]
    obtain ⟨u, hu, hslash⟩ := h
    rcases List.mem_cons.1 hu with rfl | hu
    · rw [hslash]
    · have hmore {n : String} : fontNames n ts = none := ih ⟨u, hu, hslash⟩
      split
      · rfl
      · simp [hmore]
      · simp [hmore]

/-- **Without a slash, a value is read item by item.** -/
theorem fontNames_eq_readItems {name : String} {ts : List Term}
    (h : ∀ t ∈ ts, t.separator ≠ some .slash) :
    fontNames name ts = readItems name (cutAtCommas ts) := by
  induction ts generalizing name with
  | nil => rfl
  | cons t ts ih =>
    obtain ⟨ht, hts⟩ := List.forall_mem_cons.1 h
    rw [fontNames_cons, cutAtCommas]
    split
    · next hslash => exact absurd hslash ht
    · next hcomma =>
      rw [if_pos hcomma, readItems_cons _ _ (cutAtCommas_ne_nil ts), ih hts, List.foldlM_cons]
      simp only [List.foldlM_nil, Option.bind_eq_bind, Option.pure_def, Option.bind_fun_some]
    · next hnone =>
      obtain ⟨first, more, hcut⟩ := List.exists_cons_of_ne_nil (cutAtCommas_ne_nil ts)
      rw [if_neg (by rw [hnone]; simp), hcut, List.modifyHead_cons, readItems_cons_cons]
      exact Option.bind_congr fun n _ => by rw [ih hts, hcut]

/-- **Items are read as their names**, if each of them passes and the last name is not empty. -/
theorem readItems_eq_some_iff {items : List (List Term)} (h : items ≠ []) {names : List String} :
    readItems "" items = some names ↔
      (∀ item ∈ items, PassesAsFamily item) ∧ names.getLast? ≠ some "" ∧
        items.map familyName = names := by
  induction items generalizing names with
  | nil => exact absurd rfl h
  | cons item items ih =>
    cases items with
    | nil =>
      simp only [readItems, Option.bind_eq_some_iff, readItem_eq_some_iff]
      constructor
      · rintro ⟨n, ⟨hitem, rfl⟩, hn⟩
        split at hn
        · cases hn
        · next hne =>
          cases hn
          exact ⟨by simpa using hitem, by simpa using hne, rfl⟩
      · rintro ⟨hitem, hlast, rfl⟩
        have hne : (familyName item).isEmpty = false := by simpa using hlast
        refine ⟨_, ⟨hitem item List.mem_cons_self, rfl⟩, ?_⟩
        rw [hne]
        rfl
    | cons next items =>
      rw [readItems_cons _ _ (List.cons_ne_nil _ _), Option.bind_eq_some_iff]
      simp only [Option.map_eq_some_iff, readItem_eq_some_iff, ih (List.cons_ne_nil _ _)]
      constructor
      · rintro ⟨n, ⟨hitem, rfl⟩, _, ⟨hitems, hlast, rfl⟩, rfl⟩
        refine ⟨List.forall_mem_cons.2 ⟨hitem, hitems⟩, ?_, rfl⟩
        rwa [List.map_cons, List.getLast?_cons_cons, ← List.map_cons]
      · rintro ⟨hitems, hlast, rfl⟩
        obtain ⟨hitem, hitems⟩ := List.forall_mem_cons.1 hitems
        rw [List.map_cons, List.map_cons, List.getLast?_cons_cons, ← List.map_cons] at hlast
        exact ⟨_, ⟨hitem, rfl⟩, _, ⟨hitems, hlast, rfl⟩, rfl⟩

/-- **What is read as names of fonts.** -/
theorem fontNames_eq_some_iff {ts : List Term} {names : List String} :
    fontNames "" ts = some names ↔
      (∀ t ∈ ts, t.separator ≠ some .slash) ∧ (∀ item ∈ cutAtCommas ts, PassesAsFamily item) ∧
        names.getLast? ≠ some "" ∧ (cutAtCommas ts).map familyName = names := by
  by_cases hslash : ∀ t ∈ ts, t.separator ≠ some .slash
  · rw [fontNames_eq_readItems hslash, readItems_eq_some_iff (cutAtCommas_ne_nil ts)]
    exact (and_iff_right hslash).symm
  · have hnone : fontNames "" ts = none := by
      push Not at hslash
      exact fontNames_eq_none_of_slash hslash
    rw [hnone]
    exact ⟨nofun, fun h => absurd h.1 hslash⟩

/-! ### Items as they are meant to be -/

namespace Term

variable {t : Term} {name : String}

theorem word?_of_string? (h : t.string? = some name) : t.word? = some name := by
  rw [word?, h]
  rfl

theorem string?_of_ident? (h : t.ident? = some name) : t.string? = none := by
  obtain ⟨v, sign, separator⟩ := t
  cases v <;> first | rfl | cases h

theorem word?_of_ident? (h : t.ident? = some name) : t.word? = some name := by
  rw [word?, string?_of_ident? h, h]
  rfl

theorem ident?_of_word? (h : t.word?.isSome) (hstring : t.string? = none) : t.ident?.isSome := by
  rwa [word?, hstring] at h

end Term

theorem familyName_of_string {t : Term} {name : String} (h : t.string? = some name) :
    familyName [t] = name := by
  rw [familyName, List.filterMap_cons_some (Term.word?_of_string? h), List.filterMap_nil,
    List.dropWhile_cons]
  split
  · next hname => simp [String.isEmpty_iff.1 hname]
  · simp

theorem familyName_of_idents {item : List Term} (h : ∀ t ∈ item, t.ident?.isSome)
    (hident : ∀ t ∈ item, t.ident? ≠ some "") :
    familyName item = " ".intercalate (item.filterMap Term.ident?) := by
  have hwords : item.filterMap Term.word? = item.filterMap Term.ident? := by
    refine List.filterMap_congr fun t ht => ?_
    obtain ⟨word, hword⟩ := Option.isSome_iff_exists.1 (h t ht)
    rw [Term.word?_of_ident? hword, hword]
  have hfirst : (item.filterMap Term.ident?).dropWhile String.isEmpty =
      item.filterMap Term.ident? := by
    cases item with
    | nil => rfl
    | cons t item =>
      obtain ⟨word, hword⟩ := Option.isSome_iff_exists.1 (h t List.mem_cons_self)
      have hne : word ≠ "" := fun he => hident t List.mem_cons_self (he ▸ hword)
      rw [List.filterMap_cons_some hword, List.dropWhile_cons_of_neg (by simpa using hne)]
  rw [familyName, hwords, hfirst]

namespace NamesFamily

variable {item : List Term} {name : String}

theorem passes (h : NamesFamily item name) : PassesAsFamily item := by
  cases h with
  | quoted h =>
    refine ⟨fun t ht => ?_, List.pairwise_singleton ..⟩
    rw [List.mem_singleton.1 ht, Term.word?_of_string? h]
    rfl
  | unquoted hne h =>
    refine ⟨fun t ht => ?_, List.pairwise_of_forall_mem_list fun t _ u hu hstring => ?_⟩
    · obtain ⟨word, hword⟩ := Option.isSome_iff_exists.1 (h t ht)
      rw [Term.word?_of_ident? hword]
      rfl
    · obtain ⟨word, hword⟩ := Option.isSome_iff_exists.1 (h u hu)
      rw [Term.string?_of_ident? hword] at hstring
      cases hstring

theorem familyName_eq (h : NamesFamily item name) (hident : ∀ t ∈ item, t.ident? ≠ some "") :
    familyName item = name := by
  cases h with
  | quoted h => exact familyName_of_string h
  | unquoted hne h => exact familyName_of_idents h hident

end NamesFamily

/-- In an item there is no identifier behind a string, and no string behind an empty one. -/
structure StringsApart (item : List Term) : Prop where
  idents : item.Pairwise fun t u => t.string?.isSome → u.ident? = none
  strings : item.Pairwise fun t u => t.string? = some "" → u.string? = none

/-- **What passes for an item is one**, if its strings are apart. -/
theorem PassesAsFamily.namesFamily {item : List Term} (h : PassesAsFamily item) (hne : item ≠ [])
    (hident : ∀ t ∈ item, t.ident? ≠ some "") (hapart : StringsApart item) :
    NamesFamily item (familyName item) := by
  obtain ⟨t, more, rfl⟩ := List.exists_cons_of_ne_nil hne
  cases hstring : t.string? with
  | some s =>
    cases more with
    | nil =>
      rw [familyName_of_string hstring]
      exact .quoted hstring
    | cons u more =>
      -- behind the string there is another one, so it is empty
      have hu : u ∈ u :: more := List.mem_cons_self
      have hword := h.words u (List.mem_cons_of_mem t hu)
      have hnone : u.ident? = none :=
        List.rel_of_pairwise_cons hapart.idents hu (by rw [hstring]; rfl)
      have hsome : u.string?.isSome := by simpa [Term.word?, hnone] using hword
      have hempty := List.rel_of_pairwise_cons h.strings hu hsome
      rw [Term.word?_of_string? hstring, ← hstring] at hempty
      rw [List.rel_of_pairwise_cons hapart.strings hu hempty] at hsome
      cases hsome
  | none =>
    have hfirst : t.word? ≠ some "" := by
      rw [Term.word?, hstring]
      exact hident t List.mem_cons_self
    have hidents : ∀ u ∈ t :: more, u.ident?.isSome := by
      refine fun u hu => Term.ident?_of_word? (h.words u hu) ?_
      rcases List.mem_cons.1 hu with rfl | hu
      · exact hstring
      · refine Option.not_isSome_iff_eq_none.1 fun hs => hfirst ?_
        exact List.rel_of_pairwise_cons h.strings hu hs
    rw [familyName_of_idents hidents hident]
    exact .unquoted hne hidents

theorem NamesFamily.string?_of_empty {item : List Term} {name : String} (h : NamesFamily item name)
    (hident : ∀ t ∈ item, t.ident? ≠ some "") (hname : name = "") :
    ∃ t, item = [t] ∧ t.string? = some "" := by
  cases h with
  | quoted h => exact ⟨_, rfl, hname ▸ h⟩
  | unquoted hne h =>
    obtain ⟨t, more, rfl⟩ := List.exists_cons_of_ne_nil hne
    obtain ⟨word, hword⟩ := Option.isSome_iff_exists.1 (h t List.mem_cons_self)
    have hempty : word ≠ "" := fun he => hident t List.mem_cons_self (he ▸ hword)
    rw [List.filterMap_cons_some hword] at hname
    cases hwords : more.filterMap Term.ident? <;> simp [hwords, hempty] at hname

/-- What a value is meant to be: items with commas between them, and no slash. -/
structure NamesFamilies (value : List Term) (names : List String) : Prop where
  slash : ∀ t ∈ value, t.separator ≠ some .slash
  items : List.Forall₂ NamesFamily (cutAtCommas value) names

theorem forall₂_namesFamily_iff {items : List (List Term)} {names : List String}
    (hident : ∀ item ∈ items, ∀ t ∈ item, t.ident? ≠ some "") :
    List.Forall₂ NamesFamily items names ↔
      (∀ item ∈ items, NamesFamily item (familyName item)) ∧ items.map familyName = names := by
  constructor
  · intro h
    induction h with
    | nil => exact ⟨nofun, rfl⟩
    | @cons item name items names hitem _ ih =>
      obtain ⟨hfirst, hmore⟩ := List.forall_mem_cons.1 hident
      obtain ⟨hitems, hnames⟩ := ih hmore
      have hname := hitem.familyName_eq hfirst
      refine ⟨List.forall_mem_cons.2 ⟨?_, hitems⟩, by rw [List.map_cons, hname, hnames]⟩
      rwa [hname]
  · rintro ⟨hitems, rfl⟩
    exact List.forall₂_map_right_iff.2 (List.forall₂_same.2 hitems)

/-- **What is read as names of fonts is what is meant to be**, if strings are apart and the last
item is not an empty string. -/
theorem fontNames_eq_some_iff_namesFamilies {ts : List Term} {names : List String}
    (hident : ∀ t ∈ ts, t.ident? ≠ some "")
    (hapart : ∀ item ∈ cutAtCommas ts, StringsApart item)
    (hlast : ∀ t, (cutAtCommas ts).getLast? = some [t] → t.string? ≠ some "") :
    fontNames "" ts = some names ↔ NamesFamilies ts names := by
  have hidents : ∀ item ∈ cutAtCommas ts, ∀ t ∈ item, t.ident? ≠ some "" := by
    intro item hitem t ht
    refine hident t ?_
    rw [← flatten_cutAtCommas ts]
    exact List.mem_flatten_of_mem hitem ht
  rw [fontNames_eq_some_iff]
  constructor
  · rintro ⟨hslash, hpasses, hname, rfl⟩
    refine ⟨hslash, (forall₂_namesFamily_iff hidents).2 ⟨fun item hitem => ?_, rfl⟩⟩
    refine (hpasses item hitem).namesFamily ?_ (hidents item hitem) (hapart item hitem)
    rintro rfl
    rw [List.getLast?_map, getLast?_of_nil_mem_cutAtCommas hitem] at hname
    exact hname rfl
  · rintro ⟨hslash, hitems⟩
    obtain ⟨hnames, rfl⟩ := (forall₂_namesFamily_iff hidents).1 hitems
    refine ⟨hslash, fun item hitem => (hnames item hitem).passes, fun hname => ?_, rfl⟩
    rw [List.getLast?_map, Option.map_eq_some_iff] at hname
    obtain ⟨item, hitem, hname⟩ := hname
    have hmem := List.mem_of_getLast? hitem
    obtain ⟨t, rfl, ht⟩ := (hnames item hmem).string?_of_empty (hidents item hmem) hname
    exact hlast t hitem ht

/-! ### Values that are read from tokens -/

theorem Term.mem_nestedAll_of_mem {t : Term} {v : List Term} (h : t ∈ v) :
    t ∈ Term.nestedAll v := by
  induction v with
  | nil => cases h
  | cons u v ih =>
    rcases List.mem_cons.1 h with rfl | h
    · exact Plain.mem_nestedAll _ v
    · exact List.mem_append_right _ (ih h)

theorem Term.WrittenIn.ident?_ne {ts : List Token} {t : Term} (h : t.WrittenIn ts)
    (hts : Scanned ts) : t.ident? ≠ some "" := by
  obtain ⟨before, u, after, rfl, hbegins, -⟩ := h
  obtain ⟨cs, rest, hsound⟩ := (hts.suffix (List.suffix_append before (u :: after))).sound
  obtain ⟨v, sign, separator⟩ := t
  cases v with
  | ident name =>
    rintro hname
    obtain rfl := Option.some.inj hname
    rcases hbegins with hsimple | ⟨f, args, -, hf⟩
    · cases hl : u.lexeme <;> rw [hl] at hsimple hsound <;> cases hsimple
      exact hsound rfl
    · rcases Value.ofFunction_cases f args with h | ⟨address, h⟩ | ⟨color, h⟩ <;>
        (rw [h] at hf; cases hf)
  | _ => nofun

theorem Parser.ident?_ne_of_value {q : Parser} {v : List Term} (hq : Scanned q.tokens)
    (h : q.value.result = .ok v) : ∀ t ∈ v, t.ident? ≠ some "" := by
  obtain ⟨rest, hread⟩ := construct_result h
  have hfront : signBehind [] = none := rfl
  intro t ht
  exact (Grammar.terms_written hfront hread t (Term.mem_nestedAll_of_mem ht)).ident?_ne
    hq.skipTrivia

/-! ### The property -/

namespace Style

variable {d : Declaration}

theorem settings?_fontFamily (em : Float) (parent : Style)
    (hp : Property.ofName? d.property = some (.longhand .fontFamily)) (hd : d.isInherit = false) :
    d.settings? em parent = (fontNames "" d.value).map fun names => [⟨.fontFamily, names⟩] := by
  rw [Declaration.settings?_of_not_isInherit hp hd]
  rfl

/-- **What `font-family` accepts**, and the names that it sets.  There is no slash, each item is
made of strings and identifiers with only empty words before a string, and the name of the last item
is not empty.  In a value that is read from the tokens of a text, where strings are apart and the
last item is not an empty string, this is what is meant to be: items that are one string, or
identifiers that are joined by single blanks. -/
theorem carryOut_fontFamily (s parent : Style)
    (hp : Property.ofName? d.property = some (.longhand .fontFamily)) (hd : d.isInherit = false) :
    ((s.carryOut parent d).1 = true ↔
      (∀ t ∈ d.value, t.separator ≠ some .slash) ∧
        (∀ item ∈ cutAtCommas d.value, PassesAsFamily item) ∧
        ((cutAtCommas d.value).map familyName).getLast? ≠ some "") ∧
    ((s.carryOut parent d).1 = true →
      (s.carryOut parent d).2 = s.set .fontFamily ((cutAtCommas d.value).map familyName)) ∧
    ∀ q : Parser, Scanned q.tokens → q.value.result = .ok d.value →
      (∀ item ∈ cutAtCommas d.value, StringsApart item) →
      (∀ t, (cutAtCommas d.value).getLast? = some [t] → t.string? ≠ some "") →
        ((s.carryOut parent d).1 = true ↔ ∃ names, NamesFamilies d.value names) ∧
        ((s.carryOut parent d).1 = true →
          NamesFamilies d.value (s.carryOut parent d).2.fontFamily) := by
  have haccepted : (s.carryOut parent d).1 = true ↔ ∃ names, fontNames "" d.value = some names := by
    rw [carryOut_fst, settings?_fontFamily _ _ hp hd, Option.isSome_map, Option.isSome_iff_exists]
  have hstyle {names : List String} (h : fontNames "" d.value = some names) :
      (s.carryOut parent d).2 = s.set .fontFamily names := by
    rw [carryOut_of_settings (by rw [settings?_fontFamily _ _ hp hd, h]; rfl)]
    rfl
  refine ⟨?_, fun h => ?_, fun q hq hv hapart hlast => ⟨?_, fun h => ?_⟩⟩
  · rw [haccepted]
    simp only [fontNames_eq_some_iff]
    constructor
    · rintro ⟨_, hslash, hpasses, hlast, rfl⟩
      exact ⟨hslash, hpasses, hlast⟩
    · rintro ⟨hslash, hpasses, hlast⟩
      exact ⟨_, hslash, hpasses, hlast, rfl⟩
  · obtain ⟨names, hnames⟩ := haccepted.1 h
    obtain ⟨-, -, -, rfl⟩ := fontNames_eq_some_iff.1 hnames
    exact hstyle hnames
  · rw [haccepted]
    exact exists_congr fun names =>
      fontNames_eq_some_iff_namesFamilies (Parser.ident?_ne_of_value hq hv) hapart hlast
  · obtain ⟨names, hnames⟩ := haccepted.1 h
    rw [hstyle hnames]
    exact (fontNames_eq_some_iff_namesFamilies (Parser.ident?_ne_of_value hq hv) hapart hlast).1
      hnames

/-- A string, two identifiers that are joined, and a generic name. -/
theorem carryOut_fontFamily_words :
    let value : List Term := [⟨.string "Times", none, some .comma⟩, ⟨.ident "Georgia", none, none⟩,
      ⟨.ident "Pro", none, some .comma⟩, ⟨.ident "serif", none, none⟩]
    let d : Declaration := ⟨"font-family", value, false⟩
    (Parser.ofText "'Times', Georgia Pro, serif" {}).value.result = .ok value ∧
    (initial.carryOut initial d).1 = true ∧
    (initial.carryOut initial d).2.fontFamily = ["Times", "Georgia Pro", "serif"] ∧
    NamesFamilies value ["Times", "Georgia Pro", "serif"] := by
  intro value d
  have hfamily : Property.ofName? "font-family" = some (.longhand .fontFamily) :=
    Property.ofName?_name (.longhand .fontFamily)
  have hread : (Parser.ofText "'Times', Georgia Pro, serif" {}).value.result = .ok value := by
    with_unfolding_all rfl
  have hidents : ∀ item ∈ cutAtCommas value,
      item.Pairwise fun t u => t.string?.isSome → u.ident? = none := by decide +kernel
  have hstrings : ∀ item ∈ cutAtCommas value,
      item.Pairwise fun t u => t.string? = some "" → u.string? = none := by decide +kernel
  have hlast : ∀ t, (cutAtCommas value).getLast? = some [t] → t.string? ≠ some "" := by
    rintro t h
    cases h
    nofun
  have haccepted : (initial.carryOut initial d).1 = true := by
    rw [carryOut_fst, settings?_fontFamily _ _ hfamily rfl]
    decide +kernel
  obtain ⟨-, hset, hmeant⟩ := carryOut_fontFamily (d := d) initial initial hfamily rfl
  obtain ⟨-, hnames⟩ := hmeant (Parser.ofText "'Times', Georgia Pro, serif" {}) (.scan _) hread
    (fun item hitem => ⟨hidents item hitem, hstrings item hitem⟩) hlast
  have hfamilies :
      (initial.carryOut initial d).2.fontFamily = ["Times", "Georgia Pro", "serif"] := by
    rw [hset haccepted]
    decide +kernel
  exact ⟨hread, haccepted, hfamilies, hfamilies ▸ hnames haccepted⟩

/-- **A string may have identifiers behind it**: `'Times' New` is taken for one name. -/
theorem not_carryOut_fontFamily :
    ¬∀ (s parent : Style) (d : Declaration) (q : Parser),
      Property.ofName? d.property = some (.longhand .fontFamily) → d.isInherit = false →
        Scanned q.tokens → q.value.result = .ok d.value →
          ((s.carryOut parent d).1 = true ↔ ∃ names, NamesFamilies d.value names) ∧
          ((s.carryOut parent d).1 = true →
            NamesFamilies d.value (s.carryOut parent d).2.fontFamily) := by
  intro h
  have hfamily : Property.ofName? "font-family" = some (.longhand .fontFamily) :=
    Property.ofName?_name (.longhand .fontFamily)
  have hread : (Parser.ofText "'Times' New" {}).value.result =
      .ok [⟨.string "Times", none, none⟩, ⟨.ident "New", none, none⟩] := by
    with_unfolding_all rfl
  have haccepted : (initial.carryOut initial ⟨"font-family",
      [⟨.string "Times", none, none⟩, ⟨.ident "New", none, none⟩], false⟩).1 = true := by
    rw [carryOut_fst, settings?_fontFamily _ _ hfamily rfl]
    decide +kernel
  obtain ⟨names, -, hitems⟩ := (h _ _ _ _ hfamily rfl (.scan _) hread).1.1 haccepted
  cases hitems with
  | cons hitem _ =>
    cases hitem with
    | unquoted _ hidents => cases hidents _ List.mem_cons_self

end Style

end Css2
