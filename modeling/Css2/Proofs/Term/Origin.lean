import Css2.Proofs.Term.ReadBack
import Css2.Proofs.Token.Scanned

/-!
# The values that the grammar reads

A value that the grammar reads from the tokens of a text can be written and read back
(`Grammar.terms_readable`), except for what no text can say: the null character in a name, a
number that is not finite, a number with a sign of its own, and an address that becomes one level
too deep when it is written as a function.  `Term.Plain` rules these out.
-/

namespace Css2

/-! ### What a value contains -/

mutual

/-- The terms of a value, those among the arguments of functions included. -/
def Value.nested : Value → List Term
  | .function _ args => Term.nestedAll args
  | _ => []

def Term.nested : Term → List Term
  | ⟨value, sign, separator⟩ => ⟨value, sign, separator⟩ :: value.nested

def Term.nestedAll : List Term → List Term
  | [] => []
  | t :: ts => t.nested ++ Term.nestedAll ts

end

mutual

/-- How deeply functions are nested in a value.  An address counts as a function, too. -/
def Value.levels : Value → Nat
  | .function _ args => Term.levelsAll args + 1
  | .uri _ => 1
  | _ => 0

def Term.levels : Term → Nat
  | ⟨value, _, _⟩ => value.levels

def Term.levelsAll : List Term → Nat
  | [] => 0
  | t :: ts => max t.levels (Term.levelsAll ts)

end

/-- The names in a value, those of its arguments aside. -/
def Value.names : Value → List String
  | .number ⟨_, .other unit⟩ => [unit]
  | .function name _ => [name]
  | .ident name => [name]
  | .hash name => [name]
  | _ => []

/-- What the text of the terms can say, with `k` more levels of nesting allowed. -/
structure Term.Plain (k : Nat) (ts : List Term) : Prop where
  names : ∀ t ∈ Term.nestedAll ts, ∀ name ∈ t.value.names, '\x00' ∉ name.toList
  numbers : ∀ t ∈ Term.nestedAll ts, ∀ q, t.value = .number q →
    q.value.isFinite = true ∧ t.sign = none
  levels : Term.levelsAll ts ≤ k

namespace Term.Plain

variable {k : Nat} {t : Term} {ts : List Term}

theorem tail (h : Term.Plain k (t :: ts)) : Term.Plain k ts where
  names u hu := h.names u (by simp [Term.nestedAll, hu])
  numbers u hu := h.numbers u (by simp [Term.nestedAll, hu])
  levels := by
    have hl := h.levels
    simp only [Term.levelsAll] at hl
    omega

theorem mem_nestedAll (t : Term) (ts : List Term) : t ∈ Term.nestedAll (t :: ts) := by
  obtain ⟨v, s, p⟩ := t
  simp [Term.nestedAll, Term.nested]

theorem args {name : String} {args : List Term} {s : Option Sign} {p : Option Separator}
    (h : Term.Plain k (⟨.function name args, s, p⟩ :: ts)) : Term.Plain (k - 1) args where
  names u hu := h.names u (by simp [Term.nestedAll, Term.nested, Value.nested, hu])
  numbers u hu := h.numbers u (by simp [Term.nestedAll, Term.nested, Value.nested, hu])
  levels := by
    have hl := h.levels
    simp only [Term.levelsAll, Term.levels, Value.levels] at hl
    omega

/-- A name in the first value is spelled without the null character. -/
theorem isName (h : Term.Plain k (t :: ts)) {name : String} (hn : name ∈ t.value.names)
    (hne : name ≠ "") : IsName name :=
  ⟨hne, h.names t (mem_nestedAll t ts) name hn⟩

end Term.Plain

/-! ### Single values -/

theorem Measure.eq_of_ofName {name unit : String} (h : Measure.ofName name = .other unit) :
    unit = name := by
  rw [Measure.ofName] at h
  cases hfind : Measure.known.find? (fun unit => sameName unit.text name) with
  | none =>
    rw [hfind] at h
    cases h
    rfl
  | some u =>
    rw [hfind] at h
    have hmem := List.mem_of_find?_eq_some hfind
    rw [show u = .other unit from h] at hmem
    simp [Measure.known] at hmem

theorem Measure.readable_ofName {name : String} (hne : name ≠ "")
    (hnull : ∀ unit, Measure.ofName name = .other unit → '\x00' ∉ unit.toList) :
    (Measure.ofName name).Readable := by
  cases hu : Measure.ofName name with
  | other unit =>
    obtain rfl := Measure.eq_of_ofName hu
    exact ⟨⟨hne, hnull unit hu⟩, hu⟩
  | _ => exact trivial

theorem Value.ofFunction_cases (name : String) (args : List Term) :
    Value.ofFunction name args = .function name args ∨
      (∃ address, Value.ofFunction name args = .uri address) ∨
        ∃ color, Value.ofFunction name args = .rgb color := by
  rw [Value.ofFunction]
  split
  · cases addressOfArgs? args with
    | none => exact .inl rfl
    | some address => exact .inr (.inl ⟨address, rfl⟩)
  · split
    · cases rgbOfArgs? args with
      | none => exact .inl rfl
      | some color => exact .inr (.inr ⟨color, rfl⟩)
    · exact .inl rfl

namespace Grammar

theorem beginsQuoted_of_terms {n : Nesting} {t : Token} {us rest : List Token} {v : List Term}
    (h : terms n (t :: us) = .ok (v, rest))
    (ht : (∃ value, t.lexeme = .string value) ∨ t.lexeme = .badString) :
    beginsQuoted v = true := by
  have hsign : sign (t :: us) = (none, t :: us) := by
    refine sign_of_ne_delim ?_ us
    rcases ht with ⟨value, hv⟩ | hv <;> simp [hv]
  rw [terms_eq, hsign] at h
  dsimp only at h
  obtain ⟨⟨w, after⟩, hw, h⟩ := bind_eq_ok h
  obtain ⟨value, rfl⟩ : ∃ value, w = .string value := by
    rw [value] at hw
    rcases ht with ⟨value, hv⟩ | hv
    · rw [hv] at hw
      cases hw
      exact ⟨value, rfl⟩
    · rw [hv] at hw
      cases hw
  dsimp only at h
  split at h
  · cases h
  · split at h
    · cases h
      rfl
    · obtain ⟨⟨more, final⟩, _, h⟩ := bind_eq_ok h
      cases h
      rfl

theorem simpleValue?_readable {k : Nat} {l : Lexeme} {cs cs' : List Char} {v : Value}
    {s : Option Sign} {p : Option Separator} {more : List Term} (hsound : l.Sound cs cs')
    (hp : Term.Plain k (⟨v, s, p⟩ :: more)) (h : simpleValue? l = some v) : v.Readable k := by
  have hnames : ∀ name ∈ v.names, name ≠ "" → IsName name := fun name hn hne => hp.isName hn hne
  have hnumber : ∀ q, v = .number q → q.value.isFinite = true := fun q hq =>
    (hp.numbers _ (Term.Plain.mem_nestedAll _ _) q hq).1
  cases l <;> cases h
  · exact hnames _ (by simp [Value.names]) hsound
  · exact hnames _ (by simp [Value.names]) hsound
  · exact trivial
  · have hl := hp.levels
    simp only [Term.levelsAll, Term.levels, Value.levels] at hl
    show 0 < k
    omega
  · exact ⟨hnumber _ rfl, trivial⟩
  · exact ⟨hnumber _ rfl, trivial⟩
  · refine ⟨hnumber _ rfl, Measure.readable_ofName hsound ?_⟩
    intro unit hunit
    refine hp.names _ (Term.Plain.mem_nestedAll _ _) unit ?_
    simp [Value.names, hunit]
  · exact hsound

theorem ofFunction_readable {k : Nat} (hk : 0 < k) {name : String} {args : List Term}
    {s : Option Sign} {p : Option Separator} {more : List Term}
    (hp : Term.Plain k (⟨Value.ofFunction name args, s, p⟩ :: more)) (hne : name ≠ "")
    (hurl : sameName name "url" = true → beginsQuoted args = true)
    (hargs : Term.Plain (k - 1) args →
      Term.lastBare args = true ∧ Term.AllReadable (k - 1) args) :
    (Value.ofFunction name args).Readable k := by
  rcases Value.ofFunction_cases name args with hf | ⟨address, hf⟩ | ⟨color, hf⟩
  · rw [hf] at hp ⊢
    obtain ⟨hlast, hall⟩ := hargs hp.args
    exact ⟨hk, hp.isName (by simp [Value.names]) hne, hurl, hf, hlast, hall⟩
  · rw [hf]
    exact hk
  · rw [hf]
    exact hk

/-- **A value that is read is readable**, if its arguments are. -/
theorem value_readable_of {n : Nesting} {t : Token} {rest after : List Token} {v : Value}
    {s : Option Sign} {p : Option Separator} {more : List Term} (hs : Scanned (t :: rest))
    (hp : Term.Plain (n.limit - n.depth) (⟨v, s, p⟩ :: more))
    (ih : ∀ args mid, terms { n with depth := n.depth + 1 } (skipTrivia rest) = .ok (args, mid) →
      Term.Plain (n.limit - n.depth - 1) args →
      Term.lastBare args = true ∧ Term.AllReadable (n.limit - n.depth - 1) args)
    (h : value n t rest = .ok (v, after)) : v.Readable (n.limit - n.depth) := by
  obtain ⟨l, loc⟩ := t
  obtain ⟨cs, cs', hsound⟩ := hs.sound
  rw [value] at h
  split at h
  · next name heq =>
    dsimp only at heq hsound
    subst heq
    obtain ⟨deeper, hn, h⟩ := bind_eq_ok h
    obtain ⟨hlt, rfl⟩ := enter_eq_ok hn
    obtain ⟨⟨args, mid⟩, hargs, h⟩ := bind_eq_ok h
    obtain ⟨us, _, h⟩ := bind_eq_ok h
    cases h
    refine ofFunction_readable (Nat.sub_pos_of_lt hlt) hp hsound.1 ?_ (ih args mid hargs)
    intro hurl
    obtain ⟨u, us', heq, -⟩ := startsTerm_of_terms hargs
    rw [heq] at hargs
    exact beginsQuoted_of_terms hargs (hs.url hurl heq)
  · split at h
    · next v' hv =>
      cases h
      exact simpleValue?_readable hsound hp hv
    · cases h

theorem sign_readable {n : Nesting} {ts rest after : List Token} {t : Token} {s : Option Sign}
    {v : Value} (hts : Scanned ts) (hsign : sign ts = (s, t :: rest))
    (hv : value n t rest = .ok (v, after)) (htakes : (s.isSome && !v.takesSign) = false)
    (hnumber : ∀ q, v = .number q → s = none) :
    s = none ∨ s = some .plus ∧ v.isFunction = true := by
  cases s with
  | none => exact .inl rfl
  | some s =>
    right
    obtain ⟨name, args, rfl⟩ : ∃ name args, v = .function name args := by
      cases v with
      | number q => cases hnumber q rfl
      | function name args => exact ⟨name, args, rfl⟩
      | _ => cases htakes
    cases s with
    | plus => exact ⟨rfl, rfl⟩
    | minus =>
      exfalso
      -- a minus sign and the name of a function behind it are one name
      obtain ⟨f, hf⟩ : ∃ f, t.lexeme = .function f := by
        rw [value] at hv
        split at hv
        · next f hf => exact ⟨f, hf⟩
        · next l _ =>
          split at hv
          · next hsimple =>
            cases hv
            cases hl : t.lexeme <;> rw [hl] at hsimple <;> cases hsimple
          · cases hv
      unfold sign at hsign
      split at hsign
      · split at hsign
        · cases hsign
        · split at hsign
          · next hc =>
            cases hsign
            obtain ⟨l, loc⟩ := t
            dsimp only at hf
            subst hc hf
            exact hts.minus
          · cases hsign
      · cases hsign

/-- **The value that the grammar reads from scanned tokens is readable**, if its text can say what
it says. -/
theorem terms_readable {n : Nesting} {ts rest : List Token} {v : List Term}
    (h : terms n ts = .ok (v, rest)) (hts : Scanned ts)
    (hp : Term.Plain (n.limit - n.depth) v) :
    Term.lastBare v = true ∧ Term.AllReadable (n.limit - n.depth) v := by
  induction hlen : ts.length using Nat.strongRecOn generalizing n ts rest v with
  | ind len ih =>
    have hsuffix := (sign_stretch ts).suffix
    have hle := sign_le ts
    have heq := h
    rw [terms_eq] at heq
    split at heq
    · cases heq
    · next s t us hs =>
      rw [hs] at hsuffix hle
      simp only [List.length_cons] at hle
      obtain ⟨⟨w, after⟩, hw, heq⟩ := bind_eq_ok heq
      have hvle := value_le hw
      have hvsuffix := (value_stretch hw).suffix
      have hscanned := hts.suffix hsuffix
      dsimp only at heq
      split at heq
      · cases heq
      · next htakes =>
        rw [Bool.not_eq_true] at htakes
        have hargs : ∀ args mid,
            terms { n with depth := n.depth + 1 } (skipTrivia us) = .ok (args, mid) →
            Term.Plain (n.limit - n.depth - 1) args →
            Term.lastBare args = true ∧ Term.AllReadable (n.limit - n.depth - 1) args := by
          intro args mid hterms hplain
          have hdeeper : n.limit - n.depth - 1 = n.limit - (n.depth + 1) := by omega
          rw [hdeeper] at hplain ⊢
          have htrivia := skipTrivia_le us
          exact ih _ (by omega) hterms
            hscanned.tail.skipTrivia hplain rfl
        have hterm : ∀ p more, Term.Plain (n.limit - n.depth) (⟨w, s, p⟩ :: more) →
            Term.Readable (n.limit - n.depth) ⟨w, s, p⟩ := by
          intro p more hplain
          refine ⟨value_readable_of hscanned hplain hargs hw, ?_⟩
          refine sign_readable hts hs hw htakes fun q hq => ?_
          exact (hplain.numbers _ (Term.Plain.mem_nestedAll _ _) q hq).2
        split at heq
        · cases heq
          exact ⟨rfl, hterm _ _ hp, trivial⟩
        · next sep following hnext =>
          obtain ⟨⟨more, final⟩, hm, heq⟩ := bind_eq_ok heq
          cases heq
          have hnle := next?_le hnext
          obtain ⟨hlast, hall⟩ := ih _ (by omega) hm
            ((hscanned.suffix hvsuffix).suffix (next?_stretch hnext).suffix) hp.tail rfl
          refine ⟨?_, hterm _ _ hp, hall⟩
          cases more with
          | nil => cases hlast
          | cons u us => exact hlast

end Grammar

end Css2
