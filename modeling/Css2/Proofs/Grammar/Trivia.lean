import Css2.Proofs.Grammar.Stretch

/-!
# How trivia is written

The productions look at white space and comments in three ways only: they skip all of it, they ask
whether there is white space in it, or they want none at all.  So they cannot tell two texts apart
that differ in the places of the tokens, in the wording of comments, in how white space and comments
are mixed where there is either, and in comments by themselves that the second text leaves out
(`Alike`).  Such comments must not part what only belongs together without trivia: the parts of a
compound selector or of the name of a page, and a sign and its term (`joins`).  Each production
reads the same from both texts, or it fails on both, and what is left is alike again: `terms_alike`,
`selector_alike`, `importSheet_alike` and so on.
-/

namespace Css2

namespace Grammar

/-! ### What trivia may part -/

def startsWith (p : Lexeme → Bool) : List Token → Bool
  | t :: _ => p t.lexeme
  | [] => false

/-- Whether an opening brace comes before the next semicolon and the next closing brace, as it does
in the head of a block. -/
def headsBlock : List Token → Bool
  | t :: ts => t.lexeme.isMark .openBrace || (!isStop t.lexeme && headsBlock ts)
  | [] => false

def isCondition : Lexeme → Bool
  | .hash _ _ | .mark .openBracket | .mark .colon => true
  | l => l.isDelim '.'

def isName : Lexeme → Bool
  | .ident _ => true
  | _ => false

/-- What may stand behind the colon of a pseudo-class. -/
def isPseudo : Lexeme → Bool
  | .ident _ | .function _ => true
  | _ => false

def isSigned : Lexeme → Bool
  | .number _ _ | .percentage _ | .dimension _ _ _ | .function _ => true
  | _ => false

/-- What goes on with a compound selector or with the name of a page right behind the lexeme. -/
def continues : Lexeme → Lexeme → Bool
  | .ident _ | .hash _ _ | .mark .closeBracket | .mark .closeParen => isCondition
  | .mark .colon => isPseudo
  | .delim c => if c = '*' then isCondition else if c = '.' then isName else fun _ => false
  | _ => fun _ => false

/-- Whether the tokens go on with what the lexeme before them belongs to: in the head of a block
with the parts of a selector or of the name of a page, and anywhere with the term of a sign. -/
def joins (l : Lexeme) (ts : List Token) : Bool :=
  (headsBlock ts && startsWith (continues l) ts) ||
    ((l.isDelim '+' || l.isDelim '-') && startsWith isSigned ts)

theorem startsWith_of_isTrivia {p : Lexeme → Bool} {ts : List Token}
    (hp : ∀ l, l.isTrivia = true → p l = false) (h : startsWith Lexeme.isTrivia ts = true) :
    startsWith p ts = false := by
  cases ts with
  | nil => rfl
  | cons t ts => exact hp t.lexeme h

theorem isCondition_trivia {l : Lexeme} (h : l.isTrivia = true) : isCondition l = false := by
  cases l <;> first | rfl | cases h

theorem isName_trivia {l : Lexeme} (h : l.isTrivia = true) : isName l = false := by
  cases l <;> first | rfl | cases h

theorem isPseudo_trivia {l : Lexeme} (h : l.isTrivia = true) : isPseudo l = false := by
  cases l <;> first | rfl | cases h

theorem isSigned_trivia {l : Lexeme} (h : l.isTrivia = true) : isSigned l = false := by
  cases l <;> first | rfl | cases h

theorem continues_trivia (l : Lexeme) {l' : Lexeme} (h : l'.isTrivia = true) :
    continues l l' = false := by
  have hcondition := isCondition_trivia h
  unfold continues
  split
  · exact hcondition
  · exact hcondition
  · exact hcondition
  · exact hcondition
  · exact isPseudo_trivia h
  · split
    · exact hcondition
    · split
      · exact isName_trivia h
      · rfl
  · rfl

theorem joins_trivia (l : Lexeme) {ts : List Token} (h : startsWith Lexeme.isTrivia ts = true) :
    joins l ts = false := by
  rw [joins, startsWith_of_isTrivia (fun l' => continues_trivia l) h,
    startsWith_of_isTrivia (fun l' => isSigned_trivia) h, Bool.and_false, Bool.and_false]
  rfl

theorem Stretch.headsBlock {ts us : List Token} (h : Stretch ts us) :
    headsBlock ts = headsBlock us := by
  induction h with
  | refl => rfl
  | plain hp _ ih =>
    rw [Grammar.headsBlock, isMark_openBrace_of_isPlain hp, isStop_of_isPlain hp, ih]
    rfl
  | @pair t m loc ts vs us hm hb _ _ ihin ih =>
    have hclose : isStop (.mark m) = false ∧ (Lexeme.mark m).isMark .openBrace = false := by
      have hcloser := isCloser_closerOf? hm
      cases m <;> first | exact ⟨rfl, rfl⟩ | exact absurd rfl hb | cases hcloser
    rw [Grammar.headsBlock, isMark_openBrace_of_closerOf? hm hb, isStop_of_closerOf? hm, ihin,
      Grammar.headsBlock, hclose.1, hclose.2, ih]
    rfl

/-! ### Runs of trivia -/

/-- The lexeme that stands for a run of trivia: white space if there is some in the run, and an
empty comment otherwise. -/
def lexemeOfRun (hasSpace : Bool) : Lexeme :=
  if hasSpace then .whitespace else .comment ""

/-- The lexemes of tokens, with one lexeme for each run of trivia. -/
def condense (ts : List Token) : List Lexeme :=
  match ts with
  | [] => []
  | t :: rest =>
    if t.lexeme.isTrivia then lexemeOfRun (spaced (t :: rest)) :: condense (skipTrivia rest)
    else t.lexeme :: condense rest
termination_by ts.length
decreasing_by
  · exact Nat.lt_succ_of_le (skipTrivia_le rest)
  · exact Nat.lt_succ_self _

/-- Tokens that differ in places, in how trivia is written, and in comments by themselves that the
second text leaves out. -/
inductive Alike : List Token → List Token → Prop
  | nil : Alike [] []
  | token {l : Lexeme} {loc loc' : Location} {ts us : List Token} (hl : l.isTrivia = false)
      (hgap : startsWith Lexeme.isTrivia ts = true → joins l us = false) (h : Alike ts us) :
      Alike (⟨l, loc⟩ :: ts) (⟨l, loc'⟩ :: us)
  | trivia {l l' : Lexeme} {loc loc' : Location} {ts us : List Token} (hl : l.isTrivia = true)
      (hl' : l'.isTrivia = true) (hs : spaced (⟨l, loc⟩ :: ts) = spaced (⟨l', loc'⟩ :: us))
      (h : Alike (skipTrivia ts) (skipTrivia us)) : Alike (⟨l, loc⟩ :: ts) (⟨l', loc'⟩ :: us)
  | comments {l : Lexeme} {loc : Location} {ts us : List Token} (hl : l.isTrivia = true)
      (hs : spaced (⟨l, loc⟩ :: ts) = false) (h : Alike (skipTrivia ts) us) :
      Alike (⟨l, loc⟩ :: ts) us

theorem condense_trivia {t : Token} (ht : t.lexeme.isTrivia = true) (ts : List Token) :
    condense (t :: ts) = lexemeOfRun (spaced (t :: ts)) :: condense (skipTrivia ts) := by
  rw [condense, if_pos ht]

theorem condense_token {t : Token} (ht : t.lexeme.isTrivia = false) (ts : List Token) :
    condense (t :: ts) = t.lexeme :: condense ts := by
  rw [condense, if_neg (by simp [ht])]

theorem isTrivia_lexemeOfRun (b : Bool) : (lexemeOfRun b).isTrivia = true := by
  cases b <;> rfl

theorem lexemeOfRun_injective {b b' : Bool} (h : lexemeOfRun b = lexemeOfRun b') : b = b' := by
  cases b <;> cases b' <;> first | rfl | cases h

theorem startsWith_isTrivia_of_condense {ts us : List Token} (h : condense ts = condense us) :
    startsWith Lexeme.isTrivia ts = startsWith Lexeme.isTrivia us := by
  have hhead (ts : List Token) : startsWith Lexeme.isTrivia ts =
      ((condense ts).head?.map Lexeme.isTrivia).getD false := by
    cases ts with
    | nil =>
      rw [condense]
      rfl
    | cons t ts =>
      cases ht : t.lexeme.isTrivia with
      | true =>
        rw [condense_trivia ht, List.head?_cons, Option.map_some, isTrivia_lexemeOfRun]
        exact ht
      | false => rw [condense_token ht, List.head?_cons, Option.map_some]; rfl
  rw [hhead, hhead, h]

/-- **Tokens are alike if they are the same once the runs of trivia are condensed.** -/
theorem alike_of_condense {ts us : List Token} (h : condense ts = condense us) : Alike ts us := by
  induction hlen : ts.length using Nat.strongRecOn generalizing ts us with
  | ind len ih =>
    cases ts with
    | nil =>
      cases us with
      | nil => exact .nil
      | cons u us => rw [condense, condense] at h; split at h <;> cases h
    | cons t ts =>
      cases us with
      | nil => rw [condense, condense] at h; split at h <;> cases h
      | cons u us =>
        cases ht : t.lexeme.isTrivia <;> cases hu : u.lexeme.isTrivia
        · rw [condense_token ht, condense_token hu] at h
          obtain ⟨hl, hrest⟩ := List.cons.inj h
          obtain ⟨l, loc⟩ := t
          obtain ⟨l', loc'⟩ := u
          obtain rfl : l = l' := hl
          refine .token ht (fun hstart => ?_) (ih _ (hlen ▸ Nat.lt_succ_self _) hrest rfl)
          exact joins_trivia l (startsWith_isTrivia_of_condense hrest ▸ hstart)
        · rw [condense_token ht, condense_trivia hu] at h
          rw [(List.cons.inj h).1, isTrivia_lexemeOfRun] at ht
          cases ht
        · rw [condense_trivia ht, condense_token hu] at h
          rw [← (List.cons.inj h).1, isTrivia_lexemeOfRun] at hu
          cases hu
        · rw [condense_trivia ht, condense_trivia hu] at h
          obtain ⟨hs, hrest⟩ := List.cons.inj h
          exact .trivia ht hu (lexemeOfRun_injective hs)
            (ih _ (hlen ▸ Nat.lt_succ_of_le (skipTrivia_le ts)) hrest rfl)

variable {ts us : List Token}

theorem eq_skipTrivia {α : Type} {f : List Token → α}
    (hf : ∀ t ts, t.lexeme.isTrivia = true → f (t :: ts) = f ts) (ts : List Token) :
    f ts = f (skipTrivia ts) := by
  induction ts with
  | nil => rfl
  | cons t ts ih =>
    cases ht : t.lexeme.isTrivia with
    | true => rw [skipTrivia_cons ts ht, hf t ts ht, ih]
    | false => rw [skipTrivia_cons_self ts ht]

theorem startsWith_skipTrivia (ts : List Token) :
    startsWith Lexeme.isTrivia (skipTrivia ts) = false := by
  induction ts with
  | nil => rfl
  | cons t ts ih =>
    cases ht : t.lexeme.isTrivia with
    | true => rwa [skipTrivia_cons ts ht]
    | false =>
      rw [skipTrivia_cons_self ts ht]
      exact ht

theorem skipTrivia_eq_self (h : startsWith Lexeme.isTrivia ts = false) : skipTrivia ts = ts := by
  cases ts with
  | nil => rfl
  | cons t ts => exact skipTrivia_cons_self ts h

theorem spaced_eq_false (h : startsWith Lexeme.isTrivia ts = false) : spaced ts = false := by
  cases ts with
  | nil => rfl
  | cons t ts =>
    rw [spaced, List.takeWhile_cons_of_neg (by simpa [startsWith] using h)]
    rfl

/-! ### What is at the front -/

/-- Alike, with no trivia at the front of either text. -/
structure Front (ts us : List Token) : Prop where
  alike : Alike ts us
  bare : startsWith Lexeme.isTrivia ts = false

/-- Alike, but if there is trivia at the front of the first text, the second one does not begin as
`q` says. -/
structure Gap (q : List Token → Bool) (ts us : List Token) : Prop where
  alike : Alike ts us
  gap : startsWith Lexeme.isTrivia ts = true → q us = false

abbrev After (l : Lexeme) : List Token → List Token → Prop :=
  Gap (joins l)

/-- Alike behind what ends a part of a compound selector. -/
abbrev AfterPart : List Token → List Token → Prop :=
  Gap fun us => headsBlock us && startsWith isCondition us

theorem Front.gap (h : Front ts us) (q : List Token → Bool) : Gap q ts us :=
  ⟨h.alike, fun hts => absurd hts (by simp [h.bare])⟩

/-- Either there is no trivia at the front, or nothing begins there that `q` asks for. -/
theorem Gap.front_or {q : List Token → Bool} (h : Gap q ts us) :
    Front ts us ∨ startsWith Lexeme.isTrivia ts = true ∧ q us = false := by
  cases hts : startsWith Lexeme.isTrivia ts with
  | false => exact .inl ⟨h.alike, hts⟩
  | true => exact .inr ⟨rfl, h.gap hts⟩

theorem Gap.mono {q q' : List Token → Bool} (h : Gap q ts us)
    (hq : ∀ us, q us = false → q' us = false) : Gap q' ts us :=
  ⟨h.alike, fun hts => hq us (h.gap hts)⟩

theorem After.cons {l : Lexeme} {loc loc' : Location} (hl : l.isTrivia = false)
    (h : After l ts us) : Front (⟨l, loc⟩ :: ts) (⟨l, loc'⟩ :: us) :=
  ⟨.token hl h.gap h.alike, hl⟩

theorem Front.cases (h : Front ts us) :
    ts = [] ∧ us = [] ∨ ∃ l loc loc' ts' us', l.isTrivia = false ∧ ts = ⟨l, loc⟩ :: ts' ∧
      us = ⟨l, loc'⟩ :: us' ∧ After l ts' us' := by
  obtain ⟨h, hbare⟩ := h
  cases h with
  | nil => exact .inl ⟨rfl, rfl⟩
  | token hl hgap h => exact .inr ⟨_, _, _, _, _, hl, rfl, rfl, h, hgap⟩
  | trivia hl _ _ _ =>
    rw [startsWith, hl] at hbare
    cases hbare
  | comments hl _ _ =>
    rw [startsWith, hl] at hbare
    cases hbare

theorem Front.bare_right (h : Front ts us) : startsWith Lexeme.isTrivia us = false := by
  obtain ⟨rfl, rfl⟩ | ⟨l, loc, loc', ts, us, hl, rfl, rfl, -⟩ := h.cases
  · rfl
  · exact hl

theorem Alike.skipTrivia (h : Alike ts us) : Front (skipTrivia ts) (skipTrivia us) := by
  refine ⟨?_, startsWith_skipTrivia ts⟩
  cases h with
  | nil => exact .nil
  | token hl hgap h =>
    rw [skipTrivia_cons_self _ hl, skipTrivia_cons_self _ hl]
    exact .token hl hgap h
  | trivia ht hu _ h =>
    rw [skipTrivia_cons _ ht, skipTrivia_cons _ hu]
    exact h
  | @comments l loc ts us ht hs h =>
    have hfront : Front (Grammar.skipTrivia ts) us := ⟨h, startsWith_skipTrivia ts⟩
    rwa [skipTrivia_cons _ ht, skipTrivia_eq_self hfront.bare_right]

theorem Alike.spaced (h : Alike ts us) : spaced ts = spaced us := by
  cases h with
  | nil => rfl
  | token hl hgap h => simp [Grammar.spaced, hl]
  | trivia _ _ hs _ => exact hs
  | @comments l loc ts us _ hs h =>
    have hfront : Front (Grammar.skipTrivia ts) us := ⟨h, startsWith_skipTrivia ts⟩
    rw [hs, spaced_eq_false hfront.bare_right]

/-- Behind trivia, both texts are at their end or both have the same lexeme, which is no trivia. -/
theorem Alike.skipTrivia_cases (h : Alike ts us) :
    Grammar.skipTrivia ts = [] ∧ Grammar.skipTrivia us = [] ∨
      ∃ l loc loc' ts' us', l.isTrivia = false ∧ Grammar.skipTrivia ts = ⟨l, loc⟩ :: ts' ∧
        Grammar.skipTrivia us = ⟨l, loc'⟩ :: us' ∧ After l ts' us' :=
  h.skipTrivia.cases

theorem headsBlock_trivia (t : Token) (ts : List Token) (ht : t.lexeme.isTrivia = true) :
    headsBlock (t :: ts) = headsBlock ts := by
  obtain ⟨l, loc⟩ := t
  cases l <;> first | rfl | cases ht

theorem Alike.headsBlock (h : Alike ts us) : headsBlock ts = headsBlock us := by
  induction h with
  | nil => rfl
  | token _ _ _ ih => rw [Grammar.headsBlock, Grammar.headsBlock, ih]
  | @trivia l l' loc loc' ts us hl hl' _ _ ih =>
    rw [headsBlock_trivia _ _ hl, headsBlock_trivia _ _ hl', eq_skipTrivia headsBlock_trivia ts,
      eq_skipTrivia headsBlock_trivia us, ih]
  | @comments l loc ts us hl _ _ ih =>
    rw [headsBlock_trivia _ _ hl, eq_skipTrivia headsBlock_trivia ts, ih]

/-- In the head of a block nothing that goes on with the lexeme stands behind a gap. -/
theorem After.head {l : Lexeme} {p : Lexeme → Bool} (h : After l ts us)
    (hhead : headsBlock ts = true) (hp : continues l = p) : Gap (startsWith p) ts us := by
  refine ⟨h.alike, fun hts => ?_⟩
  have hgap := h.gap hts
  rw [joins, ← h.alike.headsBlock, hhead, hp, Bool.or_eq_false_iff] at hgap
  simpa using hgap.1

theorem After.part {l : Lexeme} (h : After l ts us) (hl : continues l = isCondition) :
    AfterPart ts us := by
  refine ⟨h.alike, fun hts => ?_⟩
  have hgap := h.gap hts
  rw [joins, hl, Bool.or_eq_false_iff] at hgap
  exact hgap.1

theorem AfterPart.head (h : AfterPart ts us) (hhead : headsBlock ts = true) :
    Gap (startsWith isCondition) ts us := by
  refine ⟨h.alike, fun hts => ?_⟩
  have hgap := h.gap hts
  rw [← h.alike.headsBlock, hhead] at hgap
  exact hgap

/-! ### Results that agree -/

/-- Two results that stand in the relation `R`, or two failures. -/
inductive Agree {α : Type} (R : α → α → Prop) : Except Failure α → Except Failure α → Prop
  | ok {a b : α} (h : R a b) : Agree R (.ok a) (.ok b)
  | error {e e' : Failure} : Agree R (.error e) (.error e')

/-- The same was read, and the rests stand in the relation `P`. -/
inductive SameRead {α : Type} (P : List Token → List Token → Prop) :
    α × List Token → α × List Token → Prop
  | intro {a : α} {ts us : List Token} (h : P ts us) : SameRead P (a, ts) (a, us)

section

variable {α β : Type} {R : α → α → Prop} {S : β → β → Prop} {P : List Token → List Token → Prop}

theorem Agree.bind {r r' : Except Failure α} {f g : α → Except Failure β} (h : Agree R r r')
    (hf : ∀ a b, r = .ok a → R a b → Agree S (f a) (g b)) : Agree S (r >>= f) (r' >>= g) := by
  cases h with
  | ok h => exact hf _ _ rfl h
  | error => exact .error

theorem Agree.bind_read {r r' : Except Failure (α × List Token)}
    {f g : α × List Token → Except Failure β} (h : Agree (SameRead P) r r')
    (hf : ∀ a ts us, r = .ok (a, ts) → P ts us → Agree S (f (a, ts)) (g (a, us))) :
    Agree S (r >>= f) (r' >>= g) := by
  refine h.bind fun x y hr hxy => ?_
  cases hxy with
  | intro h => exact hf _ _ _ hr h

theorem Agree.of_errors {r r' : Except Failure α} (h : ∃ e, r = .error e)
    (h' : ∃ e, r' = .error e) : Agree R r r' := by
  obtain ⟨e, rfl⟩ := h
  obtain ⟨e', rfl⟩ := h'
  exact .error

end

/-- A production that looks at the next token reads alike what is alike, if it does so for each
lexeme and at the end of the text. -/
theorem Front.byHead {β : Type} {S : β → β → Prop} {f : List Token → β} (h : Front ts us)
    (hnil : S (f []) (f []))
    (htoken : ∀ l loc loc' ts us, l.isTrivia = false → After l ts us →
      S (f (⟨l, loc⟩ :: ts)) (f (⟨l, loc'⟩ :: us))) : S (f ts) (f us) := by
  obtain ⟨rfl, rfl⟩ | ⟨l, loc, loc', ts, us, hl, rfl, rfl, hrest⟩ := h.cases
  · exact hnil
  · exact htoken l loc loc' ts us hl hrest

/-! ### Single tokens -/

theorem expect_alike (h : Front ts us) (m : Mark) :
    Agree (After (.mark m)) (expect m ts) (expect m us) := by
  refine h.byHead .error fun l loc loc' ts us _ h => ?_
  cases l with
  | mark n =>
    by_cases hn : n = m
    · subst hn
      simp only [expect, if_true]
      exact .ok h
    · simp only [expect, if_neg hn]
      exact .error
  | _ => exact .error

theorem ident_alike (h : Front ts us) (what : Expectation) :
    Agree (SameRead AfterPart) (ident what ts) (ident what us) := by
  refine h.byHead .error fun l loc loc' ts us _ h => ?_
  cases l with
  | ident name => exact .ok ⟨h.part rfl⟩
  | _ => exact .error

theorem ident_error (h : startsWith isName ts = false) (what : Expectation) :
    ∃ e, ident what ts = .error e := by
  refine ⟨missing what ts, ?_⟩
  unfold ident
  split
  · cases h
  · rfl

/-- An identifier that must come without trivia in front of it. -/
theorem ident_gap (h : Gap (startsWith isName) ts us) (what : Expectation) :
    Agree (SameRead AfterPart) (ident what ts) (ident what us) := by
  obtain h | ⟨hts, hus⟩ := h.front_or
  · exact ident_alike h what
  · have hname := startsWith_of_isTrivia (fun l => isName_trivia) hts
    exact .of_errors (ident_error hname what) (ident_error hus what)

theorem string_alike (h : Front ts us) (what : Expectation) :
    Agree (SameRead Alike) (string what ts) (string what us) := by
  refine h.byHead .error fun l loc loc' ts us _ h => ?_
  cases l with
  | string value => exact .ok ⟨h.alike⟩
  | _ => exact .error

theorem enter_alike (n : Nesting) (ts us : List Token) : Agree Eq (n.enter ts) (n.enter us) := by
  unfold Nesting.enter
  split
  · exact .error
  · exact .ok rfl

/-! ### Values -/

theorem value_unsigned {n : Nesting} {t : Token} (ht : isSigned t.lexeme = false)
    {ts rest : List Token} {v : Value} (h : value n t ts = .ok (v, rest)) :
    v.takesSign = false := by
  obtain ⟨l, loc⟩ := t
  cases l with
  | number _ _ => cases ht
  | percentage _ => cases ht
  | dimension _ _ _ => cases ht
  | function _ => cases ht
  | _ => cases h <;> rfl

theorem terms_unsigned {n : Nesting} {s : Sign} {rest : List Token}
    (hsign : sign ts = (some s, rest)) (h : startsWith isSigned rest = false) :
    ∃ e, terms n ts = .error e := by
  rw [terms_eq, hsign]
  cases rest with
  | nil => exact ⟨_, rfl⟩
  | cons t rest =>
    dsimp only
    cases hv : value n t rest with
    | error e => exact ⟨e, rfl⟩
    | ok r =>
      obtain ⟨v, after⟩ := r
      refine ⟨⟨.misplacedSign, some t.loc⟩, ?_⟩
      dsimp only [bind, Except.bind]
      rw [value_unsigned h hv]
      rfl

/-- The same sign is read, and what is behind it begins without trivia, or there is a sign that has
no term to it in either text. -/
theorem sign_alike (h : Front ts us) : ∃ s vs ws, sign ts = (s, vs) ∧ sign us = (s, ws) ∧
    (Front vs ws ∨ s.isSome = true ∧ startsWith isSigned vs = false ∧
      startsWith isSigned ws = false) := by
  have hsigned {c : Char} {ts us : List Token} (h : After (.delim c) ts us)
      (hc : c = '+' ∨ c = '-') : Front ts us ∨
        startsWith isSigned ts = false ∧ startsWith isSigned us = false := by
    obtain h | ⟨hts, hus⟩ := h.front_or
    · exact .inl h
    · refine .inr ⟨startsWith_of_isTrivia (fun l => isSigned_trivia) hts, ?_⟩
      rw [joins, Bool.or_eq_false_iff] at hus
      simpa [Lexeme.isDelim, hc] using hus.2
  have hbare : ∀ {ts us : List Token}, Front ts us → sign ts = (none, ts) → sign us = (none, us) →
      ∃ s vs ws, sign ts = (s, vs) ∧ sign us = (s, ws) ∧ (Front vs ws ∨ s.isSome = true ∧
        startsWith isSigned vs = false ∧ startsWith isSigned ws = false) :=
    fun h hts hus => ⟨none, _, _, hts, hus, .inl h⟩
  obtain ⟨rfl, rfl⟩ | ⟨l, loc, loc', ts, us, hl, rfl, rfl, hrest⟩ := h.cases
  · exact hbare h rfl rfl
  · cases l with
    | delim c =>
      by_cases hplus : c = '+'
      · subst hplus
        exact ⟨some .plus, ts, us, rfl, rfl, (hsigned hrest (.inl rfl)).imp_right fun h => ⟨rfl, h⟩⟩
      · by_cases hminus : c = '-'
        · subst hminus
          exact ⟨some .minus, ts, us, rfl, rfl,
            (hsigned hrest (.inr rfl)).imp_right fun h => ⟨rfl, h⟩⟩
        · exact hbare h (by simp [sign, hplus, hminus]) (by simp [sign, hplus, hminus])
    | _ => exact hbare h rfl rfl

theorem next?_alike (h : Alike ts us) : Option.Rel (SameRead Front) (next? ts) (next? us) := by
  unfold next?
  rcases h.skipTrivia_cases with ⟨hs, hs'⟩ | ⟨l, loc, loc', ts', us', hl, hs, hs', h⟩
  · rw [hs, hs']
    exact .none
  · rw [hs, hs']
    dsimp only
    split
    · exact .some ⟨h.alike.skipTrivia⟩
    · split
      · exact .some ⟨h.alike.skipTrivia⟩
      · split
        · exact .some ⟨h.cons hl⟩
        · exact .none

theorem value_alike_of {n : Nesting} {l : Lexeme} {loc loc' : Location} (h : Alike ts us)
    (ih : ∀ deeper ts' us', ts'.length ≤ ts.length → Front ts' us' →
      Agree (SameRead Front) (terms deeper ts') (terms deeper us')) :
    Agree (SameRead Alike) (value n ⟨l, loc⟩ ts) (value n ⟨l, loc'⟩ us) := by
  unfold value
  dsimp only
  split
  · refine (enter_alike n ts us).bind ?_
    rintro deeper _ - rfl
    refine (ih deeper _ _ (skipTrivia_le ts) h.skipTrivia).bind_read fun args after after' _ h => ?_
    exact (expect_alike h.alike.skipTrivia _).bind fun close close' _ h => .ok ⟨h.alike⟩
  · split
    · exact .ok ⟨h⟩
    · exact .error

/-- **Values are read alike.**  The induction is on the length of the first text: what is left of
the second is alike, so nothing has to be known of its length. -/
theorem terms_alike {n : Nesting} (h : Front ts us) :
    Agree (SameRead Front) (terms n ts) (terms n us) := by
  induction hlen : ts.length using Nat.strongRecOn generalizing n ts us with
  | ind len ih =>
    have hle := sign_le ts
    obtain ⟨s, vs, ws, hsign, hsign', hrest⟩ := sign_alike h
    obtain hrest | ⟨hsome, hvs, hws⟩ := hrest
    · rw [hsign] at hle
      rw [terms_eq, terms_eq, hsign, hsign']
      obtain ⟨rfl, rfl⟩ | ⟨l, loc, loc', vs, ws, hl, rfl, rfl, h⟩ := hrest.cases
      · exact .error
      · simp only [List.length_cons] at hle
        refine (value_alike_of h.alike fun deeper ts' us' hle' h' =>
          ih _ (by omega) h' rfl).bind_read fun v after after' hv h => ?_
        have hval := value_le hv
        dsimp only
        split
        · exact .error
        · have hnext := next?_alike h
          have hlen := @next?_le after
          generalize next? after = r at hnext hlen
          generalize next? after' = r' at hnext
          cases hnext with
          | none => exact .ok ⟨h.skipTrivia⟩
          | some hread =>
            obtain ⟨h⟩ := hread
            have hfollowing := hlen rfl
            exact (ih _ (by omega) h rfl).bind_read fun more final final' _ h => .ok ⟨h⟩
    · obtain ⟨s, rfl⟩ := Option.isSome_iff_exists.1 hsome
      exact .of_errors (terms_unsigned hsign hvs) (terms_unsigned hsign' hws)

/-! ### Declarations -/

theorem declaration_alike {n : Nesting} (h : Front ts us) :
    Agree (SameRead Front) (declaration n ts) (declaration n us) := by
  refine (ident_alike h _).bind_read fun property ts us _ h => ?_
  refine (expect_alike h.alike.skipTrivia _).bind fun ts us _ h => ?_
  refine (terms_alike h.alike.skipTrivia).bind_read fun value ts us _ h => ?_
  obtain ⟨rfl, rfl⟩ | ⟨l, loc, loc', ts, us, hl, rfl, rfl, hrest⟩ := h.cases
  · exact .ok ⟨h⟩
  · cases l with
    | important => exact .ok ⟨hrest.alike.skipTrivia⟩
    | _ => exact .ok ⟨h⟩

theorem endsDeclaration_alike (h : Front ts us) : endsDeclaration ts = endsDeclaration us :=
  h.byHead rfl fun _ _ _ _ _ _ _ => rfl

theorem listedDeclaration_alike {n : Nesting} (h : Front ts us) :
    Agree (SameRead Front) (listedDeclaration n ts) (listedDeclaration n us) := by
  refine (declaration_alike h).bind_read fun d rest rest' _ h => ?_
  dsimp only
  rw [endsDeclaration_alike h]
  split
  · exact .ok ⟨h⟩
  · exact .error

/-! ### Selectors -/

theorem attributeValue_alike (h : Front ts us) :
    Agree (SameRead Alike) (attributeValue ts) (attributeValue us) := by
  refine h.byHead .error fun l loc loc' ts us _ h => ?_
  cases l with
  | ident value => exact .ok ⟨h.alike⟩
  | string value => exact .ok ⟨h.alike⟩
  | _ => exact .error

theorem attributeSel_alike (h : Alike ts us) :
    Agree (SameRead AfterPart) (attributeSel ts) (attributeSel us) := by
  refine (ident_alike h.skipTrivia _).bind_read fun name ts us _ h => ?_
  dsimp only
  rcases h.alike.skipTrivia_cases with ⟨hs, hs'⟩ | ⟨l, loc, loc', ts, us, hl, hs, hs', h⟩
  · rw [hs, hs']
    exact .error
  · rw [hs, hs']
    dsimp only
    split
    · next hclose =>
      have hl : continues l = isCondition := by
        cases l with
        | mark m => cases m <;> first | rfl | cases hclose
        | _ => cases hclose
      exact .ok ⟨h.part hl⟩
    · split
      · exact .error
      · refine (attributeValue_alike h.alike.skipTrivia).bind_read fun value ts us _ h => ?_
        exact (expect_alike h.skipTrivia _).bind fun rest rest' _ h => .ok ⟨h.part rfl⟩

theorem pseudo_alike (h : Front ts us) : Agree (SameRead AfterPart) (pseudo ts) (pseudo us) := by
  refine h.byHead .error fun l loc loc' ts us _ h => ?_
  cases l with
  | ident name => exact .ok ⟨h.part rfl⟩
  | function name =>
    refine (ident_alike h.alike.skipTrivia _).bind_read fun argument ts us _ h => ?_
    exact (expect_alike h.alike.skipTrivia _).bind fun rest rest' _ h => .ok ⟨h.part rfl⟩
  | _ => exact .error

theorem pseudo_error (h : startsWith isPseudo ts = false) : ∃ e, pseudo ts = .error e := by
  refine ⟨missing .pseudoName ts, ?_⟩
  unfold pseudo
  split
  · cases h
  · cases h
  · rfl

/-- The name of a pseudo-class, which must come without trivia in front of it. -/
theorem pseudo_gap (h : Gap (startsWith isPseudo) ts us) :
    Agree (SameRead AfterPart) (pseudo ts) (pseudo us) := by
  obtain h | ⟨hts, hus⟩ := h.front_or
  · exact pseudo_alike h
  · have hpseudo := startsWith_of_isTrivia (fun l => isPseudo_trivia) hts
    exact .of_errors (pseudo_error hpseudo) (pseudo_error hus)

theorem condition?_alike (h : Front ts us) (hhead : headsBlock ts = true) :
    Agree (Option.Rel (SameRead AfterPart)) (condition? ts) (condition? us) := by
  obtain ⟨rfl, rfl⟩ | ⟨l, loc, loc', ts, us, hl, rfl, rfl, hrest⟩ := h.cases
  · exact .ok .none
  · cases l with
    | hash name isIdent =>
      cases isIdent with
      | true => exact .ok (.some ⟨hrest.part rfl⟩)
      | false => exact .error
    | delim c =>
      unfold condition?
      dsimp only
      split
      · next hc =>
        subst hc
        exact (ident_gap (hrest.head hhead rfl) _).bind_read
          fun name rest rest' _ h => .ok (.some ⟨h⟩)
      · exact .ok .none
    | mark m =>
      cases m with
      | openBracket =>
        exact (attributeSel_alike hrest.alike).bind_read fun test rest rest' _ h => .ok (.some ⟨h⟩)
      | colon =>
        exact (pseudo_gap (hrest.head hhead rfl)).bind_read fun p rest rest' _ h => .ok (.some ⟨h⟩)
      | _ => exact .ok .none
    | _ => exact .ok .none

theorem condition?_none (h : startsWith isCondition ts = false) : condition? ts = .ok none := by
  unfold condition?
  split
  · cases h
  · next c loc rest =>
    rw [if_neg]
    rintro rfl
    cases h
  · cases h
  · cases h
  · rfl

theorem conditions_none (h : startsWith isCondition ts = false) : conditions ts = .ok ([], ts) := by
  rw [conditions_eq, condition?_none h]

theorem conditions_alike (h : AfterPart ts us) (hhead : headsBlock ts = true) :
    Agree (SameRead AfterPart) (conditions ts) (conditions us) := by
  induction hlen : ts.length using Nat.strongRecOn generalizing ts us with
  | ind len ih =>
    obtain hfront | ⟨hts, hus⟩ := (h.head hhead).front_or
    · have hc := condition?_alike hfront hhead
      have hlt := @condition?_lt ts
      have hstretch := @condition?_stretch ts
      rw [conditions_eq, conditions_eq us]
      generalize condition? ts = r at hc hlt hstretch
      generalize condition? us = r' at hc
      cases hc with
      | error => exact .error
      | ok hc =>
        cases hc with
        | none => exact .ok ⟨h⟩
        | some hread =>
          obtain ⟨h⟩ := hread
          have hahead := (hstretch rfl).headsBlock.symm.trans hhead
          exact (ih _ (hlen ▸ hlt rfl) h hahead rfl).bind_read
            fun cs final final' _ h => .ok ⟨h⟩
    · have hcondition := startsWith_of_isTrivia (fun l => isCondition_trivia) hts
      rw [conditions_none hcondition, conditions_none hus]
      exact .ok ⟨h⟩

theorem elementName?_alike (h : Front ts us) :
    Option.Rel (SameRead AfterPart) (elementName? ts) (elementName? us) := by
  refine h.byHead .none fun l loc loc' ts us hl h => ?_
  cases l with
  | ident name => exact .some ⟨h.part rfl⟩
  | delim c =>
    unfold elementName?
    dsimp only
    split
    · next hc =>
      subst hc
      exact .some ⟨h.part rfl⟩
    · exact .none
  | _ => exact .none

theorem link_alike (h : Front ts us) (hhead : headsBlock ts = true) (combinator : Combinator) :
    Agree (SameRead AfterPart) (link combinator ts) (link combinator us) := by
  have hname := elementName?_alike h
  have hstretch := @elementName?_stretch ts
  unfold link
  generalize elementName? ts = r at hname hstretch
  generalize elementName? us = r' at hname
  cases hname with
  | none =>
    refine (conditions_alike (h.gap _) hhead).bind_read fun cs final final' _ h => ?_
    dsimp only
    split
    · exact .error
    · exact .ok ⟨h⟩
  | some hread =>
    obtain ⟨h⟩ := hread
    have hahead := (hstretch rfl).headsBlock.symm.trans hhead
    exact (conditions_alike h hahead).bind_read fun cs final final' _ h => .ok ⟨h⟩

theorem combinator?_alike (h : Alike ts us) :
    Agree (Option.Rel (SameRead Front)) (combinator? ts) (combinator? us) := by
  unfold combinator?
  rw [h.spaced]
  rcases h.skipTrivia_cases with ⟨hs, hs'⟩ | ⟨l, loc, loc', ts, us, hl, hs, hs', h⟩
  · rw [hs, hs']
    exact .ok .none
  · rw [hs, hs']
    dsimp only
    split
    · exact .ok (.some ⟨h.alike.skipTrivia⟩)
    · split
      · exact .ok (.some ⟨h.alike.skipTrivia⟩)
      · split
        · exact .ok .none
        · split
          · exact .ok (.some ⟨h.cons hl⟩)
          · exact .error

theorem moreLinks_alike (h : Alike ts us) (hhead : headsBlock ts = true) :
    Agree (SameRead Front) (moreLinks ts) (moreLinks us) := by
  induction hlen : ts.length using Nat.strongRecOn generalizing ts us with
  | ind len ih =>
    have hc := combinator?_alike h
    have hle := @combinator?_le ts
    have hstretch := @combinator?_stretch ts
    rw [moreLinks_eq, moreLinks_eq us]
    generalize combinator? ts = r at hc hle hstretch
    generalize combinator? us = r' at hc
    cases hc with
    | error => exact .error
    | ok hc =>
      cases hc with
      | none => exact .ok ⟨h.skipTrivia⟩
      | some hread =>
        obtain ⟨h⟩ := hread
        have hahead := (hstretch rfl).headsBlock.symm.trans hhead
        refine (link_alike h hahead _).bind_read fun l after after' hl h => ?_
        have hlt := Nat.lt_of_lt_of_le (link_lt hl) (hle rfl)
        have hbeyond := (link_stretch hl).headsBlock.symm.trans hahead
        exact (ih _ (hlen ▸ hlt) h.alike hbeyond rfl).bind_read
          fun ls final final' _ h => .ok ⟨h⟩

theorem chain_alike (h : Front ts us) (hhead : headsBlock ts = true) :
    Agree (SameRead Front) (chain ts) (chain us) := by
  refine (link_alike h hhead _).bind_read fun l rest rest' hl h => ?_
  have hahead := (link_stretch hl).headsBlock.symm.trans hhead
  exact (moreLinks_alike h.alike hahead).bind_read fun ls final final' _ h => .ok ⟨h⟩

theorem chains_alike (h : Front ts us) (hhead : headsBlock ts = true) :
    Agree (SameRead Front) (chains ts) (chains us) := by
  induction hlen : ts.length using Nat.strongRecOn generalizing ts us with
  | ind len ih =>
    have hc := chain_alike h hhead
    have hlt := @chain_lt ts
    have hstretch := @chain_stretch ts
    rw [chains_eq, chains_eq us]
    generalize chain ts = r at hc hlt hstretch
    generalize chain us = r' at hc
    cases hc with
    | error => exact .error
    | ok hread =>
      obtain ⟨hfinal⟩ := hread
      have hahead := (hstretch rfl).headsBlock.symm.trans hhead
      have hrest := hlt rfl
      obtain ⟨rfl, rfl⟩ | ⟨l, loc, loc', ts, us, hl, rfl, rfl, h⟩ := hfinal.cases
      · exact .ok ⟨hfinal⟩
      · cases l with
        | mark m =>
          cases m with
          | comma =>
            have hle := skipTrivia_le ts
            have hbeyond := (skipTrivia_stretch ts).headsBlock.symm.trans hahead
            simp only [List.length_cons] at hrest
            exact (ih _ (by omega) h.alike.skipTrivia hbeyond rfl).bind_read
              fun cs final final' _ h => .ok ⟨h⟩
          | _ => exact .ok ⟨hfinal⟩
        | _ => exact .ok ⟨hfinal⟩

/-- **Selectors are read alike** in the heads of blocks. -/
theorem selector_alike (h : Front ts us) (hhead : headsBlock ts = true) :
    Agree (SameRead Front) (selector ts) (selector us) :=
  (chains_alike h hhead).bind_read fun _ _ _ _ h => .ok ⟨h⟩

/-! ### The heads of at-rules -/

theorem charset_alike (h : Alike ts us) : Agree (SameRead Alike) (charset ts) (charset us) := by
  refine (string_alike h.skipTrivia _).bind_read fun name ts us _ h => ?_
  exact (expect_alike h.skipTrivia _).bind fun rest rest' _ h => .ok ⟨h.alike⟩

theorem mediaList_alike (h : Front ts us) :
    Agree (SameRead Front) (mediaList ts) (mediaList us) := by
  induction hlen : ts.length using Nat.strongRecOn generalizing ts us with
  | ind len ih =>
    rw [mediaList_eq, mediaList_eq us]
    refine (ident_alike h _).bind_read fun name rest rest' hi h => ?_
    have hlt := ident_lt hi
    have hle := skipTrivia_le rest
    dsimp only
    rcases h.alike.skipTrivia_cases with ⟨hs, hs'⟩ | ⟨l, loc, loc', vs, ws, hl, hs, hs', h⟩
    · rw [hs, hs']
      exact .ok ⟨.nil, rfl⟩
    · rw [hs, List.length_cons] at hle
      rw [hs, hs']
      cases l with
      | mark m =>
        cases m with
        | comma =>
          have hle' := skipTrivia_le vs
          exact (ih _ (by omega) h.alike.skipTrivia rfl).bind_read
            fun names final final' _ h => .ok ⟨h⟩
        | _ => exact .ok ⟨h.cons rfl⟩
      | _ => exact .ok ⟨h.cons hl⟩

theorem importAddress_alike (h : Front ts us) :
    Agree (SameRead Alike) (importAddress ts) (importAddress us) := by
  refine h.byHead .error fun l loc loc' ts us _ h => ?_
  cases l with
  | url address => exact .ok ⟨h.alike⟩
  | string address => exact .ok ⟨h.alike⟩
  | function name =>
    unfold importAddress
    dsimp only
    split
    · refine (string_alike h.alike.skipTrivia _).bind_read fun address ts us _ h => ?_
      exact (expect_alike h.skipTrivia _).bind fun rest rest' _ h => .ok ⟨h.alike⟩
    · exact .error
  | _ => exact .error

theorem importMedia_alike (h : Front ts us) :
    Agree (SameRead Front) (importMedia ts) (importMedia us) := by
  obtain ⟨rfl, rfl⟩ | ⟨l, loc, loc', ts, us, hl, rfl, rfl, -⟩ := h.cases
  · exact .ok ⟨h⟩
  · cases l with
    | ident name => exact mediaList_alike h
    | _ => exact .ok ⟨h⟩

theorem importSheet_alike (h : Alike ts us) :
    Agree (SameRead Alike) (importSheet ts) (importSheet us) := by
  refine (importAddress_alike h.skipTrivia).bind_read fun address ts us _ h => ?_
  refine (importMedia_alike h.skipTrivia).bind_read fun names ts us _ h => ?_
  obtain ⟨rfl, rfl⟩ | ⟨l, loc, loc', ts, us, hl, rfl, rfl, -⟩ := h.cases
  · exact .ok ⟨.nil⟩
  · exact (expect_alike h _).bind fun rest rest' _ h => .ok ⟨h.alike⟩

theorem pageName_alike (h : Front ts us) : SameRead AfterPart (pageName ts) (pageName us) := by
  obtain ⟨rfl, rfl⟩ | ⟨l, loc, loc', ts, us, hl, rfl, rfl, hrest⟩ := h.cases
  · exact ⟨h.gap _⟩
  · cases l with
    | ident name => exact ⟨hrest.part rfl⟩
    | _ => exact ⟨h.gap _⟩

theorem startsWith_isName (h : startsWith isPseudo ts = false) : startsWith isName ts = false := by
  cases ts with
  | nil => rfl
  | cons t ts =>
    obtain ⟨l, loc⟩ := t
    cases l <;> first | rfl | cases h

theorem pagePseudo_none (h : startsWith isCondition ts = false) :
    pagePseudo ts = .ok (none, ts) := by
  unfold pagePseudo
  split
  · cases h
  · rfl

theorem pagePseudo_alike (h : AfterPart ts us) (hhead : headsBlock ts = true) :
    Agree (SameRead Alike) (pagePseudo ts) (pagePseudo us) := by
  obtain hfront | ⟨hts, hus⟩ := (h.head hhead).front_or
  · obtain ⟨rfl, rfl⟩ | ⟨l, loc, loc', ts, us, hl, rfl, rfl, hrest⟩ := hfront.cases
    · exact .ok ⟨.nil⟩
    · cases l with
      | mark m =>
        cases m with
        | colon =>
          have hname := (hrest.head hhead rfl).mono fun us => @startsWith_isName us
          exact (ident_gap hname _).bind_read fun name rest rest' _ h => .ok ⟨h.alike⟩
        | _ => exact .ok ⟨hfront.alike⟩
      | _ => exact .ok ⟨hfront.alike⟩
  · have hcondition := startsWith_of_isTrivia (fun l => isCondition_trivia) hts
    rw [pagePseudo_none hcondition, pagePseudo_none hus]
    exact .ok ⟨h.alike⟩

end Grammar

end Css2
