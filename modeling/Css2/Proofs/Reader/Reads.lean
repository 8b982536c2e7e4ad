import Css2.Reader.Basic

/-!
# Readers and the grammar

The grammar says of a list of tokens what can be read from its front and what is left.  A reader
finds the same by moving along a stream: `Reads p r g` says that the production `p`, begun in the
state `r`, ends as `g` says, and that it has moved on in the stream and changed nothing else.  Where
`g` is a failure, nothing is said of the place that the reader is left at.  On the way it may have
been deeper than ever, but never deeper than the options allow.

A production that is built from others reads what the grammar builds from theirs (`Reads.bind`), so
that the proofs follow the grammar step by step.
-/

namespace Css2

namespace TokenStream

/-! ### Streams and the tokens that are left -/

theorem peek_eq (s : TokenStream) : s.peek = s.unread.head? := by
  rw [peek, unread, List.head?_drop]

theorem location_eq (s : TokenStream) : s.location = (Grammar.place s.unread).getD s.stop := by
  rw [location, peek_eq]
  rfl

theorem next_fst (s : TokenStream) : s.next.1 = s.unread.head? := by
  rw [next, peek_eq]
  split
  · next h => exact h.symm
  · next h => exact h.symm

def rewound (s : TokenStream) : TokenStream :=
  { s with cursor := 0, pushedBack := false }

theorem rewound_next (s : TokenStream) : s.next.2.rewound = s.rewound := by
  unfold next
  split <;> rfl

theorem unread_next (s : TokenStream) : s.next.2.unread = s.unread.tail := by
  rw [next, peek]
  split
  · next h =>
    rw [unread, List.drop_eq_nil_of_le (List.getElem?_eq_none_iff.1 h)]
    rfl
  · exact List.tail_drop.symm

/-- The cursor of a stream is not past its last token. -/
def Bounded (s : TokenStream) : Prop :=
  s.cursor ≤ s.tokens.length

theorem Bounded.next {s : TokenStream} (h : s.Bounded) : s.next.2.Bounded := by
  unfold TokenStream.next
  split
  · exact h
  · next hpeek => exact (List.getElem?_eq_some_iff.1 hpeek).1

theorem bounded_restore (s : TokenStream) (m : Mark) : (s.restore m).Bounded :=
  Nat.min_le_right _ _

theorem unread_restore {s s' : TokenStream} (h : s'.rewound = s.rewound) :
    (s'.restore s.mark).unread = s.unread := by
  have htokens : s'.rewound.tokens = s.rewound.tokens := congrArg tokens h
  show s'.tokens.drop (min s.cursor s'.tokens.length) = s.tokens.drop s.cursor
  rw [show s'.tokens = s.tokens from htokens]
  by_cases hle : s.cursor ≤ s.tokens.length
  · rw [Nat.min_eq_left hle]
  · rw [Nat.min_eq_right (by omega), List.drop_length, List.drop_eq_nil_of_le (by omega)]

end TokenStream

namespace Reader

variable {α β : Type} {r r' : Reader}

/-! ### Moving along the stream -/

def unread (r : Reader) : List Token :=
  r.source.unread

def stop (r : Reader) : Location :=
  r.source.stop

/-- How deep the reader is, and how deep it may go. -/
def nesting (r : Reader) : Nesting :=
  ⟨r.options.maxNesting, r.depth⟩

/-- The reader without its place in the stream, and without what it knows of its depths. -/
def rewound (r : Reader) : Reader :=
  { r with source := r.source.rewound, deepest := 0 }

/-- From `r` to `r'` a reader has been to no depth beyond the limit that it had not been to before,
and remembers those that it has been to. -/
structure Sunk (r r' : Reader) : Prop where
  le : r.deepest ≤ r'.deepest
  le_max : r'.deepest ≤ max r.deepest r.options.maxNesting

/-- From `r` to `r'` a reader has moved along the stream, and nothing else. -/
structure Moved (r r' : Reader) : Prop extends Sunk r r' where
  rewound_eq : r'.rewound = r.rewound
  bounded : r.source.Bounded → r'.source.Bounded

theorem Sunk.of_eq (h : r'.deepest = r.deepest) : Sunk r r' :=
  ⟨Nat.le_of_eq h.symm, Nat.le_trans (Nat.le_of_eq h) (Nat.le_max_left _ _)⟩

theorem Sunk.trans {r'' : Reader} (ho : r'.options = r.options) (h : Sunk r r')
    (h' : Sunk r' r'') : Sunk r r'' := by
  have hle := h'.le_max
  rw [ho] at hle
  refine ⟨Nat.le_trans h.le h'.le, Nat.le_trans hle (Nat.max_le.2 ⟨h.le_max, ?_⟩)⟩
  exact Nat.le_max_right _ _

theorem Moved.refl (r : Reader) : Moved r r :=
  ⟨.of_eq rfl, rfl, id⟩

theorem Moved.options_eq (h : Moved r r') : r'.options = r.options := by
  have hoptions : r'.rewound.options = r.rewound.options := congrArg options h.rewound_eq
  exact hoptions

theorem Moved.trans {r'' : Reader} (h : Moved r r') (h' : Moved r' r'') : Moved r r'' :=
  { toSunk := h.toSunk.trans h.options_eq h'.toSunk
    rewound_eq := h'.rewound_eq.trans h.rewound_eq
    bounded := h'.bounded ∘ h.bounded }

theorem Moved.stop_eq (h : Moved r r') : r'.stop = r.stop := by
  have hstop : r'.rewound.stop = r.rewound.stop := congrArg stop h.rewound_eq
  exact hstop

theorem Moved.nesting_eq (h : Moved r r') : r'.nesting = r.nesting := by
  have hnesting : r'.rewound.nesting = r.rewound.nesting := congrArg nesting h.rewound_eq
  exact hnesting

theorem Moved.source_eq (h : Moved r r') : r'.source.rewound = r.source.rewound := by
  have hsource : r'.rewound.source = r.rewound.source := congrArg source h.rewound_eq
  exact hsource

theorem Moved.tokens_eq (h : Moved r r') : r'.source.tokens = r.source.tokens := by
  have htokens : r'.source.rewound.tokens = r.source.rewound.tokens :=
    congrArg TokenStream.tokens h.source_eq
  exact htokens

/-! ### What a production reads -/

/-- The production `p`, begun in the state `r`, ends as `g` says, and only moves along the
stream. -/
def Reads (p : Production α) (r : Reader) (g : Except Failure (α × List Token)) : Prop :=
  ∃ r', Moved r r' ∧ match g with
    | .ok (a, rest) => p r = some (.ok a, r') ∧ r'.unread = rest
    | .error e => p r = some (.error (e.toError r.stop), r')

theorem bind_of_ok {p : Production α} {k : α → Production β} {a : α}
    (h : p r = some (.ok a, r')) : (p >>= k) r = k a r' := by
  show (p r).bind _ = _
  rw [h]
  rfl

theorem bind_of_error {p : Production α} {k : α → Production β} {e : ParseError}
    (h : p r = some (.error e, r')) : (p >>= k) r = some (.error e, r') := by
  show (p r).bind _ = _
  rw [h]
  rfl

theorem Reads.pure (a : α) {rest : List Token} (h : r.unread = rest) :
    Reads (Pure.pure a : Production α) r (.ok (a, rest)) :=
  ⟨r, .refl r, rfl, h⟩

theorem Reads.throw (e : Failure) :
    Reads (MonadExcept.throw (e.toError r.stop) : Production α) r (.error e) :=
  ⟨r, .refl r, rfl⟩

theorem Reads.step {p : Production α} {k : α → Production β} {a : α} {rest : List Token}
    {g : Except Failure (β × List Token)} (hp : Reads p r (.ok (a, rest)))
    (hk : ∀ r', Moved r r' → r'.unread = rest → Reads (k a) r' g) : Reads (p >>= k) r g := by
  obtain ⟨r', hm, hr, hu⟩ := hp
  obtain ⟨r'', hm', h⟩ := hk r' hm hu
  refine ⟨r'', hm.trans hm', ?_⟩
  rw [bind_of_ok hr, ← hm.stop_eq]
  exact h

/-- **Productions in a row read what the grammar reads in a row.** -/
theorem Reads.bind {p : Production α} {k : α → Production β} {g : Except Failure (α × List Token)}
    {f : α × List Token → Except Failure (β × List Token)} (hp : Reads p r g)
    (hk : ∀ a r', Moved r r' → g = .ok (a, r'.unread) → Reads (k a) r' (f (a, r'.unread))) :
    Reads (p >>= k) r (g >>= f) := by
  cases g with
  | error e =>
    obtain ⟨r', hm, hr⟩ := hp
    exact ⟨r', hm, bind_of_error hr⟩
  | ok x =>
    obtain ⟨a, rest⟩ := x
    refine hp.step fun r' hm hu => ?_
    subst hu
    exact hk a r' hm rfl

/-- The production `p` has no value, and `g` says what follows what it reads. -/
def Passes (p : Production Unit) (r : Reader) (g : Except Failure (List Token)) : Prop :=
  Reads p r (g.map fun rest => ((), rest))

theorem Reads.bind_rest {p : Production Unit} {k : Unit → Production β}
    {g : Except Failure (List Token)} {f : List Token → Except Failure (β × List Token)}
    (hp : Passes p r g)
    (hk : ∀ r', Moved r r' → g = .ok r'.unread → Reads (k ()) r' (f r'.unread)) :
    Reads (p >>= k) r (g >>= f) := by
  cases g with
  | error e =>
    obtain ⟨r', hm, hr⟩ := hp
    exact ⟨r', hm, bind_of_error hr⟩
  | ok rest =>
    refine Reads.step (show Reads p r (.ok ((), rest)) from hp) fun r' hm hu => ?_
    subst hu
    exact hk r' hm rfl

theorem map_bind {α β γ : Type} (g : Except Failure α) (f : α → Except Failure β) (h : β → γ) :
    (g >>= f).map h = g >>= fun a => (f a).map h := by
  cases g <;> rfl

theorem Passes.bind {p q : Production Unit} {g : Except Failure (List Token)}
    {f : List Token → Except Failure (List Token)} (hp : Passes p r g)
    (hq : ∀ r', Moved r r' → g = .ok r'.unread → Passes q r' (f r'.unread)) :
    Passes (do p; q) r (g >>= f) := by
  rw [Passes, map_bind]
  exact Reads.bind_rest (f := fun rest => (f rest).map fun rest => ((), rest)) hp hq

/-! ### Looking at the next token -/

theorem peek_apply (r : Reader) : peek r = some (.ok r.unread.head?, r) := by
  show some (Except.ok r.source.peek, r) = _
  rw [TokenStream.peek_eq]
  rfl

/-- A production that looks at the next token does what it does for that token. -/
theorem Reads.peek {k : Option Token → Production β} {g : Except Failure (β × List Token)}
    (h : Reads (k r.unread.head?) r g) : Reads (Reader.peek >>= k) r g := by
  obtain ⟨r', hm, h⟩ := h
  refine ⟨r', hm, ?_⟩
  rw [bind_of_ok (peek_apply r)]
  exact h

theorem Reads.nextIs {kind : Lexeme → Bool} {k : Bool → Production β} {b : Bool}
    {g : Except Failure (β × List Token)}
    (hb : (r.unread.head?.any fun t => kind t.lexeme) = b) (h : Reads (k b) r g) :
    Reads (Reader.nextIs kind >>= k) r g := by
  have happly : Reader.nextIs kind r = some (.ok b, r) := by
    unfold Reader.nextIs
    rw [bind_of_ok (peek_apply r), hb]
    rfl
  obtain ⟨r', hm, h⟩ := h
  refine ⟨r', hm, ?_⟩
  rw [bind_of_ok happly]
  exact h

theorem reads_bump (r : Reader) : Reads bump r (.ok (r.unread.head?, r.unread.tail)) := by
  refine ⟨{ r with source := r.source.next.2 }, ⟨.of_eq rfl, ?_, .next⟩, ?_, r.source.unread_next⟩
  · show ({ r with source := r.source.next.2.rewound, deepest := 0 } : Reader) = _
    rw [r.source.rewound_next]
    rfl
  · show some (Except.ok r.source.next.1, _) = _
    rw [r.source.next_fst]
    rfl

theorem Reads.bump {t : Token} {rest : List Token} {k : Option Token → Production β}
    {g : Except Failure (β × List Token)} (hu : r.unread = t :: rest)
    (hk : ∀ r', Moved r r' → r'.unread = rest → Reads (k (some t)) r' g) :
    Reads (Reader.bump >>= k) r g := by
  have h := reads_bump r
  rw [hu] at h
  exact h.step hk

/-! ### Failures -/

theorem reads_failHere (cause : Cause) :
    Reads (failHere cause : Production α) r (.error (Grammar.failHere cause r.unread)) := by
  refine ⟨r, .refl r, ?_⟩
  show some (Except.error (ParseError.failed cause r.source.location), r) = _
  rw [r.source.location_eq]
  rfl

theorem reads_unexpected (what : Expectation) :
    Reads (unexpected what : Production α) r (.error (Grammar.missing what r.unread)) := by
  refine Reads.peek ?_
  cases hu : r.unread with
  | nil =>
    have h := reads_failHere (α := α) (r := r) .endOfInput
    rw [hu] at h
    exact h
  | cons t rest => exact ⟨r, .refl r, rfl⟩

/-! ### Trivia -/

theorem spaced_cons {t : Token} {rest : List Token} (h : t.lexeme.isTrivia = true) :
    Grammar.spaced (t :: rest) = (t.lexeme == .whitespace || Grammar.spaced rest) := by
  rw [Grammar.spaced, List.takeWhile_cons, if_pos h, List.any_cons]
  rfl

theorem reads_skipTrivia (r : Reader) :
    Reads skipTrivia r (.ok (Grammar.spaced r.unread, Grammar.skipTrivia r.unread)) := by
  induction hts : r.unread generalizing r with
  | nil =>
    rw [skipTrivia.eq_1]
    refine Reads.peek ?_
    rw [hts]
    exact .pure _ hts
  | cons t rest ih =>
    rw [skipTrivia.eq_1]
    refine Reads.peek ?_
    rw [hts]
    dsimp only [List.head?_cons]
    by_cases ht : t.lexeme.isTrivia = true
    · rw [if_pos ht]
      refine .bump hts fun r' _ hu => (ih r' hu).step fun r'' _ hu' => ?_
      rw [spaced_cons ht]
      refine .pure _ (hu'.trans ?_)
      rw [Grammar.skipTrivia, Grammar.skipTrivia, List.dropWhile_cons, if_pos ht]
    · rw [if_neg ht]
      have hspaced : Grammar.spaced (t :: rest) = false := by
        rw [Grammar.spaced, List.takeWhile_cons, if_neg ht]
        rfl
      have hskip : Grammar.skipTrivia (t :: rest) = t :: rest := by
        rw [Grammar.skipTrivia, List.dropWhile_cons, if_neg ht]
      rw [hspaced, hskip]
      exact .pure _ hts

theorem Reads.skipTrivia {k : Bool → Production β} {g : Except Failure (β × List Token)}
    (hk : ∀ r', Moved r r' → r'.unread = Grammar.skipTrivia r.unread →
      Reads (k (Grammar.spaced r.unread)) r' g) : Reads (Reader.skipTrivia >>= k) r g :=
  (reads_skipTrivia r).step hk

/-! ### Single tokens -/

theorem reads_unexpected_of {ts : List Token} (h : r.unread = ts) (what : Expectation) :
    Reads (unexpected what : Production α) r (.error (Grammar.missing what ts)) := by
  rw [← h]
  exact reads_unexpected what

theorem reads_expect (m : Mark) (r : Reader) :
    Passes (expect m) r (Grammar.expect m r.unread) := by
  cases hu : r.unread with
  | nil => exact .nextIs (b := false) (by rw [hu]; rfl) (reads_unexpected_of hu _)
  | cons t rest =>
    obtain ⟨l, loc⟩ := t
    cases l with
    | mark n =>
      rw [Grammar.expect]
      by_cases hn : n = m
      · rw [if_pos hn]
        refine .nextIs (b := true) (by simp [hu, hn, Lexeme.isMark]) ?_
        exact .bump hu fun r' _ hu' => .pure _ hu'
      · rw [if_neg hn]
        refine .nextIs (b := false) (by simp [hu, hn, Lexeme.isMark]) ?_
        exact reads_unexpected_of hu _
    | _ => exact .nextIs (b := false) (by rw [hu]; rfl) (reads_unexpected_of hu _)

theorem reads_ident (what : Expectation) (r : Reader) :
    Reads (ident what) r (Grammar.ident what r.unread) := by
  refine Reads.peek ?_
  cases hu : r.unread with
  | nil => exact reads_unexpected_of hu _
  | cons t rest =>
    obtain ⟨l, loc⟩ := t
    cases l with
    | ident name => exact .bump hu fun r' _ hu' => .pure _ hu'
    | _ => exact reads_unexpected_of hu _

theorem reads_string (what : Expectation) (r : Reader) :
    Reads (string what) r (Grammar.string what r.unread) := by
  refine Reads.peek ?_
  cases hu : r.unread with
  | nil => exact reads_unexpected_of hu _
  | cons t rest =>
    obtain ⟨l, loc⟩ := t
    cases l with
    | string value => exact .bump hu fun r' _ hu' => .pure _ hu'
    | _ => exact reads_unexpected_of hu _

end Reader

end Css2
