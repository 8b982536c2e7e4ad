import Css2.Proofs.Reader.Trace

/-!
# Loops of readers

A loop takes turns until one of them leaves it (`Reader.iterate`).  Where each turn that does not
leave the loop also leaves fewer tokens to be read (`Progresses`), the equation of the loop has one
solution: a production that satisfies it is the loop (`eq_iterate`).

`Ends p r post` says of a single production that it has a result, and what holds where the result is
a value.  Unlike `Reads` and `Does` it forgets what was read, so that it is easy to put together.
-/

namespace Css2

/-- What a turn of a loop comes to. -/
inductive Turn (σ α : Type) where
  /-- There is another turn, from this state on. -/
  | again (s : σ)
  /-- The loop is left. -/
  | leave (a : α)

namespace Reader

variable {α β σ : Type} {r r' : Reader}

def iterate (turn : σ → Production (Turn σ α)) (s : σ) : Production α := do
  match ← turn s with
  | .again s => (· |>.iterate turn s)
  | .leave a => return a
partial_fixpoint

/-! ### Progress -/

/-- Each turn ends, and if there is another one then there are fewer tokens left for it. -/
def Progresses (turn : σ → Production (Turn σ α)) : Prop :=
  ∀ s r, ∃ x r', turn s r = some (x, r') ∧
    ∀ s', x = .ok (.again s') → r'.source.remaining < r.source.remaining

/-- **The equation of a loop that progresses has one solution.** -/
theorem eq_iterate {turn : σ → Production (Turn σ α)} (hturn : Progresses turn)
    {f : σ → Production α}
    (hf : ∀ s, f s = do
      match ← turn s with
      | .again s => f s
      | .leave a => return a) : f = iterate turn := by
  funext s r
  -- where there is another turn it begins with fewer tokens, and there the two agree
  induction hn : r.source.remaining using Nat.strongRecOn generalizing s r with
  | ind n ih =>
    subst hn
    rw [hf, iterate.eq_1]
    obtain ⟨x, r', h, hlt⟩ := hturn s r
    cases x with
    | error e => rw [bind_of_error h, bind_of_error h]
    | ok y =>
      rw [bind_of_ok h, bind_of_ok h]
      cases y with
      | again s' => exact ih _ (hlt s' rfl) s' r' rfl
      | leave a => rfl

/-- The production `p` is a loop: what `entry` reads is the state before the first turn.  And the
loop progresses. -/
structure IsLoop (p : Production α) (entry : Production σ) (turn : σ → Production (Turn σ α)) :
    Prop where
  eq : p = (do iterate turn (← entry))
  progresses : Progresses turn

/-- A production is a loop if what is left of it, from any state on, satisfies the equation. -/
theorem IsLoop.of_rest {p : Production α} {entry : Production σ}
    {turn : σ → Production (Turn σ α)} (hturn : Progresses turn) (rest : σ → Production α)
    (hrest : ∀ s, rest s = do
      match ← turn s with
      | .again s => rest s
      | .leave a => return a)
    (hp : p = (do rest (← entry))) : IsLoop p entry turn :=
  ⟨eq_iterate hturn hrest ▸ hp, hturn⟩

/-! ### Productions that end -/

/-- The production `p`, begun in the state `r`, ends, and if it succeeds then `post` holds of the
value and of the state behind it. -/
def Ends (p : Production α) (r : Reader) (post : α → Reader → Prop) : Prop :=
  ∃ x r', p r = some (x, r') ∧ ∀ a, x = .ok a → post a r'

theorem remaining_eq (r : Reader) : r.source.remaining = r.unread.length :=
  List.length_drop.symm

theorem progresses_of_ends {turn : σ → Production (Turn σ α)}
    (h : ∀ s r, Ends (turn s) r fun x r' =>
      ∀ s', x = .again s' → r'.unread.length < r.unread.length) : Progresses turn := by
  intro s r
  obtain ⟨x, r', hr, hpost⟩ := h s r
  refine ⟨x, r', hr, fun s' hx => ?_⟩
  rw [remaining_eq, remaining_eq]
  exact hpost _ hx s' rfl

namespace Ends

variable {p : Production α} {k : α → Production β} {post : α → Reader → Prop}
  {post' : β → Reader → Prop}

theorem pure {a : α} (h : post a r) : Ends (Pure.pure a : Production α) r post := by
  refine ⟨.ok a, r, rfl, fun b hb => ?_⟩
  cases hb
  exact h

theorem bind (hp : Ends p r post) (hk : ∀ a r', post a r' → Ends (k a) r' post') :
    Ends (p >>= k) r post' := by
  obtain ⟨x, r', h, hpost⟩ := hp
  cases x with
  | error e => exact ⟨.error e, r', bind_of_error h, fun b hb => by cases hb⟩
  | ok a =>
    obtain ⟨y, r'', h', hpost'⟩ := hk a r' (hpost a rfl)
    exact ⟨y, r'', (bind_of_ok h).trans h', hpost'⟩

theorem step {a : α} (hp : p r = some (.ok a, r')) (hk : Ends (k a) r' post') :
    Ends (p >>= k) r post' := by
  rw [Ends, bind_of_ok hp]
  exact hk

theorem peek {k : Option Token → Production β} (h : Ends (k r.unread.head?) r post') :
    Ends (Reader.peek >>= k) r post' :=
  step (peek_apply r) h

theorem nextIs {kind : Lexeme → Bool} {k : Bool → Production β}
    (h : Ends (k (r.unread.head?.any fun t => kind t.lexeme)) r post') :
    Ends (Reader.nextIs kind >>= k) r post' := by
  have hnext : Reader.nextIs kind r =
      some (.ok (r.unread.head?.any fun t => kind t.lexeme), r) := by
    unfold Reader.nextIs
    rw [bind_of_ok (peek_apply r)]
    rfl
  exact step hnext h

theorem of_error {e : ParseError} (h : p r = some (.error e, r')) : Ends p r post :=
  ⟨_, r', h, fun a ha => by cases ha⟩

end Ends

/-- What follows a production that is read ends, wherever the grammar says that it may begin. -/
theorem Does.ends {p : Production α} {x : Trace α} (h : Does p r x) (post : α → Reader → Prop)
    (hpost : ∀ a r', x.result = .ok (a, r'.unread) → post a r') : Ends p r post := by
  obtain ⟨r', -, h⟩ := h
  cases hx : x.result with
  | error e =>
    rw [hx] at h
    exact .of_error h
  | ok y =>
    obtain ⟨a, rest⟩ := y
    rw [hx] at h
    refine ⟨_, r', h.1, fun b hb => hpost b r' ?_⟩
    cases hb
    rw [hx, h.2]

theorem Reads.ends {p : Production α} {g : Except Failure (α × List Token)} (h : Reads p r g)
    (post : α → Reader → Prop) (hpost : ∀ a r', g = .ok (a, r'.unread) → post a r') :
    Ends p r post :=
  h.does.ends post hpost

theorem Passes.ends {p : Production Unit} {g : Except Failure (List Token)} (h : Passes p r g)
    (post : Unit → Reader → Prop) (hpost : ∀ r', g = .ok r'.unread → post () r') :
    Ends p r post := by
  refine Reads.ends h post fun _ r' hr => hpost r' ?_
  obtain ⟨rest, hg, heq⟩ := Grammar.map_eq_ok hr
  rw [hg]
  exact congrArg Except.ok (Prod.mk.inj heq).2

/-- **After an attempt there is what the grammar says, or what there was before.** -/
theorem Does.ends_tried {p : Production α} {x : Trace α} (h : Does p r x) :
    Ends (outcome (attempt p)) r fun y r' => match y with
      | .ok a => x.result = .ok (a, r'.unread)
      | .error _ => r'.unread = r.unread := by
  refine h.tried.ends _ fun y r' hy => ?_
  rw [Trace.tried] at hy
  cases hx : x.result with
  | error e =>
    rw [hx] at hy
    obtain ⟨rfl, hu⟩ := Prod.mk.inj (Except.ok.inj hy)
    exact hu.symm
  | ok z =>
    rw [hx] at hy
    obtain ⟨rfl, hu⟩ := Prod.mk.inj (Except.ok.inj hy)
    exact congrArg Except.ok (Prod.ext rfl hu)

theorem Ends.bump {t : Token} {rest : List Token} {k : Option Token → Production β}
    {post' : β → Reader → Prop} (hu : r.unread = t :: rest)
    (hk : ∀ r', r'.unread = rest → Ends (k (some t)) r' post') :
    Ends (Reader.bump >>= k) r post' := by
  obtain ⟨r', -, h, hu'⟩ := reads_bump r
  rw [hu] at h hu'
  exact step h (hk r' hu')

theorem Ends.skipTrivia {k : Bool → Production β} {post' : β → Reader → Prop}
    (hk : ∀ r', r'.unread = Grammar.skipTrivia r.unread →
      Ends (k (Grammar.spaced r.unread)) r' post') : Ends (Reader.skipTrivia >>= k) r post' := by
  obtain ⟨r', -, h, hu⟩ := reads_skipTrivia r
  exact step h (hk r' hu)

end Reader

end Css2
