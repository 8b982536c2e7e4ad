import Css2.Parser
import Css2.Proofs.Reader.Reads

/-!
# What readers leave behind

A production of a statement does more than move along the stream: it reports events, notes what it
skips and says what it is at.  A `Trace` holds all of that together with the result.  Traces are put
in a row by `Trace.bind`, where what was done before a failure stays done, and `Does p r x` says
that the production `p`, begun in the state `r`, leaves `x` behind and has changed nothing else.

`Does.tried` is the way back after a failure: what was reported and noted stays, the place in the
stream does not.  `Does.nested` is the step into a pair of brackets: the count of open brackets is
what it was before, on every path.
-/

namespace Css2

/-! ### Traces -/

/-- What a production leaves behind, whether it succeeds or not. -/
@[ext] structure Trace (α : Type) where
  /-- The value and the tokens that are left. -/
  result : Except Failure (α × List Token)
  /-- What was reported. -/
  events : List Event := []
  /-- The failures of the parts that were skipped. -/
  skipped : List Failure := []
  /-- What the reader was doing last, if that changed. -/
  activity : Option Activity := none

namespace Trace

variable {α β : Type}

/-- A trace behind another one, which ended in a value. -/
def after (y : Trace β) (x : Trace α) : Trace β :=
  { y with
    events := x.events ++ y.events
    skipped := x.skipped ++ y.skipped
    activity := y.activity.or x.activity }

def bind (x : Trace α) (f : α → List Token → Trace β) : Trace β :=
  match x.result with
  | .error e => { x with result := .error e }
  | .ok (a, rest) => (f a rest).after x

theorem bind_error {x : Trace α} {e : Failure} (h : x.result = .error e)
    (f : α → List Token → Trace β) : x.bind f = { x with result := .error e } := by
  rw [bind, h]

theorem bind_ok {x : Trace α} {a : α} {rest : List Token} (h : x.result = .ok (a, rest))
    (f : α → List Token → Trace β) : x.bind f = (f a rest).after x := by
  rw [bind, h]

theorem after_result (y : Trace β) (g : Except Failure (α × List Token)) :
    y.after { result := g } = y := by
  simp [after]

/-- The trace of a production that goes back to the tokens `ts` when it fails.  The failure is noted
and is the value then. -/
def tried (x : Trace α) (stop : Location) (ts : List Token) : Trace (Except ParseError α) :=
  match x.result with
  | .error e =>
    { x with result := .ok (.error (e.toError stop), ts), skipped := x.skipped ++ [e] }
  | .ok (a, rest) => { x with result := .ok (.ok a, rest) }

end Trace

def Attempt.trace (a : Attempt) : Trace Unit :=
  { result := a.result.map fun rest => ((), rest)
    events := a.events
    skipped := a.skipped
    activity := a.activity }

/-- The trace of a reading that skips what is malformed and reports `events`. -/
def Lenient.trace {α : Type} (l : Lenient α) (events : List Event) : Trace α :=
  { result := .ok (l.value, l.rest), events, skipped := l.skipped }

namespace Reader

variable {α β : Type} {r r' : Reader}

/-! ### What a production does -/

/-- The reader with the events, the notes and the activity of a trace. -/
def marked (r : Reader) (x : Trace α) : Reader :=
  { r with
    events := r.events ++ x.events
    diagnostics := r.diagnostics ++ x.skipped.map (Parser.note r.stop)
    activity := x.activity.getD r.activity }

/-- The production `p`, begun in the state `r`, leaves `x` behind, and changes nothing else. -/
def Does (p : Production α) (r : Reader) (x : Trace α) : Prop :=
  ∃ r', Moved (r.marked x) r' ∧ match x.result with
    | .ok (a, rest) => p r = some (.ok a, r') ∧ r'.unread = rest
    | .error e => p r = some (.error (e.toError r.stop), r')

theorem Does.congr {p : Production α} {x y : Trace α} (h : Does p r x) (hxy : x = y) :
    Does p r y :=
  hxy ▸ h

theorem marked_result (g : Except Failure (α × List Token)) : r.marked { result := g } = r := by
  simp [marked]

theorem Moved.marked (h : Moved r r') (x : Trace α) : Moved (r.marked x) (r'.marked x) := by
  have hmarked : r'.rewound.marked x = r.rewound.marked x :=
    congrArg (Reader.marked · x) h.rewound_eq
  exact { le := h.le, le_max := h.le_max, rewound_eq := hmarked, bounded := h.bounded }

theorem marked_after (x : Trace α) (y : Trace β) :
    (r.marked x).marked y = r.marked (y.after x) := by
  cases hact : y.activity <;> simp [marked, Trace.after, hact, stop]

theorem Reads.does {p : Production α} {g : Except Failure (α × List Token)} (h : Reads p r g) :
    Does p r { result := g } := by
  rw [Does, marked_result]
  exact h

theorem Does.reads {p : Production α} {g : Except Failure (α × List Token)}
    (h : Does p r { result := g }) : Reads p r g := by
  rw [Does, marked_result] at h
  exact h

theorem Does.seq {p : Production α} {k : α → Production β} {x : Trace α} {y : Trace β} {a : α}
    {rest : List Token} (hp : Does p r x) (hx : x.result = .ok (a, rest))
    (hk : ∀ r', r'.nesting = r.nesting → r'.stop = r.stop → r'.unread = rest → Does (k a) r' y) :
    Does (p >>= k) r (y.after x) := by
  obtain ⟨r₁, hm₁, h₁⟩ := hp
  rw [hx] at h₁
  obtain ⟨r₂, hm₂, h₂⟩ := hk r₁ hm₁.nesting_eq hm₁.stop_eq h₁.2
  have hmoved := (hm₁.marked y).trans hm₂
  rw [marked_after] at hmoved
  rw [hm₁.stop_eq] at h₂
  refine ⟨r₂, hmoved, ?_⟩
  rw [bind_of_ok h₁.1]
  exact h₂

theorem Does.fail {p : Production α} {k : α → Production β} {x : Trace α} {e : Failure}
    (hp : Does p r x) (hx : x.result = .error e) :
    Does (p >>= k) r { x with result := .error e } := by
  obtain ⟨r₁, hm₁, h₁⟩ := hp
  rw [hx] at h₁
  exact ⟨r₁, hm₁, bind_of_error h₁⟩

/-- **Productions in a row leave behind what their traces in a row are.** -/
theorem Does.bind {p : Production α} {k : α → Production β} {x : Trace α}
    {f : α → List Token → Trace β} (hp : Does p r x)
    (hk : ∀ a r', r'.nesting = r.nesting → r'.stop = r.stop → x.result = .ok (a, r'.unread) →
      Does (k a) r' (f a r'.unread)) : Does (p >>= k) r (x.bind f) := by
  cases hx : x.result with
  | error e =>
    rw [Trace.bind_error hx]
    exact hp.fail hx
  | ok y =>
    obtain ⟨a, rest⟩ := y
    rw [Trace.bind_ok hx]
    refine hp.seq hx fun r' hn hs hu => ?_
    subst hu
    exact hk a r' hn hs hx

theorem Does.step {p : Production α} {k : α → Production β} {a : α} {rest : List Token}
    {x : Trace β} (hp : Reads p r (.ok (a, rest)))
    (hk : ∀ r', r'.nesting = r.nesting → r'.stop = r.stop → r'.unread = rest → Does (k a) r' x) :
    Does (p >>= k) r x := by
  have h := hp.does.seq rfl hk
  rwa [Trace.after_result] at h

theorem Does.skipTrivia {k : Bool → Production β} {x : Trace β}
    (hk : ∀ r', r'.nesting = r.nesting → r'.stop = r.stop →
      r'.unread = Grammar.skipTrivia r.unread → Does (k (Grammar.spaced r.unread)) r' x) :
    Does (Reader.skipTrivia >>= k) r x :=
  .step (reads_skipTrivia r) hk

theorem Does.peek {k : Option Token → Production β} {x : Trace β}
    (h : Does (k r.unread.head?) r x) : Does (Reader.peek >>= k) r x := by
  obtain ⟨r', hm, h⟩ := h
  refine ⟨r', hm, ?_⟩
  rw [bind_of_ok (peek_apply r)]
  exact h

theorem Does.bump {t : Token} {rest : List Token} {k : Option Token → Production β} {x : Trace β}
    (hu : r.unread = t :: rest)
    (hk : ∀ r', r'.nesting = r.nesting → r'.stop = r.stop → r'.unread = rest →
      Does (k (some t)) r' x) : Does (Reader.bump >>= k) r x := by
  have h := reads_bump r
  rw [hu] at h
  exact .step h hk

/-! ### Single steps -/

theorem does_emit (e : Event) (r : Reader) :
    Does (emit e) r { result := .ok ((), r.unread), events := [e] } :=
  ⟨{ r with events := r.events ++ [e] }, ⟨.of_eq rfl, by simp [marked], id⟩, rfl, rfl⟩

theorem does_become (a : Activity) (r : Reader) :
    Does (become a) r { result := .ok ((), r.unread), activity := some a } :=
  ⟨{ r with activity := a }, ⟨.of_eq rfl, by simp [marked], id⟩, rfl, rfl⟩

/-! ### Going back -/

theorem outcome_apply (p : Production α) (r : Reader) :
    outcome p r = (p r).map fun (x, r') => (.ok x, r') := by
  show (p r).bind _ = _
  cases p r <;> rfl

theorem outcome_of_eq {p : Production α} {x : Except ParseError α} (h : p r = some (x, r')) :
    outcome p r = some (.ok x, r') := by
  rw [outcome_apply, h]
  rfl

theorem of_outcome {p : Production α} {x : Except ParseError α}
    (h : outcome p r = some (.ok x, r')) : p r = some (x, r') := by
  rw [outcome_apply] at h
  cases hp : p r with
  | none =>
    rw [hp] at h
    cases h
  | some y =>
    rw [hp] at h
    cases h
    rfl

theorem get_apply (r : Reader) : (get : Production Reader) r = some (.ok r, r) :=
  rfl

theorem attempt_of_ok {p : Production α} {a : α} (h : p r = some (.ok a, r')) :
    attempt p r = some (.ok a, r') := by
  unfold attempt
  rw [bind_of_ok (get_apply r)]
  dsimp only
  rw [bind_of_ok (outcome_of_eq h)]
  rfl

theorem attempt_of_error {p : Production α} {e : ParseError} (h : p r = some (.error e, r')) :
    attempt p r = some (.error e, { r' with
      source := r'.source.restore r.source.mark
      diagnostics := r'.diagnostics ++ [Diagnostic.ofError r.source.mark.loc e] }) := by
  unfold attempt
  rw [bind_of_ok (get_apply r)]
  dsimp only
  rw [bind_of_ok (outcome_of_eq h)]
  rfl

def noted (r : Reader) (d : Diagnostic) : Reader :=
  { r with diagnostics := r.diagnostics ++ [d] }

/-- **An attempt that fails leaves the reader at the tokens where it began**, with what was reported
on the way and a note of the failure. -/
theorem Does.tried {p : Production α} {x : Trace α} (hp : Does p r x) :
    Does (outcome (attempt p)) r (x.tried r.stop r.unread) := by
  obtain ⟨r', hm, h⟩ := hp
  cases hx : x.result with
  | error e =>
    rw [hx] at h
    rw [Trace.tried, hx]
    refine ⟨_, ?_, outcome_of_eq (attempt_of_error h), TokenStream.unread_restore hm.source_eq⟩
    -- the note is added behind those of the parts that were skipped on the way
    have hnoted := congrArg (Reader.noted · (Parser.note r.stop e)) hm.rewound_eq
    refine { le := hm.le, le_max := hm.le_max, rewound_eq := Eq.trans hnoted ?_
             bounded := fun _ => r'.source.bounded_restore _ }
    simp [noted, marked, rewound]
  | ok y =>
    obtain ⟨a, rest⟩ := y
    rw [hx] at h
    rw [Trace.tried, hx]
    exact ⟨r', hm, outcome_of_eq (attempt_of_ok h.1), h.2⟩

/-! ### Brackets -/

def deeper (r : Reader) : Reader :=
  r.atDepth (r.depth + 1)

def higher (r : Reader) : Reader :=
  r.atDepth (r.depth - 1)

/-- Inside of brackets a reader is no deeper than the limit, if there is room for them. -/
theorem Moved.higher (hd : r.depth < r.options.maxNesting) (h : Moved r.deeper r') :
    Moved r r'.higher := by
  have hdepth : r'.depth = r.depth + 1 := congrArg depth h.rewound_eq
  have hrewound : r'.higher.rewound = r.rewound :=
    congrArg (fun s => { s.higher with deepest := 0 }) h.rewound_eq
  have hle : max r.deepest (r.depth + 1) ≤ r'.deepest := h.le
  have hle_max : r'.deepest ≤ max (max r.deepest (r.depth + 1)) r.options.maxNesting :=
    h.le_max
  refine ⟨⟨?_, ?_⟩, hrewound, h.bounded⟩
  · show r.deepest ≤ max r'.deepest (r'.depth - 1)
    omega
  · show max r'.deepest (r'.depth - 1) ≤ max r.deepest r.options.maxNesting
    omega

theorem nested_of_le (p : Production α) (h : r.options.maxNesting ≤ r.depth) :
    nested p r = some (.error (.failed (.tooDeep r.options.maxNesting) r.source.location), r) := by
  show (if _ then _ else _ : StateT Reader Option (Except ParseError α)) r = _
  rw [if_pos h]
  rfl

theorem nested_of_lt {p : Production α} {x : Except ParseError α}
    (h : r.depth < r.options.maxNesting) (hp : p r.deeper = some (x, r')) :
    nested p r = some (x, r'.higher) := by
  show (if _ then _ else _ : StateT Reader Option (Except ParseError α)) r = _
  rw [if_neg (Nat.not_le.2 h)]
  show (p r.deeper).bind _ = _
  rw [hp]
  rfl

/-- **Brackets leave the count of open brackets as it was**, also around what reports events. -/
theorem Does.nested {p : Production α} {x : Nesting → Trace α}
    (hp : Does p r.deeper (x r.deeper.nesting)) :
    Does (Reader.nested p) r (match r.nesting.enter r.unread with
      | .error e => { result := .error e }
      | .ok deeper => x deeper) := by
  unfold Nesting.enter
  by_cases hd : r.options.maxNesting ≤ r.depth
  · rw [if_pos (show r.nesting.limit ≤ r.nesting.depth from hd)]
    refine ⟨r, by rw [marked_result]; exact .refl r, ?_⟩
    rw [nested_of_le p hd, r.source.location_eq]
    rfl
  · rw [if_neg (show ¬ r.nesting.limit ≤ r.nesting.depth from hd)]
    show Does (Reader.nested p) r (x r.deeper.nesting)
    obtain ⟨r', hm, h⟩ := hp
    refine ⟨r'.higher, Moved.higher (r := r.marked (x r.deeper.nesting)) (Nat.lt_of_not_le hd) hm,
      ?_⟩
    cases hx : (x r.deeper.nesting).result with
    | error e =>
      rw [hx] at h
      exact nested_of_lt (Nat.lt_of_not_le hd) h
    | ok y =>
      rw [hx] at h
      exact ⟨nested_of_lt (Nat.lt_of_not_le hd) h.1, h.2⟩

theorem Reads.nested {p : Production α} {g : Nesting → Except Failure (α × List Token)}
    (hp : Reads p r.deeper (g r.deeper.nesting)) :
    Reads (Reader.nested p) r (r.nesting.enter r.unread >>= g) := by
  refine Does.reads ?_
  have hnested := Does.nested (x := fun n => { result := g n }) hp.does
  unfold Nesting.enter at hnested ⊢
  split
  · next h =>
    rw [if_pos h] at hnested
    exact hnested
  · next h =>
    rw [if_neg h] at hnested
    exact hnested

end Reader

end Css2
