import Css2.Proofs.Reader.Reads
import Css2.Proofs.Token.PushBack

/-!
# Reading again

Whoever goes back in a stream relies on it for the same tokens as before.  That holds after any
requests, with marks from anywhere and tokens pushed back in between
(`TokenStream.served_replays`).  A stream never changes its tokens but only its place in them
(`TokenStream.rewound_act`), and that place stays among them (`TokenStream.Bounded.act`).
-/

namespace Css2

namespace TokenStream

/-- What a stream may be asked for, or how many of its tokens are still to be read. -/
inductive Request where
  | act (a : Action)
  | remaining

/-- Whether a request neither reads a token nor goes back to a mark. -/
def Request.stays : Request → Bool
  | .act .next => false
  | .act (.restore _) => false
  | _ => true

def serve (s : TokenStream) : Request → TokenStream
  | .act a => (s.act a).2
  | .remaining => s

def served (s : TokenStream) (qs : List Request) : TokenStream :=
  qs.foldl serve s

/-! ### One request -/

variable {s s' : TokenStream}

theorem rewound_act (s : TokenStream) (a : Action) : (s.act a).2.rewound = s.rewound := by
  cases a with
  | next => exact s.rewound_next
  | pushBack t =>
    rw [act, pushBack]
    split_ifs <;> rfl
  | _ => rfl

theorem Bounded.act (h : s.Bounded) (a : Action) : (s.act a).2.Bounded := by
  cases a with
  | next => exact h.next
  | pushBack t =>
    rw [TokenStream.act, pushBack]
    split_ifs
    · exact h
    · exact Nat.le_trans (Nat.sub_le ..) h
    · exact h
  | restore m => exact s.bounded_restore m
  | _ => exact h

theorem act_of_refused {t : Token} {why : Refusal} (h : s.pushBack t = .error why) :
    (s.act (.pushBack t)).2 = s := by
  rw [act, h]

theorem serve_of_pushedBack (h : s.pushedBack = true) {q : Request} (hq : q.stays = true) :
    s.serve q = s := by
  cases q with
  | remaining => rfl
  | act a =>
    cases a with
    | next => cases hq
    | restore m => cases hq
    | pushBack t =>
      -- there is no place for a second token
      have hfull : s.pushBack t = .error .alreadyPushedBack := by
        rw [pushBack, if_pos h]
      exact act_of_refused hfull
    | _ => rfl

theorem pushedBack_of_pushBack {t : Token} (h : s.pushBack t = .ok s') : s'.pushedBack = true := by
  rw [pushBack] at h
  split_ifs at h
  cases h
  rfl

/-! ### Many requests -/

theorem rewound_served (s : TokenStream) (qs : List Request) :
    (s.served qs).rewound = s.rewound := by
  induction qs generalizing s with
  | nil => rfl
  | cons q qs ih =>
    refine (ih (s.serve q)).trans ?_
    cases q with
    | remaining => rfl
    | act a => exact s.rewound_act a

theorem tokens_served (s : TokenStream) (qs : List Request) : (s.served qs).tokens = s.tokens := by
  have htokens : (s.served qs).rewound.tokens = s.rewound.tokens :=
    congrArg tokens (s.rewound_served qs)
  exact htokens

/-- **The place of a stream stays among its tokens**, whatever marks it goes back to. -/
theorem Bounded.served (h : s.Bounded) (qs : List Request) : (s.served qs).Bounded := by
  induction qs generalizing s with
  | nil => exact h
  | cons q qs ih =>
    cases q with
    | remaining => exact ih h
    | act a => exact ih (h.act a)

theorem served_of_pushedBack (h : s.pushedBack = true) {qs : List Request}
    (hqs : ∀ q ∈ qs, q.stays = true) : s.served qs = s := by
  induction qs with
  | nil => rfl
  | cons q qs ih =>
    rw [served, List.foldl_cons, serve_of_pushedBack h (hqs q List.mem_cons_self)]
    exact ih fun q' hq' => hqs q' (List.mem_cons_of_mem q hq')

/-! ### Going back -/

theorem unread_restore_served (s : TokenStream) (qs : List Request) :
    ((s.served qs).restore s.mark).unread = s.unread :=
  unread_restore (s.rewound_served qs)

theorem location_restore_served (s : TokenStream) (qs : List Request) :
    ((s.served qs).restore s.mark).location = s.mark.loc := by
  have hstop : (s.served qs).rewound.stop = s.rewound.stop :=
    congrArg stop (s.rewound_served qs)
  rw [location_eq, unread_restore_served, show s.mark.loc = s.location from rfl, s.location_eq]
  exact congrArg _ hstop

/-- Reading gives the unread tokens one after another, and nothing behind the last of them. -/
theorem history_next (s : TokenStream) (n : Nat) :
    s.history (List.replicate n .next) = (List.range n).map fun i => .next s.unread[i]? := by
  induction n generalizing s with
  | zero => rfl
  | succ n ih =>
    have hhead : (s.act .next).1 = .next s.unread[0]? := by
      rw [act, next_fst, List.head?_eq_getElem?]
    have htail (i : Nat) : (s.act .next).2.unread[i]? = s.unread[i + 1]? := by
      rw [act, unread_next, List.getElem?_tail]
    rw [List.replicate_succ, history, ih, hhead, List.range_succ_eq_map, List.map_cons,
      List.map_map]
    simp only [htail]
    rfl

/-- **A stream can be relied on**, whatever was requested of it.  Its place is among its tokens, so
that the tokens read and those still to be read are all of them.  A token that is refused leaves
the stream as it is.  A token that is pushed back is the next one to be read, whatever else is asked
for until then, unless the stream goes back to a mark.  When the stream goes back to a mark that was
taken from it, after any requests, it is at the location of the mark, and what it reads from there
on are the tokens that were unread when the mark was taken. -/
theorem served_replays (tokens : List Token) (stop : Location) (qs : List Request) :
    let s := (ofTokens tokens stop).served qs
    (s.cursor ≤ tokens.length ∧ s.cursor + s.remaining = tokens.length) ∧
      (∀ t why, s.pushBack t = .error why → (s.act (.pushBack t)).2 = s) ∧
      (∀ t s', s.pushBack t = .ok s' → ∀ qs', (∀ q ∈ qs', q.stays = true) →
        ∃ u, (s'.served qs').next.1 = some u ∧ (u == t) = true) ∧
      ∀ qs', let s' := (s.served qs').restore s.mark
        s'.location = s.mark.loc ∧ s'.unread = s.unread ∧
          ∀ n, s'.history (List.replicate n .next) =
            (List.range n).map fun i => .next s.unread[i]? := by
  intro s
  have htokens : s.tokens = tokens := tokens_served _ qs
  have hbounded : s.Bounded :=
    Bounded.served (s := ofTokens tokens stop) (Nat.zero_le _) qs
  have hle : s.cursor ≤ tokens.length := htokens ▸ hbounded
  refine ⟨⟨hle, ?_⟩, fun t why => act_of_refused, ?_, fun qs' => ?_⟩
  · rw [remaining, htokens]
    exact Nat.add_sub_cancel' hle
  · intro t s' h qs' hqs'
    have hpeek := peek_of_pushBack h
    rw [served_of_pushedBack (pushedBack_of_pushBack h) hqs', next_fst, ← peek_eq]
    cases hu : s'.peek with
    | none =>
      rw [hu] at hpeek
      cases hpeek
    | some u =>
      rw [hu] at hpeek
      exact ⟨u, rfl, hpeek⟩
  · have hunread := s.unread_restore_served qs'
    refine ⟨s.location_restore_served qs', hunread, fun n => ?_⟩
    rw [history_next, hunread]

/-- In `a b`, the first name is read, behind a mark that leads past the end and one that leads back.
The other name is refused, the first one is pushed back, and another attempt to push it back does
not keep it from being read again. -/
theorem served_replays_two_names :
    let a : Token := ⟨.ident "a", ⟨1, 1, 0⟩⟩
    let b : Token := ⟨.ident "b", ⟨1, 3, 2⟩⟩
    let qs : List Request :=
      [.act (.restore ⟨9, ⟨1, 1, 0⟩⟩), .act (.restore ⟨0, ⟨1, 1, 0⟩⟩), .act .next]
    let qs' : List Request := [.remaining, .act (.pushBack a), .act .mark]
    let s := (ofText "a b").served qs
    let s' : TokenStream := { s with cursor := 0, pushedBack := true }
    s.pushBack b = .error .notJustRead ∧ (s.act (.pushBack b)).2 = s ∧
      s.pushBack a = .ok s' ∧ (∀ q ∈ qs', q.stays = true) ∧
      ∃ u, (s'.served qs').next.1 = some u ∧ (u == a) = true := by
  intro a b qs qs' s s'
  have hrefused : s.pushBack b = .error .notJustRead := by
    with_unfolding_all rfl
  have hpushed : s.pushBack a = .ok s' := by
    with_unfolding_all rfl
  have hqs' : ∀ q ∈ qs', q.stays = true := by
    decide
  obtain ⟨-, hsame, hwaits, -⟩ := served_replays (scan "a b") (endOf "a b") qs
  exact ⟨hrefused, hsame b _ hrefused, hpushed, hqs', hwaits a s' hpushed qs' hqs'⟩

end TokenStream

end Css2
