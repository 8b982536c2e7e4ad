import Css2.Token.Stream
import Mathlib.Data.List.DropRight

/-!
# Pushing back a token

A stream keeps a cursor and a flag.  Neither is the token that was read last, so which token may be
pushed back is said here of the history of a stream: the slot is filled by a read and used up by
pushing back.  What is left is what going back to a mark does to it.

By the rule, only a read fills the slot (`TokenStream.justRead`).  Going back to a mark does so too:
the slot then holds the token in front of the mark, whether it was read last, or ever, and even if a
token was pushed back before (`TokenStream.Slot.before`).  So the rule fails behind a mark
(`TokenStream.not_pushBack_justRead`), and it holds once a token has been read from there
(`TokenStream.pushBack_after`).
-/

namespace Css2

namespace TokenStream

/-! ### The history of a stream -/

inductive Action where
  | next
  | peek
  | pushBack (t : Token)
  | mark
  | restore (m : Mark)

inductive Happening where
  | next (answer : Option Token)
  | peek (answer : Option Token)
  | pushBack (t : Token) (answer : Except Refusal Unit)
  | mark (answer : Mark)
  | restore (m : Mark)

/-- Does what is asked for.  A stream that refuses a token stays as it is. -/
def act (s : TokenStream) : Action → Happening × TokenStream
  | .next => (.next s.next.1, s.next.2)
  | .peek => (.peek s.peek, s)
  | .pushBack t =>
    match s.pushBack t with
    | .ok s' => (.pushBack t (.ok ()), s')
    | .error why => (.pushBack t (.error why), s)
  | .mark => (.mark s.mark, s)
  | .restore m => (.restore m, s.restore m)

def after (s : TokenStream) (as : List Action) : TokenStream :=
  as.foldl (fun s a => (s.act a).2) s

def history (s : TokenStream) : List Action → List Happening
  | [] => []
  | a :: as => (s.act a).1 :: (s.act a).2.history as

/-! ### The slot -/

/-- What is known of the token that may be pushed back. -/
inductive Slot where
  /-- There is no token that was just read. -/
  | empty
  | holds (t : Token)
  /-- The token that was just read has been pushed back. -/
  | used

namespace Slot

/-- Whether a token may be pushed back, and why not. -/
def answer (t : Token) : Slot → Except Refusal Unit
  | empty => .error .notJustRead
  | holds u => if u == t then .ok () else .error .notJustRead
  | used => .error .alreadyPushedBack

def ofToken? : Option Token → Slot
  | none => empty
  | some t => holds t

/-- The slot behind a mark: it holds the token in front of the mark. -/
def before (tokens : List Token) (m : Mark) : Slot :=
  ofToken? (tokens.take m.index).getLast?

/-- The slot after something happened, where `back` is the one behind a mark. -/
def update (back : Mark → Slot → Slot) (slot : Slot) : Happening → Slot
  | .next (some t) => holds t
  | .pushBack _ (.ok ()) => used
  | .restore m => back m slot
  | _ => slot

end Slot

/-- **The rule**: a read fills the slot, pushing back uses it up, and nothing else changes it. -/
def justRead (hs : List Happening) : Slot :=
  hs.foldl (Slot.update fun _ slot => slot) .empty

/-- The slot in a stream of the given tokens, where going back to a mark fills it as well. -/
def slotAfter (tokens : List Token) (hs : List Happening) : Slot :=
  hs.foldl (Slot.update fun m _ => .before tokens m) .empty

def Happening.isRead : Happening → Bool
  | .next (some _) => true
  | _ => false

def sinceRead (hs : List Happening) : List Happening :=
  hs.rtakeWhile fun h => !h.isRead

/-! ### The slot of a stream -/

def slot (s : TokenStream) : Slot :=
  if s.pushedBack then .used else .ofToken? s.lastRead

theorem answer_slot (s : TokenStream) (t : Token) :
    s.slot.answer t = (s.pushBack t).map fun _ => () := by
  rw [slot, pushBack]
  cases s.pushedBack with
  | true => rfl
  | false =>
    cases s.lastRead with
    | none => rfl
    | some u =>
      show (if u == t then _ else _) = Except.map _ (if u == t then _ else _)
      split_ifs <;> rfl

theorem peek_of_pushBack {s s' : TokenStream} {t : Token} (h : s.pushBack t = .ok s') :
    s'.peek == some t := by
  rw [pushBack] at h
  split_ifs at h with hback hread
  cases h
  show s.tokens[s.cursor - 1]? == some t
  rw [lastRead] at hread
  cases hcursor : s.cursor with
  | zero => rw [hcursor] at hread; cases hread
  | succ n => rwa [hcursor] at hread

theorem lastRead_eq_getLast? {s : TokenStream} (h : s.cursor ≤ s.tokens.length) :
    s.lastRead = (s.tokens.take s.cursor).getLast? := by
  rw [List.getLast?_take, lastRead]
  cases hcursor : s.cursor with
  | zero => rfl
  | succ n =>
    have hn : n < s.tokens.length := by omega
    simp [List.getElem?_eq_getElem hn]

theorem lastRead_restore (s : TokenStream) (m : Mark) :
    (s.restore m).lastRead = (s.tokens.take m.index).getLast? := by
  rw [lastRead_eq_getLast? (Nat.min_le_right ..)]
  exact congrArg List.getLast? List.take_eq_take_min.symm

theorem tokens_act (s : TokenStream) (a : Action) : (s.act a).2.tokens = s.tokens := by
  cases a with
  | next =>
    rw [act, next]
    cases s.peek <;> rfl
  | pushBack t =>
    rw [act, pushBack]
    split_ifs <;> rfl
  | _ => rfl

/-- **What one action does to the slot** can be told from its answer. -/
theorem slot_act (s : TokenStream) (a : Action) :
    (s.act a).2.slot = s.slot.update (fun m _ => .before s.tokens m) (s.act a).1 := by
  cases a with
  | next =>
    rw [act, next]
    cases hpeek : s.peek with
    | none => rfl
    | some t => exact congrArg Slot.ofToken? hpeek
  | pushBack t =>
    rw [act, pushBack]
    split_ifs <;> rfl
  | restore m => exact congrArg Slot.ofToken? (s.lastRead_restore m)
  | _ => rfl

/-- **What a run does to the slot**: that is told from the history, by induction on the actions. -/
theorem slot_after (s : TokenStream) (as : List Action) :
    (s.after as).slot =
      (s.history as).foldl (Slot.update fun m _ => .before s.tokens m) s.slot := by
  induction as generalizing s with
  | nil => rfl
  | cons a as ih =>
    -- the tokens stay, so a mark fills the slot in the same way all along
    rw [history, List.foldl_cons, ← slot_act, ← s.tokens_act a]
    exact ih _

/-! ### The rule -/

theorem Slot.update_of_isRead {h : Happening} (hread : h.isRead = true)
    (back back' : Mark → Slot → Slot) (slot slot' : Slot) :
    slot.update back h = slot'.update back' h := by
  cases h with
  | next t =>
    cases t with
    | none => cases hread
    | some t => rfl
  | _ => cases hread

theorem Slot.update_congr {h : Happening} (hmark : ∀ m, h ≠ .restore m)
    (back back' : Mark → Slot → Slot) (slot : Slot) :
    slot.update back h = slot.update back' h := by
  cases h with
  | restore m => exact absurd rfl (hmark m)
  | next t => cases t <;> rfl
  | pushBack t answer => cases answer <;> rfl
  | _ => rfl

/-- Once a token has been read, the rule holds until the stream goes back to a mark. -/
theorem foldl_update_eq_justRead (back : Mark → Slot → Slot) {hs : List Happening}
    (h : ∀ m, .restore m ∉ sinceRead hs) : hs.foldl (Slot.update back) .empty = justRead hs := by
  induction hs using List.reverseRecOn with
  | nil => rfl
  | append_singleton hs x ih =>
    rw [justRead, List.foldl_concat, List.foldl_concat]
    cases hread : x.isRead with
    | true => exact Slot.update_of_isRead hread ..
    | false =>
      rw [sinceRead, List.rtakeWhile_concat_pos _ _ _ (by rw [hread]; rfl)] at h
      rw [ih fun m hm => h m (List.mem_append_left _ hm), justRead]
      refine Slot.update_congr (fun m hx => h m ?_) ..
      exact List.mem_append_right _ (List.mem_singleton.2 hx.symm)

/-- **Push-back has a single slot.**  After any actions on a stream, whether a token is pushed back,
and why it is refused, is told from the history: it is pushed back if it equals the token that was
read last, or else the one in front of the mark that the stream went back to since, and no token was
pushed back since then.  Where the stream did not go back to a mark since the last read, this is the
rule.  A token that is pushed back is the next one to be read. -/
theorem pushBack_after (tokens : List Token) (stop : Location) (as : List Action) (t : Token) :
    let s := (ofTokens tokens stop).after as
    let hs := (ofTokens tokens stop).history as
    ((s.pushBack t).map fun _ => ()) = (slotAfter tokens hs).answer t ∧
      ((∀ m, .restore m ∉ sinceRead hs) →
        ((s.pushBack t).map fun _ => ()) = (justRead hs).answer t) ∧
      ∀ s', s.pushBack t = .ok s' → s'.peek == some t := by
  intro s hs
  have hanswer : ((s.pushBack t).map fun _ => ()) = (slotAfter tokens hs).answer t := by
    rw [← answer_slot, slot_after]
    rfl
  refine ⟨hanswer, fun hread => ?_, fun s' => peek_of_pushBack⟩
  rw [hanswer, slotAfter, foldl_update_eq_justRead _ hread]

/-- In `a b`, the first name may be pushed back once it was read again behind a mark. -/
theorem pushBack_after_reread :
    let a : Token := ⟨.ident "a", ⟨1, 1, 0⟩⟩
    let as : List Action := [.next, .pushBack a, .restore ⟨0, ⟨1, 1, 0⟩⟩, .next]
    let s := (ofText "a b").after as
    (∀ m, .restore m ∉ sinceRead ((ofText "a b").history as)) ∧
      ((s.pushBack a).map fun _ => ()) = .ok () := by
  intro a as s
  have hscan : (ofText "a b").history as =
      [.next a, .pushBack a (.ok ()), .restore ⟨0, ⟨1, 1, 0⟩⟩, .next a] := by
    with_unfolding_all rfl
  have hread : ∀ m, .restore m ∉ sinceRead ((ofText "a b").history as) := by
    rw [hscan]
    exact nofun
  refine ⟨hread, ?_⟩
  refine ((pushBack_after (scan "a b") (endOf "a b") as a).2.1 hread).trans ?_
  show (justRead ((ofText "a b").history as)).answer a = _
  rw [hscan]
  with_unfolding_all rfl

/-- Behind a mark, the rule fails: in `a b`, the white space was read last and was pushed back, but
after the stream went back to where it is, the name in front of it may be pushed back too. -/
theorem not_pushBack_justRead :
    let a : Token := ⟨.ident "a", ⟨1, 1, 0⟩⟩
    let space : Token := ⟨.whitespace, ⟨1, 2, 1⟩⟩
    let m : TokenStream.Mark := ⟨1, ⟨1, 2, 1⟩⟩
    let as : List Action := [.next, .next, .pushBack space, .mark, .restore m]
    let s := (ofText "a b").after as
    let hs := (ofText "a b").history as
    hs = [.next a, .next space, .pushBack space (.ok ()), .mark m, .restore m] ∧
      justRead hs = .used ∧
      ((s.pushBack a).map fun _ => ()) = .ok () ∧
      ((s.pushBack a).map fun _ => ()) ≠ (justRead hs).answer a := by
  intro a space m as s hs
  have hhs : hs = [.next a, .next space, .pushBack space (.ok ()), .mark m, .restore m] := by
    with_unfolding_all rfl
  have hused : justRead hs = .used := by
    rw [hhs]
    rfl
  have hok : ((s.pushBack a).map fun _ => ()) = .ok () := by
    with_unfolding_all rfl
  refine ⟨hhs, hused, hok, ?_⟩
  rw [hok, hused]
  exact nofun

end TokenStream

end Css2
