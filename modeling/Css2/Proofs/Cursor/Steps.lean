import Css2.Cursor.Basic
import Mathlib.Data.List.Basic

/-!
# Cursors and the characters in front of them

A function of `Scan` says of a list of characters what is made of its front and what is left.  A
cursor does the same by moving over a text: `Takes text p cs a rest` says that the step `p`, begun
before the characters `cs` of the text, ends with the value `a` before the characters `rest`.  Steps
in a row take what their parts take (`Takes.bind`), so that the proofs follow the steps one by one.

A step back needs to know what it steps over.  Both `cs` and `rest` end the text, so the character
behind the cursor is always there to go back to (`takes_reconsume`).
-/

namespace Css2

namespace Cursor

variable {text : Array Char} {α β : Type} {cs ds rest : List Char} {c : Char}

/-! ### Places -/

/-- The cursor before the characters `cs`, which end the text. -/
def facing (text : Array Char) (cs : List Char) : Cursor where
  text := text
  position := text.size - cs.length

theorem ofText_eq (s : String) : ofText s = facing s.toList.toArray s.toList := by
  simp [ofText, facing]

theorem exists_facing {s : Cursor} (h : s.position ≤ s.text.size) :
    ∃ cs, cs <:+ s.text.toList ∧ s = facing s.text cs := by
  refine ⟨s.text.toList.drop s.position, List.drop_suffix _ _, ?_⟩
  have hposition : s.text.size - (s.text.size - s.position) = s.position := by omega
  simp [facing, hposition]

theorem size_eq (h : ds ++ cs = text.toList) : text.size = ds.length + cs.length := by
  rw [← Array.length_toList, ← h, List.length_append]

theorem length_le_of_suffix (h : cs <:+ text.toList) : cs.length ≤ text.size := by
  rw [← Array.length_toList]
  exact h.length_le

theorem suffix_of_cons (h : c :: cs <:+ text.toList) : cs <:+ text.toList :=
  (List.suffix_cons c cs).trans h

theorem getElem?_facing (h : cs <:+ text.toList) (n : Nat) :
    text[(facing text cs).position + n]? = cs[n]? := by
  obtain ⟨ds, hds⟩ := h
  have hsize := size_eq hds
  have hposition : (facing text cs).position = ds.length := by
    show text.size - cs.length = ds.length
    omega
  rw [← Array.getElem?_toList, ← hds, hposition, List.getElem?_append_right (by omega)]
  congr 1
  omega

/-! ### What a step takes -/

/-- The step `p`, begun before the characters `cs`, gives `a` and ends before `rest`, which is
part of the text. -/
structure Takes (text : Array Char) (p : Scanner α) (cs : List Char) (a : α) (rest : List Char) :
    Prop where
  run : p (facing text cs) = some (a, facing text rest)
  within : rest <:+ text.toList

theorem bind_apply {p : Scanner α} {k : α → Scanner β} {s s' : Cursor} {a : α}
    (h : p s = some (a, s')) : (p >>= k) s = k a s' := by
  show (p s).bind _ = _
  rw [h]
  rfl

theorem Takes.pure (h : cs <:+ text.toList) (a : α) :
    Takes text (Pure.pure a : Scanner α) cs a cs :=
  ⟨rfl, h⟩

/-- **Steps in a row take what their parts take.** -/
theorem Takes.bind {p : Scanner α} {k : α → Scanner β} {a : α} {b : β} (hp : Takes text p cs a ds)
    (hk : Takes text (k a) ds b rest) : Takes text (p >>= k) cs b rest :=
  ⟨(bind_apply hp.run).trans hk.run, hk.within⟩

theorem takes_peekAt (h : cs <:+ text.toList) (n : Nat) :
    Takes text (peekAt n) cs cs[n]? cs := by
  refine ⟨?_, h⟩
  rw [← getElem?_facing h n]
  rfl

theorem takes_peek (h : cs <:+ text.toList) : Takes text peek cs cs.head? cs := by
  rw [List.head?_eq_getElem?]
  exact takes_peekAt h 0

theorem consume_apply (s : Cursor) (h : s.text[s.position]? = some c) :
    consume s = some (some c, { s with position := s.position + 1 }) := by
  have hget : (get : Scanner Cursor) s = some (s, s) := rfl
  rw [consume]
  refine (bind_apply hget).trans ?_
  rw [h]
  rfl

theorem consume_apply_end (s : Cursor) (h : s.text[s.position]? = none) :
    consume s = some (none, s) := by
  have hget : (get : Scanner Cursor) s = some (s, s) := rfl
  rw [consume]
  refine (bind_apply hget).trans ?_
  rw [h]
  rfl

theorem takes_consume (h : c :: cs <:+ text.toList) :
    Takes text consume (c :: cs) (some c) cs := by
  refine ⟨?_, suffix_of_cons h⟩
  have hget : text[(facing text (c :: cs)).position]? = some c := getElem?_facing h 0
  have hnext : (facing text (c :: cs)).position + 1 = text.size - cs.length := by
    have hle := length_le_of_suffix h
    simp only [facing, List.length_cons] at hle ⊢
    omega
  rw [consume_apply _ hget, hnext]
  rfl

theorem takes_consume_nil : Takes text consume [] none [] := by
  refine ⟨?_, List.nil_suffix⟩
  have hget : text[(facing text []).position]? = none := getElem?_facing List.nil_suffix 0
  exact consume_apply_end _ hget

/-- **A step back** is over the last character that was taken. -/
theorem takes_reconsume (h : c :: cs <:+ text.toList) :
    Takes text reconsume cs () (c :: cs) := by
  refine ⟨?_, h⟩
  show some ((), (⟨text, text.size - cs.length - 1⟩ : Cursor)) = _
  rw [facing, List.length_cons, Nat.sub_sub]

/-- A cursor that goes back to where it was faces the same characters again. -/
theorem takes_moveTo (h : cs <:+ text.toList) (ds : List Char) :
    Takes text (moveTo (facing text cs).position) ds () cs :=
  ⟨rfl, h⟩

/-! ### Several characters -/

theorem takes_one (h : c :: cs <:+ text.toList) : Takes text one (c :: cs) [c] cs :=
  (takes_consume h).bind (.pure (suffix_of_cons h) _)

theorem takes_skipBlanks (h : cs <:+ text.toList) :
    Takes text skipBlanks cs () (cs.dropWhile isBlank) := by
  induction cs with
  | nil =>
    rw [skipBlanks]
    exact (takes_peek h).bind (.pure h ())
  | cons c cs ih =>
    rw [skipBlanks]
    refine (takes_peek h).bind ?_
    rw [List.head?_cons, Option.any_some]
    by_cases hc : isBlank c = true
    · rw [if_pos hc, List.dropWhile_cons_of_pos hc]
      exact (takes_consume h).bind (ih (suffix_of_cons h))
    · rw [if_neg hc, List.dropWhile_cons_of_neg hc]
      exact .pure h ()

theorem takes_digits (h : cs <:+ text.toList) :
    Takes text digits cs (cs.takeWhile Char.isDigit) (cs.dropWhile Char.isDigit) := by
  induction cs with
  | nil =>
    rw [digits]
    exact (takes_peek h).bind (.pure h [])
  | cons c cs ih =>
    rw [digits]
    refine (takes_peek h).bind ?_
    rw [List.head?_cons, Option.any_some]
    by_cases hc : c.isDigit = true
    · have hmore := ih (suffix_of_cons h)
      rw [if_pos hc, List.takeWhile_cons_of_pos hc, List.dropWhile_cons_of_pos hc]
      refine (takes_one h).bind ?_
      exact hmore.bind (.pure hmore.within _)
    · rw [if_neg hc, List.takeWhile_cons_of_neg hc, List.dropWhile_cons_of_neg hc]
      exact .pure h []

theorem takes_blanksAhead_from (front : List Char) {back : List Char}
    (h : front ++ back <:+ text.toList) :
    Takes text (blanksAhead front.length) (front ++ back)
      (front.length + (back.takeWhile isBlank).length) (front ++ back) := by
  induction back generalizing front with
  | nil =>
    have hend : (front ++ [])[front.length]? = none := by simp
    rw [blanksAhead]
    refine (takes_peekAt h _).bind ?_
    rw [hend]
    exact .pure h _
  | cons c back ih =>
    have hget : (front ++ c :: back)[front.length]? = some c := by simp
    rw [blanksAhead]
    refine (takes_peekAt h _).bind ?_
    rw [hget, Option.any_some]
    by_cases hc : isBlank c = true
    · have hnext := ih (front ++ [c]) (by simpa using h)
      rw [List.append_assoc, List.length_append, Nat.add_assoc, Nat.add_comm [c].length] at hnext
      rw [if_pos hc, List.takeWhile_cons_of_pos hc]
      exact hnext
    · rw [if_neg hc, List.takeWhile_cons_of_neg hc]
      exact .pure h _

/-- The first character that is no white space is found as far ahead as there is white space. -/
theorem takes_blanksAhead (h : cs <:+ text.toList) :
    Takes text (blanksAhead 0) cs (cs.takeWhile isBlank).length cs := by
  have hahead := takes_blanksAhead_from [] h
  rw [List.length_nil, Nat.zero_add] at hahead
  exact hahead

end Cursor

end Css2
