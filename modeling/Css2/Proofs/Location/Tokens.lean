import Css2.Proofs.Cursor.Tiles

/-!
# Tokens are where their locations say

A table locates every character of its text in the line and the column in which it stands, and the
bytes that are before it (`Table.locate_eq_breaks`), but for the end of the longest texts, which may
be one column too far (`Table.not_locate_eq_breaks`).  Places that are further on in a text are
further on in every count (`place_before`), so lines, columns and bytes put the tokens of a text in
one order.
-/

namespace Css2

namespace Location

variable {cs : List Char} {i j : Nat}

/-! ### The order of places -/

/-- One location is before another, by the line and the column as well as by the bytes. -/
def Before (a b : Location) : Prop :=
  a.offset < b.offset ∧ (a.line < b.line ∨ a.line = b.line ∧ a.column < b.column)

theorem findGreatest_eq (hij : i ≤ j) (hnone : ∀ n, i < n → n ≤ j → ¬EndsBreak cs n) :
    Nat.findGreatest (EndsBreak cs) j = Nat.findGreatest (EndsBreak cs) i := by
  rw [Nat.findGreatest_eq_iff]
  refine ⟨(Nat.findGreatest_le i).trans hij, fun hne => ?_, ?_⟩
  · exact Nat.findGreatest_of_ne_zero rfl hne
  · intro n hn hnj
    rcases Nat.lt_or_ge i n with hin | hni
    · exact hnone n hin hnj
    · exact Nat.findGreatest_is_greatest hn hni

theorem count_eq (hij : i ≤ j) (hnone : ∀ n, i < n → n ≤ j → ¬EndsBreak cs n) :
    Nat.count (EndsBreak cs) (j + 1) = Nat.count (EndsBreak cs) (i + 1) := by
  have hsplit : j + 1 = i + 1 + (j - i) := by omega
  have hbetween : Nat.count (fun n => EndsBreak cs (i + 1 + n)) (j - i) = 0 :=
    Nat.count_of_forall_not fun n hn => hnone _ (by omega) (by omega)
  rw [hsplit, Nat.count_add, hbetween, Nat.add_zero]

/-- **Further on in the text is further on in every count.** -/
theorem place_before (hij : i < j) (hj : j ≤ cs.length) : (place cs i).Before (place cs j) := by
  refine ⟨offset_lt hij hj, ?_⟩
  show 1 + Nat.count (EndsBreak cs) (i + 1) < 1 + Nat.count (EndsBreak cs) (j + 1) ∨
    1 + Nat.count (EndsBreak cs) (i + 1) = 1 + Nat.count (EndsBreak cs) (j + 1) ∧
      1 + (i - Nat.findGreatest (EndsBreak cs) i) < 1 + (j - Nat.findGreatest (EndsBreak cs) j)
  by_cases hbreak : ∃ n, i < n ∧ n ≤ j ∧ EndsBreak cs n
  · -- the break is counted for the place behind it only
    obtain ⟨n, hin, hnj, hends⟩ := hbreak
    have hbefore : Nat.count (EndsBreak cs) (i + 1) ≤ Nat.count (EndsBreak cs) n :=
      Nat.count_monotone _ hin
    have hbehind : Nat.count (EndsBreak cs) n < Nat.count (EndsBreak cs) (j + 1) :=
      Nat.count_strict_mono hends (Nat.lt_succ_of_le hnj)
    omega
  · -- without a break both places are in one line, which starts behind the same break
    have hnone (n : Nat) (hin : i < n) (hnj : n ≤ j) : ¬EndsBreak cs n :=
      fun hends => hbreak ⟨n, hin, hnj, hends⟩
    have hle := Nat.findGreatest_le (P := EndsBreak cs) i
    rw [count_eq hij.le hnone, findGreatest_eq hij.le hnone]
    omega

/-! ### The table of a text -/

namespace Table

theorem length_offsetsFrom (n : Nat) (cs : List Char) : (offsetsFrom n cs).length = cs.length := by
  induction cs generalizing n with
  | nil => rfl
  | cons c cs ih => rw [offsetsFrom, List.length_cons, List.length_cons, ih]

theorem endOf_eq (text : String) : (ofText text).endOf = (ofText text).locate text.length := by
  rw [endOf]
  congr 1
  rw [ofText, List.size_toArray, length_offsetsFrom, String.length_toList]

theorem tokenize_before {text : String} (h : text.length < 2 ^ 32) :
    ∃ ts s, tokenize text = some (ts, s) ∧ ts.Pairwise (fun t u => t.loc.Before u.loc) ∧
      ∀ t ∈ ts, ∃ i < text.length, t.loc = (ofText text).locate i := by
  refine ⟨_, _, tokenize_eq text, ?_, ?_⟩
  · rw [List.pairwise_map]
    refine (cuts_pairwise_lt text).imp_of_mem ?_
    intro p q hp hq hlt
    have hp := cut_lt hp
    have hq := cut_lt hq
    show ((ofText text).locate _).Before ((ofText text).locate _)
    rw [locate_eq_place hp.le (by omega), locate_eq_place hq.le (by omega)]
    exact place_before hlt (by rw [String.length_toList]; exact hq.le)
  · intro t ht
    obtain ⟨p, hp, rfl⟩ := List.mem_map.1 ht
    exact ⟨_, cut_lt hp, rfl⟩

/-- **Locations are right.**  The line of a character is told by the line breaks that end at or
before it, its column by the last of them, and its offset by the characters before it; the end of
the text is located in the same way.  The number `2 ^ 32` does not fit any more: a text of
`2 ^ 32 - 1` characters may end in that line or column, and then the greatest number that fits
stands for it.  Lines and columns put the tokens in the same order as bytes do. -/
theorem locate_eq_breaks {text : String} (h : text.length < 2 ^ 32) :
    (∀ i ≤ text.length, i + 1 < 2 ^ 32 →
      (ofText text).locate i =
        { line := 1 + Nat.count (EndsBreak text.toList) (i + 1)
          column := 1 + (i - Nat.findGreatest (EndsBreak text.toList) i)
          offset := (String.ofList (text.toList.take i)).utf8ByteSize }) ∧
    (∀ i ≤ text.length,
      (ofText text).locate i =
        { line := fit (1 + Nat.count (EndsBreak text.toList) (i + 1))
          column := fit (1 + (i - Nat.findGreatest (EndsBreak text.toList) i))
          offset := (String.ofList (text.toList.take i)).utf8ByteSize }) ∧
    (ofText text).endOf = (ofText text).locate text.length ∧
    ∃ ts s, tokenize text = some (ts, s) ∧ ts.Pairwise (fun t u => t.loc.Before u.loc) ∧
      ∀ t ∈ ts, ∃ i < text.length, t.loc = (ofText text).locate i :=
  ⟨fun _ hi hfits => locate_eq_place hi hfits, fun _ hi => locate_eq hi, endOf_eq text,
    tokenize_before h⟩

theorem locate_eq_breaks_mixed : "a\r\n\rb".length < 2 ^ 32 ∧
    (ofText "a\r\n\rb").locate 4 = ⟨3, 1, 4⟩ := by
  have hshort : "a\r\n\rb".length < 2 ^ 32 := by decide
  refine ⟨hshort, ((locate_eq_breaks hshort).1 4 (by decide) (by decide)).trans ?_⟩
  decide

theorem findGreatest_replicate (n i : Nat) :
    Nat.findGreatest (EndsBreak (List.replicate n 'a')) i = 0 := by
  rw [Nat.findGreatest_eq_zero_iff]
  intro j _ _ hbreak
  have hletter {c : Char} (hc : ((List.replicate n 'a').take j).getLast? = some c) : c = 'a' :=
    List.eq_of_mem_replicate (List.mem_of_mem_take (List.mem_of_getLast? hc))
  rcases hbreak with hc | hc | ⟨hc, -⟩
  all_goals cases hletter hc

/-- **A column may be too great for its number**: it is `2 ^ 32` at the end of a text of
`2 ^ 32 - 1` letters. -/
theorem not_locate_eq_breaks :
    ¬ ∀ text : String, text.length < 2 ^ 32 → ∀ i ≤ text.length,
      (ofText text).locate i =
        { line := 1 + Nat.count (EndsBreak text.toList) (i + 1)
          column := 1 + (i - Nat.findGreatest (EndsBreak text.toList) i)
          offset := (String.ofList (text.toList.take i)).utf8ByteSize } := by
  intro h
  -- the number of letters stays a variable, so that nothing unfolds the text
  obtain ⟨n, hn⟩ : ∃ n, n = 2 ^ 32 - 1 := ⟨_, rfl⟩
  have hlength : (String.ofList (List.replicate n 'a')).length = n := by simp
  have hcolumn := congrArg Location.column
    (h (.ofList (List.replicate n 'a')) (by omega) n (by omega))
  rw [locate_eq (by omega), fitted, place] at hcolumn
  simp only [String.toList_ofList, findGreatest_replicate, fit, greatest] at hcolumn
  split at hcolumn <;> omega

end Table

end Location

end Css2
