import Css2.Location.Table
import Mathlib.Data.Nat.Count
import Mathlib.Data.Nat.Find
import Mathlib.Data.String.Basic

/-!
# Tables of locations are right

The line of a character is one more than the number of line breaks that end at or before it, and its
column is counted from the last of them (`Table.locate_eq`).  The starts of the lines are sorted, so
halving finds how many of them there are up to the character (`lt_partitionPoint_iff`).  Walking
there from the start of the text leads to the same place (`ofIndex_eq_place`).
-/

namespace Css2

/-! ### Partition points -/

section Partition

variable {p : Nat → Bool} {xs : Array Nat} {lo hi : Nat}

/-- The elements that have the property come first. -/
def PartitionedBy (p : Nat → Bool) (xs : Array Nat) : Prop :=
  ∀ j k : Nat, j ≤ k → xs[k]?.any p = true → xs[j]?.any p = true

/-- **Halving keeps what is known of both ends.** -/
theorem lt_partitionFrom_iff (h : PartitionedBy p xs) (hle : lo ≤ hi)
    (hlo : ∀ k < lo, xs[k]?.any p = true) (hhi : ∀ k ≥ hi, ¬xs[k]?.any p = true) (k : Nat) :
    k < partitionFrom p xs lo hi ↔ xs[k]?.any p = true := by
  fun_induction partitionFrom p xs lo hi with
  | case1 lo hi hlt mid hmid ih =>
    exact ih (by omega) (fun j hj => h j mid (by omega) hmid) hhi
  | case2 lo hi hlt mid hmid ih =>
    exact ih (by omega) hlo fun j hj hany => hmid (h mid j hj hany)
  | case3 lo hi hlt =>
    constructor
    · exact hlo k
    · intro hany
      by_contra hk
      exact hhi k (by omega) hany

theorem lt_partitionPoint_iff (h : PartitionedBy p xs) (k : Nat) :
    k < partitionPoint p xs ↔ xs[k]?.any p = true := by
  refine lt_partitionFrom_iff h (Nat.zero_le _) (by simp) ?_ k
  intro j hj
  rw [Array.getElem?_eq_none hj]
  exact Bool.false_ne_true

theorem eq_countP {xs : List Nat} {r : Nat} (h : ∀ k, k < r ↔ xs[k]?.any p = true) :
    r = xs.countP p := by
  induction xs generalizing r with
  | nil =>
    by_contra hr
    have hfirst := (h 0).1 (Nat.pos_of_ne_zero hr)
    cases hfirst
  | cons x xs ih =>
    cases r with
    | zero =>
      have hx : ¬p x = true := fun hx => absurd ((h 0).2 hx) (Nat.lt_irrefl 0)
      have hnone (k : Nat) : k < 0 ↔ xs[k]?.any p = true := by
        refine ⟨fun hk => absurd hk (Nat.not_lt_zero k), fun hk => ?_⟩
        exact absurd ((h (k + 1)).2 hk) (Nat.not_lt_zero (k + 1))
      rw [List.countP_cons_of_neg hx]
      exact ih hnone
    | succ r =>
      have hx : p x = true := (h 0).1 (Nat.succ_pos r)
      have hrest (k : Nat) : k < r ↔ xs[k]?.any p = true :=
        Nat.succ_lt_succ_iff.symm.trans (h (k + 1))
      rw [List.countP_cons_of_pos hx, ← ih hrest]

/-- The partition point is the number of the elements that have the property. -/
theorem partitionPoint_eq_countP (h : PartitionedBy p xs) :
    partitionPoint p xs = xs.toList.countP p := by
  refine eq_countP fun k => ?_
  rw [lt_partitionPoint_iff h, Array.getElem?_toList]

end Partition

namespace Location

variable {cs front : List Char} {i : Nat}

/-! ### Line breaks -/

/-- A line break ends before the character with the number `j`: a line feed, a form feed, or a
carriage return that no line feed follows. -/
def EndsBreak (cs : List Char) (j : Nat) : Prop :=
  (cs.take j).getLast? = some '\n' ∨ (cs.take j).getLast? = some '\x0c' ∨
    ((cs.take j).getLast? = some '\r' ∧ cs[j]? ≠ some '\n')

instance (cs : List Char) : DecidablePred (EndsBreak cs) :=
  fun _ => inferInstanceAs (Decidable (_ ∨ _ ∨ _))

theorem not_endsBreak_zero (cs : List Char) : ¬EndsBreak cs 0 := by
  simp [EndsBreak]

theorem endsBreak_length_add_one (front : List Char) (c : Char) (cs : List Char) :
    EndsBreak (front ++ c :: cs) (front.length + 1) ↔ endsLine c cs.head? = true := by
  have htake : (front ++ c :: cs).take (front.length + 1) = front ++ [c] := by
    simp [List.take_append]
  have hnext : (front ++ c :: cs)[front.length + 1]? = cs.head? := by
    rw [List.getElem?_append_right (by omega)]
    cases cs <;> simp
  rw [EndsBreak, htake, hnext, List.getLast?_concat]
  simp [endsLine, or_assoc]

theorem linesFrom_eq (front cs : List Char) :
    Table.linesFrom front.length cs =
      (List.range' (front.length + 1) cs.length).filter (fun j => EndsBreak (front ++ cs) j) := by
  induction cs generalizing front with
  | nil => rfl
  | cons c cs ih =>
    have hmore : Table.linesFrom (front.length + 1) cs =
        (List.range' (front.length + 1 + 1) cs.length).filter
          (fun j => EndsBreak (front ++ c :: cs) j) := by
      simpa using ih (front ++ [c])
    have hbreak := endsBreak_length_add_one front c cs
    rw [Table.linesFrom, List.length_cons, List.range'_succ, hmore]
    by_cases hends : endsLine c cs.head? = true
    · rw [if_pos hends, List.filter_cons_of_pos (by simpa using hbreak.2 hends)]
    · rw [if_neg hends, List.filter_cons_of_neg (by simpa using mt hbreak.1 hends)]

/-- A line starts at the character with the number `j`. -/
def StartsLine (cs : List Char) (j : Nat) : Prop :=
  j = 0 ∨ EndsBreak cs j

instance (cs : List Char) : DecidablePred (StartsLine cs) :=
  fun _ => inferInstanceAs (Decidable (_ ∨ _))

theorem lineStarts_eq (text : String) :
    (Table.ofText text).lineStarts.toList =
      (List.range (text.length + 1)).filter (fun j => StartsLine text.toList j) := by
  have hlines := linesFrom_eq [] text.toList
  rw [List.length_nil, Nat.zero_add, List.nil_append] at hlines
  rw [List.range_eq_range', List.range'_succ, List.filter_cons_of_pos (by simp [StartsLine])]
  show 0 :: Table.linesFrom 0 text.toList = _
  rw [hlines, String.length_toList]
  refine congrArg (0 :: ·) (List.filter_congr fun j hj => ?_)
  have hpos : j ≠ 0 := by
    rw [List.mem_range'] at hj
    omega
  simp [StartsLine, hpos]

theorem pairwise_lineStarts (text : String) :
    (Table.ofText text).lineStarts.toList.Pairwise (· < ·) := by
  rw [lineStarts_eq]
  exact List.pairwise_lt_range.filter _

theorem lineStarts_le {text : String} {j k a b : Nat} (hjk : j ≤ k)
    (ha : (Table.ofText text).lineStarts[j]? = some a)
    (hb : (Table.ofText text).lineStarts[k]? = some b) : a ≤ b := by
  have hpairwise := pairwise_lineStarts text
  rw [← Array.getElem?_toList, List.getElem?_eq_some_iff] at ha hb
  obtain ⟨hj, rfl⟩ := ha
  obtain ⟨hk, rfl⟩ := hb
  rcases Nat.lt_or_eq_of_le hjk with hlt | rfl
  · exact (List.pairwise_iff_getElem.1 hpairwise j k hj hk hlt).le
  · exact le_rfl

theorem mem_lineStarts_iff {text : String} {j : Nat} :
    j ∈ (Table.ofText text).lineStarts.toList ↔ j ≤ text.length ∧ StartsLine text.toList j := by
  rw [lineStarts_eq, List.mem_filter, List.mem_range, Nat.lt_succ_iff, decide_eq_true_iff]

/-- One line starts at the start of the text, and one behind every line break. -/
theorem count_startsLine (cs : List Char) (i : Nat) :
    Nat.count (StartsLine cs) (i + 1) = 1 + Nat.count (EndsBreak cs) (i + 1) := by
  induction i with
  | zero => simp [Nat.count_succ, StartsLine, not_endsBreak_zero]
  | succ i ih =>
    rw [Nat.count_succ, ih, Nat.count_succ _ (i + 1), Nat.add_assoc]
    simp [StartsLine]

/-! ### Places -/

/-- Where a character stands: its line by the line breaks that end at or before it, its column by
the last of them, and the bytes of the characters before it. -/
def place (cs : List Char) (i : Nat) : Location where
  line := 1 + Nat.count (EndsBreak cs) (i + 1)
  column := 1 + (i - Nat.findGreatest (EndsBreak cs) i)
  offset := (String.ofList (cs.take i)).utf8ByteSize

theorem partitionedBy_lineStarts (text : String) (i : Nat) :
    PartitionedBy (fun start => start ≤ i) (Table.ofText text).lineStarts := by
  intro j k hjk hany
  cases hb : (Table.ofText text).lineStarts[k]? with
  | none =>
    rw [hb] at hany
    cases hany
  | some b =>
    have hk : k < (Table.ofText text).lineStarts.size := (Array.getElem?_eq_some_iff.1 hb).1
    have ha := Array.getElem?_eq_getElem (Nat.lt_of_le_of_lt hjk hk)
    have hle := lineStarts_le hjk ha hb
    rw [hb] at hany
    rw [ha]
    simp only [Option.any_some, decide_eq_true_eq] at hany ⊢
    omega

theorem countP_range (p : Nat → Prop) [DecidablePred p] (n : Nat) :
    (List.range n).countP (fun j => p j) = Nat.count p n := by
  induction n with
  | zero => rfl
  | succ n ih => simp [List.range_succ, Nat.count_succ, ih, List.countP_cons]

theorem partitionPoint_lineStarts {text : String} (hi : i ≤ text.length) :
    partitionPoint (fun start => start ≤ i) (Table.ofText text).lineStarts =
      1 + Nat.count (EndsBreak text.toList) (i + 1) := by
  rw [partitionPoint_eq_countP (partitionedBy_lineStarts text i), lineStarts_eq,
    List.countP_filter, ← count_startsLine]
  have hboth : (fun j => decide (j ≤ i) && decide (StartsLine text.toList j)) =
      fun j => decide (j ≤ i ∧ StartsLine text.toList j) := by
    funext j
    simp
  rw [hboth, countP_range, Nat.count_eq_card_filter_range, Nat.count_eq_card_filter_range]
  congr 1
  ext j
  simp only [Finset.mem_filter, Finset.mem_range]
  constructor
  · rintro ⟨-, hj, hstarts⟩
    exact ⟨by omega, hstarts⟩
  · rintro ⟨hj, hstarts⟩
    exact ⟨by omega, by omega, hstarts⟩

theorem lineOf_eq {text : String} (hi : i ≤ text.length) :
    (Table.ofText text).lineOf i = Nat.count (EndsBreak text.toList) (i + 1) := by
  rw [Table.lineOf, partitionPoint_lineStarts hi]
  omega

/-- The line of a character starts at the end of the last line break before it. -/
theorem lineStart_lineOf {text : String} (hi : i ≤ text.length) :
    (Table.ofText text).lineStart ((Table.ofText text).lineOf i) =
      Nat.findGreatest (EndsBreak text.toList) i := by
  have hpoint := lt_partitionPoint_iff (partitionedBy_lineStarts text i)
  have hlast : (Table.ofText text).lineOf i <
      partitionPoint (fun start => start ≤ i) (Table.ofText text).lineStarts := by
    rw [lineOf_eq hi, partitionPoint_lineStarts hi]
    omega
  obtain ⟨start, hstart, hle⟩ : ∃ start,
      (Table.ofText text).lineStarts[(Table.ofText text).lineOf i]? = some start ∧ start ≤ i := by
    simpa [Option.any_eq_true] using (hpoint _).1 hlast
  have hmem : start ∈ (Table.ofText text).lineStarts.toList := by
    rw [← Array.getElem?_toList] at hstart
    exact List.mem_of_getElem? hstart
  have hstarts := (mem_lineStarts_iff.1 hmem).2
  rw [Table.lineStart, hstart, Option.getD_some]
  symm
  rw [Nat.findGreatest_eq_iff]
  refine ⟨hle, fun hne => hstarts.resolve_left hne, ?_⟩
  intro n hn hni hbreak
  -- a later break would start a line that is not behind the last one up to the character
  obtain ⟨k, hk⟩ := List.mem_iff_getElem?.1 (mem_lineStarts_iff.2 ⟨hni.trans hi, .inr hbreak⟩)
  rw [Array.getElem?_toList] at hk
  have hlt := (hpoint k).2 (by rw [hk]; simpa using hni)
  rw [partitionPoint_lineStarts hi, ← lineOf_eq hi] at hlt
  have hbehind := lineStarts_le (by omega) hk hstart
  omega

theorem offsetsFrom_getD (n : Nat) (cs : List Char) (i : Nat) :
    (Table.offsetsFrom n cs)[i]?.getD (n + (String.ofList cs).utf8ByteSize) =
      n + (String.ofList (cs.take i)).utf8ByteSize := by
  simp only [String.utf8ByteSize_ofList]
  induction cs generalizing n i with
  | nil => simp [Table.offsetsFrom]
  | cons c cs ih =>
    cases i with
    | zero => simp [Table.offsetsFrom]
    | succ i =>
      have hrest := ih (n + c.utf8Size) i
      rw [List.take_succ_cons, String.utf8Len_cons, String.utf8Len_cons, Table.offsetsFrom,
        List.getElem?_cons_succ]
      rw [Nat.add_comm (String.utf8Len cs), ← Nat.add_assoc, hrest]
      omega

/-- A location with its line and column as numbers of 32 bits. -/
def fitted (loc : Location) : Location :=
  ⟨fit loc.line, fit loc.column, loc.offset⟩

/-- **The table gives the place of every character**, as far as lines and columns fit. -/
theorem locate_eq {text : String} (hi : i ≤ text.length) :
    (Table.ofText text).locate i = (place text.toList i).fitted := by
  have hoffset := offsetsFrom_getD 0 text.toList i
  rw [Nat.zero_add, Nat.zero_add, String.ofList_toList] at hoffset
  have hlookup : (Table.ofText text).offsets[i]?.getD (Table.ofText text).size =
      (place text.toList i).offset := by
    show (Table.offsetsFrom 0 text.toList).toArray[i]?.getD text.utf8ByteSize = _
    rw [List.getElem?_toArray]
    exact hoffset
  rw [Table.locate, lineStart_lineOf hi, lineOf_eq hi, hlookup, fitted, place]
  simp only [Nat.add_comm 1]

theorem fit_of_lt {n : Nat} (h : n < 2 ^ 32) : fit n = n := by
  have hle : n ≤ greatest := Nat.le_of_lt_succ h
  rw [fit, if_pos hle]

theorem count_endsBreak_le (cs : List Char) (i : Nat) :
    Nat.count (EndsBreak cs) (i + 1) ≤ i := by
  rw [Nat.count_succ', if_neg (not_endsBreak_zero cs)]
  exact Nat.count_le _

theorem locate_eq_place {text : String} (hi : i ≤ text.length) (h : i + 1 < 2 ^ 32) :
    (Table.ofText text).locate i = place text.toList i := by
  have hcount := count_endsBreak_le text.toList i
  have hline : (place text.toList i).line < 2 ^ 32 := by
    show 1 + Nat.count (EndsBreak text.toList) (i + 1) < 2 ^ 32
    omega
  have hcolumn : (place text.toList i).column < 2 ^ 32 := by
    show 1 + (i - Nat.findGreatest (EndsBreak text.toList) i) < 2 ^ 32
    omega
  rw [locate_eq hi, fitted, fit_of_lt hline, fit_of_lt hcolumn]

/-! ### On from place to place -/

theorem walk_add_one {loc : Location} (h : i < cs.length) :
    loc.walk cs (i + 1) = (loc.walk cs i).step cs[i] cs[i + 1]? := by
  induction cs generalizing loc i with
  | nil => simp at h
  | cons c cs ih =>
    cases i with
    | zero => cases cs <;> rfl
    | succ i => exact ih (Nat.lt_of_succ_lt_succ h)

theorem walk_drop (loc : Location) (cs : List Char) (m n : Nat) :
    (loc.walk cs m).walk (cs.drop m) n = loc.walk cs (m + n) := by
  induction cs generalizing loc m with
  | nil =>
    rw [List.drop_nil]
    rfl
  | cons c cs ih =>
    cases m with
    | zero => rw [Nat.zero_add]; rfl
    | succ m =>
      rw [Nat.add_right_comm]
      exact ih _ m

theorem offset_add_one (h : i < cs.length) :
    (place cs (i + 1)).offset = (place cs i).offset + cs[i].utf8Size := by
  have htake : cs.take (i + 1) = cs.take i ++ [cs[i]] := by
    rw [List.take_add_one, List.getElem?_eq_getElem h]
    rfl
  show (String.ofList (cs.take (i + 1))).utf8ByteSize = _
  rw [htake, String.ofList_append, String.utf8ByteSize_append]
  simp [place]

theorem place_add_one (h : i < cs.length) :
    place cs (i + 1) = (place cs i).step cs[i] cs[i + 1]? := by
  have hbreak : EndsBreak cs (i + 1) ↔ endsLine cs[i] cs[i + 1]? = true := by
    have hcs : cs.take i ++ cs[i] :: cs.drop (i + 1) = cs := by simp
    have hlength : (cs.take i).length = i := by simp [h.le]
    have hend := endsBreak_length_add_one (cs.take i) cs[i] (cs.drop (i + 1))
    rw [hcs, hlength, List.head?_drop] at hend
    exact hend
  have hoffset := offset_add_one h
  have hle := Nat.findGreatest_le (P := EndsBreak cs) i
  rw [step]
  by_cases hends : endsLine cs[i] cs[i + 1]? = true
  · have hi := hbreak.2 hends
    rw [if_pos hends, ← hoffset]
    simp only [place, Nat.findGreatest_succ, if_pos hi, Nat.count_succ _ (i + 1)]
    simp [Nat.add_assoc]
  · have hi := mt hbreak.1 hends
    rw [if_neg hends, ← hoffset]
    simp only [place, Nat.findGreatest_succ, if_neg hi, Nat.count_succ _ (i + 1)]
    simp
    omega

/-- Walking from the start of the text leads to the place of the character. -/
theorem ofIndex_eq_place (hi : i ≤ cs.length) : ofIndex cs i = place cs i := by
  induction i with
  | zero =>
    have hstart : ofIndex cs 0 = start := by cases cs <;> rfl
    rw [hstart]
    simp [start, place, Nat.count_succ, not_endsBreak_zero]
  | succ i ih =>
    rw [ofIndex, walk_add_one hi, place_add_one hi, ← ih (Nat.le_of_succ_le hi)]
    rfl

theorem offset_lt {j : Nat} (hij : i < j) (hj : j ≤ cs.length) :
    (place cs i).offset < (place cs j).offset := by
  induction hij with
  | refl =>
    rw [offset_add_one hj]
    exact Nat.lt_add_of_pos_right (Char.utf8Size_pos _)
  | step hij ih =>
    rw [offset_add_one hj]
    exact Nat.lt_add_right _ (ih (Nat.le_of_succ_le hj))

theorem offset_zero (cs : List Char) : (place cs 0).offset = 0 :=
  rfl

theorem offset_length (text : String) :
    (place text.toList text.length).offset = text.utf8ByteSize := by
  show (String.ofList (text.toList.take text.length)).utf8ByteSize = _
  rw [← String.length_toList, List.take_length, String.ofList_toList]

theorem isValid_offset (text : String) (i : Nat) :
    (String.Pos.Raw.mk (place text.toList i).offset).IsValid text := by
  rw [String.Pos.Raw.isValid_iff_exists_append]
  refine ⟨String.ofList (text.toList.take i), String.ofList (text.toList.drop i), ?_, rfl⟩
  rw [← String.ofList_append, List.take_append_drop, String.ofList_toList]

end Location

end Css2
