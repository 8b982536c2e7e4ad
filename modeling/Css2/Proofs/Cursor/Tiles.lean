import Css2.Proofs.Cursor.Scan
import Css2.Proofs.Location.Table

/-!
# Tokens tile their text

A cursor that is not at the end of its text takes a token, and then is further on
(`next?_progress`).  So the tokens of a text follow one another from its first character to its
last, each from where the one before it ends, and the scanner stops at the end (`tokenize_tiles`).
They are the tokens that `scan` finds, but for lines and columns of more than 32 bits
(`tokenize_eq_fitted_scan`).
-/

namespace Css2

open Location

namespace Scan

variable {cs rest : List Char} {l : Lexeme}

/-- The lexemes of a text, each with the characters from its first one on. -/
def cuts (cs : List Char) : List (Lexeme × List Char) :=
  match _h : next? cs with
  | none => []
  | some (l, rest) => (l, cs) :: cuts rest
termination_by cs.length
decreasing_by exact next?_lt _h

theorem cuts_nil : cuts [] = [] := by
  rw [cuts]
  rfl

theorem cuts_eq (h : next? cs = some (l, rest)) : cuts cs = (l, cs) :: cuts rest := by
  rw [cuts]
  split
  · next heq =>
    rw [h] at heq
    cases heq
  · next heq =>
    rw [h] at heq
    cases heq
    rfl

end Scan

namespace Cursor

variable {text : Array Char} {cs rest : List Char} {c : Char} {l : Lexeme}

/-! ### The next token -/

theorem takes_next? (h : c :: cs <:+ text.toList) :
    ∃ l rest, Scan.next? (c :: cs) = some (l, rest) ∧ Takes text next? (c :: cs) (some l) rest := by
  obtain ⟨⟨l, rest⟩, hnext, hlexeme⟩ := agrees_lexeme h
  refine ⟨l, rest, hnext, ?_⟩
  rw [next?]
  exact (takes_consume h).bind (hlexeme.bind (.pure hlexeme.within _))

theorem takes_next?_nil : Takes text next? [] none [] :=
  takes_consume_nil.bind (.pure List.nil_suffix _)

theorem suffix_of_next? (h : Scan.next? cs = some (l, rest)) : rest <:+ cs := by
  cases cs with
  | nil => cases h
  | cons c cs =>
    have hself : c :: cs <:+ (c :: cs).toArray.toList := List.suffix_rfl
    obtain ⟨l', rest', hnext, htakes⟩ := takes_next? hself
    rw [h] at hnext
    cases hnext
    exact htakes.within

/-- **Every call goes on.**  Before the end of its text a cursor takes a token and ends further on.
-/
theorem next?_progress {s : Cursor} (h : s.position < s.text.size) :
    ∃ l s', next? s = some (some l, s') ∧ s'.text = s.text ∧ s.position < s'.position ∧
      s'.position ≤ s.text.size := by
  obtain ⟨cs, hcs, hs⟩ := exists_facing h.le
  cases cs with
  | nil =>
    rw [hs] at h
    simp [facing] at h
  | cons c cs =>
    obtain ⟨l, rest, hnext, htakes⟩ := takes_next? hcs
    have hlt := Scan.next?_lt hnext
    have hle := length_le_of_suffix hcs
    refine ⟨l, facing s.text rest, ?_, rfl, ?_, Nat.sub_le _ _⟩
    · rw [← htakes.run, ← hs]
    · have hposition : s.position = s.text.size - (c :: cs).length := congrArg position hs
      have hbehind : (facing s.text rest).position = s.text.size - rest.length := rfl
      omega

/-! ### All tokens -/

/-- **A run takes the lexemes of its text one after the other**, each located where it begins. -/
theorem takes_tokens (table : Table) (h : cs <:+ text.toList) :
    Takes text (tokens table) cs
      ((Scan.cuts cs).map fun p => ⟨p.1, table.locate (text.size - p.2.length)⟩) [] := by
  induction hlen : cs.length using Nat.strongRecOn generalizing cs with
  | ind len ih =>
    rw [tokens]
    refine (takes_get h).bind ?_
    cases cs with
    | nil =>
      rw [Scan.cuts_nil]
      exact takes_next?_nil.bind (.pure h [])
    | cons c cs =>
      obtain ⟨l, rest, hnext, htakes⟩ := takes_next? h
      have hmore := ih _ (hlen ▸ Scan.next?_lt hnext) htakes.within rfl
      rw [Scan.cuts_eq hnext]
      exact htakes.bind (hmore.bind (.pure hmore.within _))

end Cursor

/-- The tokens of a text are its lexemes, and the cursor ends behind the last character. -/
theorem tokenize_eq (text : String) :
    tokenize text =
      some ((Scan.cuts text.toList).map fun p =>
        ⟨p.1, (Table.ofText text).locate (text.length - p.2.length)⟩,
        ⟨text.toList.toArray, text.length⟩) := by
  have hself : text.toList <:+ text.toList.toArray.toList := List.suffix_rfl
  have hsize : text.toList.toArray.size = text.length := by
    rw [List.size_toArray, String.length_toList]
  have htokens := Cursor.takes_tokens (Table.ofText text) hself
  have hend : Cursor.facing text.toList.toArray [] = ⟨text.toList.toArray, text.length⟩ := by
    rw [Cursor.facing, hsize]
    rfl
  rw [hsize] at htokens
  rw [tokenize, Cursor.ofText_eq, ← hend]
  exact htokens.run

namespace Scan

variable {cs full : List Char}

/-! ### Where lexemes begin -/

theorem of_mem_cuts {p : Lexeme × List Char} (hp : p ∈ cuts cs) : p.2 <:+ cs ∧ p.2 ≠ [] := by
  fun_induction cuts cs with
  | case1 cs hnone => cases hp
  | case2 cs l rest hnext ih =>
    rcases List.mem_cons.1 hp with rfl | hp
    · refine ⟨List.suffix_rfl, ?_⟩
      rintro rfl
      cases hnext
    · obtain ⟨hsuffix, hne⟩ := ih hp
      exact ⟨hsuffix.trans (Cursor.suffix_of_next? hnext), hne⟩

theorem cuts_pairwise (cs : List Char) :
    (cuts cs).Pairwise fun p q => q.2.length < p.2.length := by
  fun_induction cuts cs with
  | case1 => exact .nil
  | case2 cs l rest hnext ih =>
    refine .cons ?_ ih
    intro q hq
    exact Nat.lt_of_le_of_lt (of_mem_cuts hq).1.length_le (next?_lt hnext)

theorem exists_cuts_eq (h : cs ≠ []) : ∃ l more, cuts cs = (l, cs) :: more := by
  cases cs with
  | nil => exact absurd rfl h
  | cons c cs =>
    have hself : c :: cs <:+ (c :: cs).toArray.toList := List.suffix_rfl
    obtain ⟨l, rest, hnext, -⟩ := Cursor.takes_next? hself
    exact ⟨l, cuts rest, cuts_eq hnext⟩

theorem scanFrom_eq_cuts (h : cs <:+ full) :
    scanFrom (ofIndex full (full.length - cs.length)) cs =
      (cuts cs).map fun p => ⟨p.1, ofIndex full (full.length - p.2.length)⟩ := by
  fun_induction cuts cs with
  | case1 cs hnone =>
    rw [scanFrom]
    split
    · rfl
    · next heq =>
      rw [hnone] at heq
      cases heq
  | case2 cs l rest hnext ih =>
    have hrest := Cursor.suffix_of_next? hnext
    have hwalk : (ofIndex full (full.length - cs.length)).walk cs (cs.length - rest.length) =
        ofIndex full (full.length - rest.length) := by
      have hle := h.length_le
      have hle' := hrest.length_le
      have hdrop := walk_drop start full (full.length - cs.length) (cs.length - rest.length)
      rw [← List.suffix_iff_eq_drop.1 h] at hdrop
      rw [ofIndex, hdrop, ofIndex]
      congr 1
      omega
    rw [scanFrom_eq _ hnext, hwalk, ih (hrest.trans h), List.map_cons]

end Scan

theorem cut_lt {text : String} {p : Lexeme × List Char} (hp : p ∈ Scan.cuts text.toList) :
    text.length - p.2.length < text.length := by
  obtain ⟨hsuffix, hne⟩ := Scan.of_mem_cuts hp
  have hle := hsuffix.length_le
  have hpos := List.length_pos_iff.2 hne
  rw [String.length_toList] at hle
  omega

theorem cuts_pairwise_lt (text : String) :
    (Scan.cuts text.toList).Pairwise fun p q =>
      text.length - p.2.length < text.length - q.2.length := by
  refine (Scan.cuts_pairwise text.toList).imp_of_mem ?_
  intro p q hp hq hlt
  have hle := (Scan.of_mem_cuts hp).1.length_le
  rw [String.length_toList] at hle
  omega

/-- The tokens that `scan` finds are the lexemes in their places. -/
theorem scan_eq_cuts (text : String) :
    scan text = (Scan.cuts text.toList).map fun p =>
      ⟨p.1, place text.toList (text.length - p.2.length)⟩ := by
  have hscan := Scan.scanFrom_eq_cuts (List.suffix_refl text.toList)
  rw [Nat.sub_self] at hscan
  have hstart : ofIndex text.toList 0 = start := ofIndex_eq_place (Nat.zero_le _)
  rw [hstart, String.length_toList] at hscan
  rw [scan, hscan]
  refine List.map_congr_left fun p hp => ?_
  rw [ofIndex_eq_place (by rw [String.length_toList]; exact (cut_lt hp).le)]

/-- **The cursor and the list agree**, but for lines and columns that do not fit. -/
theorem tokenize_eq_fitted_scan (text : String) :
    (tokenize text).map Prod.fst =
      some ((scan text).map fun t => ⟨t.lexeme, t.loc.fitted⟩) := by
  rw [tokenize_eq, scan_eq_cuts, Option.map_some, List.map_map]
  refine congrArg some (List.map_congr_left fun p hp => ?_)
  rw [locate_eq (cut_lt hp).le]
  rfl

/-- The tokens of a text that is not too long for its locations are those that `scan` finds. -/
theorem tokenize_eq_scan {text : String} (h : text.length < 2 ^ 32) :
    (tokenize text).map Prod.fst = some (scan text) := by
  rw [tokenize_eq, scan_eq_cuts, Option.map_some]
  refine congrArg some (List.map_congr_left fun p hp => ?_)
  have hlt := cut_lt hp
  rw [locate_eq_place hlt.le (by omega)]

/-- **The forms of a line break are interchangeable for the cursor**, however long the text is. -/
theorem tokenize_unifyNewlines (text : String) :
    ∃ ts ts', (tokenize text).map Prod.fst = some ts ∧
      (tokenize (unifyNewlines text)).map Prod.fst = some ts' ∧
      List.Forall₂ Token.SameBut ts ts' := by
  refine ⟨_, _, tokenize_eq_fitted_scan text, tokenize_eq_fitted_scan (unifyNewlines text), ?_⟩
  rw [List.forall₂_map_left_iff, List.forall₂_map_right_iff]
  have hscan : List.Forall₂ Token.SameBut (scan text) (scan (unifyNewlines text)) :=
    scanFrom_alike (alike_unifyNewlines text) ⟨rfl, rfl⟩
  exact hscan.imp fun t t' h => ⟨h.lexeme, congrArg fit h.place.1, congrArg fit h.place.2⟩

/-- **Tokens tile the text.**  Their offsets increase from the start of the text, each before a
character of it, and the cursor ends behind the last character.  No call stands still, wherever it
begins. -/
theorem tokenize_tiles (text : String) :
    ∃ ts, tokenize text = some (ts, ⟨text.toList.toArray, text.length⟩) ∧
      (ts.map (·.loc.offset)).Pairwise (· < ·) ∧
      (text ≠ "" → (ts.map (·.loc.offset)).head? = some 0) ∧
      (∀ t ∈ ts, (String.Pos.Raw.mk t.loc.offset).IsValid text ∧
        t.loc.offset < text.utf8ByteSize) ∧
      ∀ s : Cursor, s.position < s.text.size → ∃ l s',
        Cursor.next? s = some (some l, s') ∧ s'.text = s.text ∧ s.position < s'.position ∧
          s'.position ≤ s.text.size := by
  have hoffset (p : Lexeme × List Char) :
      ((Table.ofText text).locate (text.length - p.2.length)).offset =
        (place text.toList (text.length - p.2.length)).offset := by
    rw [locate_eq (Nat.sub_le _ _), fitted]
  refine ⟨_, tokenize_eq text, ?_, ?_, ?_, fun s => Cursor.next?_progress⟩
  · rw [List.map_map, List.pairwise_map]
    refine (cuts_pairwise_lt text).imp ?_
    intro p q hlt
    show ((Table.ofText text).locate _).offset < ((Table.ofText text).locate _).offset
    rw [hoffset, hoffset]
    exact offset_lt hlt (by rw [String.length_toList]; exact Nat.sub_le _ _)
  · intro hne
    obtain ⟨l, more, hcuts⟩ := Scan.exists_cuts_eq (mt String.toList_eq_nil_iff.1 hne)
    rw [hcuts]
    show some ((Table.ofText text).locate _).offset = some 0
    rw [hoffset, String.length_toList, Nat.sub_self, offset_zero]
  · intro t ht
    obtain ⟨p, hp, rfl⟩ := List.mem_map.1 ht
    rw [hoffset]
    refine ⟨isValid_offset text _, ?_⟩
    rw [← offset_length]
    exact offset_lt (cut_lt hp) (by rw [String.length_toList])

end Css2
