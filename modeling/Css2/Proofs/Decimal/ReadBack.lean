import Css2.Proofs.Decimal.Numeral
import Css2.Token.Scan

/-!
# Written numbers read back

The text of a finite number is a sign, digits, and digits behind a point.  The scanner takes all of
it and nothing else, and the numeral it makes of it stands for that number
(`Scan.takeNumber_numberText`).
-/

namespace Css2

namespace Decimal

/-! ### Digits -/

theorem natOfDigits_eq (ds : List Char) : natOfDigits ds = Nat.ofDigitChars 10 ds 0 :=
  Nat.ofDigitChars_eq_foldl.symm

theorem natOfDigits_append_zeros (n k : Nat) :
    natOfDigits (Nat.toDigits 10 n ++ List.replicate k '0') = n * 10 ^ k := by
  rw [natOfDigits_eq, Nat.ofDigitChars_append, Nat.ofDigitChars_ten_toDigits,
    Nat.ofDigitChars_replicate_zero, Nat.mul_comm]

theorem natOfDigits_zeros_append (k n : Nat) :
    natOfDigits (List.replicate k '0' ++ Nat.toDigits 10 n) = n := by
  rw [natOfDigits_eq, Nat.ofDigitChars_append, Nat.ofDigitChars_replicate_zero, Nat.mul_zero,
    Nat.ofDigitChars_ten_toDigits]

theorem isDigit_of_mem_zeros {k : Nat} {c : Char} (h : c ∈ List.replicate k '0') :
    c.isDigit = true := by
  rw [List.eq_of_mem_replicate h]
  rfl

theorem isDigit_of_mem_toDigits {n : Nat} {c : Char} (h : c ∈ Nat.toDigits 10 n) :
    c.isDigit = true :=
  Nat.isDigit_of_mem_toDigits (by decide) (by decide) h

/-! ### The parts of a text -/

/-- The digits behind the point, with the point if there are any. -/
def fractionText (fraction : List Char) : List Char :=
  if fraction.isEmpty then [] else '.' :: fraction

/-- Digits, with the point before the last of them, stand for the double with the bits `bits`. -/
structure Writes (whole fraction : List Char) (bits : Nat) : Prop where
  whole_ne : whole ≠ []
  whole_digit : ∀ c ∈ whole, c.isDigit = true
  fraction_digit : ∀ c ∈ fraction, c.isDigit = true
  toBits_eq : ∀ negative, (ofParts negative whole fraction 0).toBits = bits

theorem writes_whole (negative : Bool) {digits : Nat} (hd : 0 < digits) {e : Int} (he : 0 ≤ e) :
    Writes (Nat.toDigits 10 digits ++ List.replicate e.toNat '0') []
      (toBits ⟨negative, digits, e⟩) where
  whole_ne := by simp [Nat.toDigits_ne_nil]
  whole_digit := by
    intro c hc
    rcases List.mem_append.1 hc with hc | hc
    · exact isDigit_of_mem_toDigits hc
    · exact isDigit_of_mem_zeros hc
  fraction_digit := fun _ hc => nomatch hc
  toBits_eq := by
    intro negative'
    rw [ofParts]
    rw [List.append_nil, natOfDigits_append_zeros, toBits_mul_pow _ negative hd]
    congr 2
    simp only [List.length_nil]
    omega

/-- The digits of a number with so many places behind the point: with zeros in front there are more
of them than places. -/
def paddedDigits (digits places : Nat) : List Char :=
  List.replicate (places + 1 - (Nat.toDigits 10 digits).length) '0' ++ Nat.toDigits 10 digits

def wholeDigits (digits places : Nat) : List Char :=
  (paddedDigits digits places).take ((paddedDigits digits places).length - places)

def fractionDigits (digits places : Nat) : List Char :=
  (paddedDigits digits places).drop ((paddedDigits digits places).length - places)

theorem lt_length_paddedDigits (digits places : Nat) :
    places < (paddedDigits digits places).length := by
  rw [paddedDigits]
  rw [List.length_append, List.length_replicate]
  omega

theorem isDigit_of_mem_paddedDigits {digits places : Nat} {c : Char}
    (h : c ∈ paddedDigits digits places) : c.isDigit = true := by
  rcases List.mem_append.1 h with hc | hc
  · exact isDigit_of_mem_zeros hc
  · exact isDigit_of_mem_toDigits hc

theorem length_fractionDigits (digits places : Nat) :
    (fractionDigits digits places).length = places := by
  have hlt := lt_length_paddedDigits digits places
  rw [fractionDigits]
  rw [List.length_drop]
  omega

/-- The text of a number with places behind the point is its digits, with the point before so many
of them. -/
theorem writes_fraction (negative : Bool) (digits : Nat) {e : Int} (he : e < 0) :
    Writes (wholeDigits digits (-e).toNat) (fractionDigits digits (-e).toNat)
      (toBits ⟨negative, digits, e⟩) where
  whole_ne := by
    intro hnil
    have hlt := lt_length_paddedDigits digits (-e).toNat
    have hlen := congrArg List.length hnil
    rw [wholeDigits, List.length_take, List.length_nil] at hlen
    omega
  whole_digit := fun _ hc => isDigit_of_mem_paddedDigits (List.mem_of_mem_take hc)
  fraction_digit := fun _ hc => isDigit_of_mem_paddedDigits (List.mem_of_mem_drop hc)
  toBits_eq := by
    intro negative'
    rw [ofParts]
    rw [length_fractionDigits, wholeDigits, fractionDigits, List.take_append_drop, paddedDigits,
      natOfDigits_zeros_append, show (0 : Int) - (-e).toNat = e by omega]
    rfl

/-- **The text of a numeral** consists of digits that stand for it. -/
theorem magnitudeText_writes {d : Decimal} (hd : 0 < d.digits) :
    ∃ whole fraction, d.magnitudeText.toList = whole ++ fractionText fraction ∧
      Writes whole fraction d.toBits := by
  obtain ⟨negative, digits, e⟩ := d
  rw [magnitudeText]
  dsimp only
  split
  · next he =>
    refine ⟨_, [], ?_, writes_whole negative hd he⟩
    rw [String.toList_ofList]
    exact (List.append_nil _).symm
  · next he =>
    refine ⟨_, _, ?_, writes_fraction negative digits (Int.not_le.1 he)⟩
    have hlength := length_fractionDigits digits (-e).toNat
    have hne : (fractionDigits digits (-e).toNat).isEmpty = false := by
      rw [List.isEmpty_eq_false_iff]
      intro hnil
      rw [hnil, List.length_nil] at hlength
      omega
    rw [String.toList_ofList]
    rw [fractionText]
    rw [hne]
    rfl

end Decimal

open Decimal

def minusText (negative : Bool) : List Char :=
  if negative then ['-'] else []

/-- **The text of a finite number** is a sign and digits that stand for the number. -/
theorem numberText_writes {x : Float} (hx : x.isFinite = true) : ∃ whole fraction,
    (numberText x).toList = minusText (isNegative x) ++ (whole ++ fractionText fraction) ∧
      Writes whole fraction (magnitudeBits x) := by
  have hsign : (if isNegative x = true then "-" else "").toList = minusText (isNegative x) := by
    rw [minusText]
    split <;> rfl
  have hmagnitude : x.toBits.toNat % 2 ^ 63 = magnitudeBits x := rfl
  obtain ⟨d, hd⟩ := Dyadic.exists_ofFloat? hx
  obtain ⟨hcanonical, hbits⟩ := Dyadic.ofFloat?_eq_some hd
  rw [numberText]
  dsimp only
  rw [hd, hmagnitude, ← hbits]
  dsimp only
  split
  · next hm =>
    have hzero : d.bits = 0 := by
      rw [Dyadic.bits]
      rcases hcanonical.normal with he | he
      · rw [he, hm]
        rfl
      · omega
    refine ⟨['0'], [], ?_, ⟨List.cons_ne_nil _ _, ?_, fun _ hc => (nomatch hc),
      fun _ => ?_⟩⟩
    · rw [String.toList_append, hsign]
      rfl
    · intro c hc
      rw [List.mem_singleton.1 hc]
      rfl
    · rw [hzero]
      rfl
  · next hm =>
    have hpos := Nat.pos_of_ne_zero hm
    obtain ⟨hnegative, hshortest⟩ := shortest_spec hcanonical hpos
    have hdigits : 0 < (shortest d.bits d).digits := by
      refine digits_pos ?_
      rw [hshortest]
      rw [Dyadic.bits]
      omega
    generalize digitCount (shortest d.bits d).digits = n
    have htrim := toBits_trim n hdigits
    have htrimmed : 0 < (trim n (shortest d.bits d)).digits := by
      refine digits_pos ?_
      rw [htrim, hshortest]
      rw [Dyadic.bits]
      omega
    obtain ⟨whole, fraction, htext, hwrites⟩ := magnitudeText_writes htrimmed
    refine ⟨whole, fraction, ?_, ?_⟩
    · rw [String.toList_append, hsign, ← htext]
      rw [Decimal.text]
      rw [negative_trim, hnegative]
      rfl
    · rw [htrim, hshortest] at hwrites
      exact hwrites

namespace Scan

/-- A number ends before these characters: they go on neither with its digits nor with a fraction
nor with an exponent. -/
structure EndsNumber (cs : List Char) : Prop where
  digit : startsDigit cs = false
  fraction : takeFraction cs = ([], cs)
  exponent : takeExponent cs = (none, cs)

theorem span_digits {ds rest : List Char} (hd : ∀ c ∈ ds, c.isDigit = true)
    (hr : startsDigit rest = false) :
    (ds ++ rest).takeWhile Char.isDigit = ds ∧ (ds ++ rest).dropWhile Char.isDigit = rest := by
  have hrest : rest.takeWhile Char.isDigit = [] ∧ rest.dropWhile Char.isDigit = rest := by
    cases rest with
    | nil => exact ⟨rfl, rfl⟩
    | cons c cs =>
      have hc : ¬c.isDigit = true := by rw [show c.isDigit = false from hr]; decide
      exact ⟨List.takeWhile_cons_of_neg hc, List.dropWhile_cons_of_neg hc⟩
  rw [List.takeWhile_append_of_pos hd, List.dropWhile_append_of_pos hd, hrest.1, hrest.2]
  exact ⟨List.append_nil ds, rfl⟩

theorem takeSign_minusText (negative : Bool) {ds : List Char} (hne : ds ≠ [])
    (hd : ∀ c ∈ ds, c.isDigit = true) (rest : List Char) :
    takeSign (minusText negative ++ (ds ++ rest)) = (negative, ds ++ rest) := by
  cases negative with
  | true => rfl
  | false =>
    cases ds with
    | nil => exact absurd rfl hne
    | cons c cs =>
      have hc := hd c List.mem_cons_self
      show takeSign (c :: (cs ++ rest)) = _
      unfold takeSign
      split
      · next heq =>
        cases heq
        cases hc
      · next heq =>
        cases heq
        cases hc
      · rfl

theorem takeFraction_fractionText {fraction rest : List Char}
    (hd : ∀ c ∈ fraction, c.isDigit = true) (hr : EndsNumber rest) :
    takeFraction (fractionText fraction ++ rest) = (fraction, rest) := by
  cases fraction with
  | nil => exact hr.fraction
  | cons c cs =>
    obtain ⟨htake, hdrop⟩ := span_digits hd hr.digit
    show (if startsDigit (c :: cs ++ rest) = true then
      ((c :: cs ++ rest).takeWhile Char.isDigit, (c :: cs ++ rest).dropWhile Char.isDigit)
      else ([], '.' :: (c :: cs ++ rest))) = _
    rw [if_pos (show startsDigit (c :: cs ++ rest) = true from hd c List.mem_cons_self), htake,
      hdrop]

/-- **The text of a finite number is taken as that number.** -/
theorem takeNumber_numberText {x : Float} (hx : x.isFinite = true) {rest : List Char}
    (hr : EndsNumber rest) : ∃ d form,
      takeNumber ((numberText x).toList ++ rest) = ((d, form), rest) ∧ d.toFloat = x := by
  obtain ⟨whole, fraction, htext, hwrites⟩ := numberText_writes hx
  have hpoint : startsDigit (fractionText fraction ++ rest) = false := by
    cases fraction with
    | nil => exact hr.digit
    | cons c cs => rfl
  obtain ⟨htake, hdrop⟩ := span_digits hwrites.whole_digit hpoint
  have hsign := takeSign_minusText (isNegative x) hwrites.whole_ne hwrites.whole_digit
    (fractionText fraction ++ rest)
  have hfraction := takeFraction_fractionText hwrites.fraction_digit hr
  rw [htext, List.append_assoc, List.append_assoc]
  unfold takeNumber
  dsimp only
  rw [hsign]
  dsimp only
  rw [htake, hdrop, hfraction]
  dsimp only
  rw [hr.exponent]
  refine ⟨_, _, rfl, ?_⟩
  show ofSignBits (isNegative x) (ofParts (isNegative x) whole fraction 0).toBits = x
  rw [hwrites.toBits_eq, ofSignBits_toBits hx]

theorem startsNumber_numberText {x : Float} (hx : x.isFinite = true) (rest : List Char) :
    startsNumber ((numberText x).toList ++ rest) = true := by
  obtain ⟨whole, fraction, htext, hwrites⟩ := numberText_writes hx
  rw [htext, List.append_assoc, List.append_assoc]
  generalize fractionText fraction ++ rest = cs
  have hne := hwrites.whole_ne
  have hdigit := hwrites.whole_digit
  cases whole with
  | nil => exact absurd rfl hne
  | cons c ds =>
    have hc := hdigit c List.mem_cons_self
    have hunsigned : startsUnsigned (c :: (ds ++ cs)) = true := by
      unfold startsUnsigned
      split
      · next heq =>
        cases heq
        cases hc
      · exact hc
    rw [minusText]
    split
    · exact hunsigned
    · show startsNumber (c :: (ds ++ cs)) = true
      unfold startsNumber
      split
      · next heq =>
        cases heq
        cases hc
      · next heq =>
        cases heq
        cases hc
      · exact hunsigned

end Scan

end Css2
