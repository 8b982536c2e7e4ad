import Css2.Cursor.Part
import Css2.Proofs.Cursor.Steps
import Css2.Proofs.Decimal.ReadBack
import Css2.Proofs.Token.ReadBack

/-!
# Numbers, taken by a cursor

A cursor collects the text of a number part by part and then reads the text, while `takeNumber`
makes a numeral of the parts.  Both come to the same double (`takes_number`), since the text falls
apart again where its parts meet (`floatOfText?_parts`).
-/

namespace Css2

open Scan Decimal

variable {cs : List Char}

/-! ### The text of a number -/

/-- A number without a sign begins with a digit or with the point. -/
theorem exists_of_startsUnsigned (h : startsUnsigned cs = true) :
    ∃ c ds, cs = c :: ds ∧ (c.isDigit = true ∨ c = '.') := by
  cases cs with
  | nil => cases h
  | cons c ds =>
    refine ⟨c, ds, rfl, ?_⟩
    by_cases hpoint : c = '.'
    · exact .inr hpoint
    · refine .inl ?_
      by_contra hdigit
      rw [startsUnsigned_of_ne (by simpa using hdigit) hpoint] at h
      cases h

/-- Digits and the point are no letters, so what begins with them is no word. -/
theorem toLower_ne_of_startsUnsigned (h : startsUnsigned cs = true) {word : String} {d : Char}
    {ds : List Char} (hword : word.toList = d :: ds) (hd : d.isAlpha = true) :
    (String.ofList cs).toLower ≠ word := by
  obtain ⟨c, rest, rfl, hc⟩ := exists_of_startsUnsigned h
  have halpha : ¬c.isAlpha = true := by
    rcases hc with hc | rfl
    · rw [isDigit_iff] at hc
      rw [isAlpha_iff]
      omega
    · decide
  have hupper : ¬c.isUpper = true := fun hupper => halpha (by rw [Char.isAlpha, hupper]; rfl)
  rintro rfl
  rw [String.toLower, String.toList_map, String.toList_ofList, List.map_cons,
    Char.toLower_eq_of_not_isUpper hupper] at hword
  cases hword
  exact halpha hd

/-- The text of a sign, which may be empty: it is taken off any number that has none. -/
def WritesSign (signs : List Char) (negative : Bool) : Prop :=
  ∀ ds, startsUnsigned ds = true → takeSign (signs ++ ds) = (negative, ds)

/-- The text of an exponent, and what it stands for; there need not be one. -/
structure WritesExponent (ds : List Char) (e : Option Int) : Prop where
  read : exponentOfText? ds = some (e.getD 0)
  isEmpty : ds.isEmpty = e.isNone
  digit : startsDigit ds = false
  point : ∀ es, ds ≠ '.' :: es

theorem startsDigit_fractionText {fraction ds : List Char} (hds : startsDigit ds = false) :
    startsDigit (fractionText fraction ++ ds) = false := by
  cases fraction with
  | nil => exact hds
  | cons c cs => rfl

theorem startsUnsigned_magnitude {whole fraction ds : List Char}
    (hwhole : ∀ c ∈ whole, c.isDigit = true) (hfraction : ∀ c ∈ fraction, c.isDigit = true)
    (hne : whole ≠ [] ∨ fraction ≠ []) :
    startsUnsigned (whole ++ (fractionText fraction ++ ds)) = true := by
  cases whole with
  | nil =>
    cases fraction with
    | nil => simp at hne
    | cons c cs => exact hfraction c List.mem_cons_self
  | cons c cs =>
    have hc := hwhole c List.mem_cons_self
    unfold startsUnsigned
    split
    · next heq =>
      cases heq
      cases hc
    · exact hc

/-- **The text of a number falls apart where its parts meet.** -/
theorem floatOfText?_parts {signs whole fraction ds : List Char} {negative : Bool} {e : Option Int}
    (hsigns : WritesSign signs negative)
    (hwhole : ∀ c ∈ whole, c.isDigit = true) (hfraction : ∀ c ∈ fraction, c.isDigit = true)
    (hne : whole ≠ [] ∨ fraction ≠ []) (hds : WritesExponent ds e) :
    floatOfText? (String.ofList (signs ++ whole ++ fractionText fraction ++ ds)) =
      some (Decimal.ofParts negative whole fraction (e.getD 0)).toFloat := by
  have hstarts : startsUnsigned (whole ++ (fractionText fraction ++ ds)) = true :=
    startsUnsigned_magnitude hwhole hfraction hne
  obtain ⟨htake, hdrop⟩ := span_digits hwhole (startsDigit_fractionText hds.digit)
  have hword : ¬((String.ofList (whole ++ (fractionText fraction ++ ds))).toLower = "inf" ∨
      (String.ofList (whole ++ (fractionText fraction ++ ds))).toLower = "infinity") := by
    rintro (h | h)
    · exact toLower_ne_of_startsUnsigned hstarts rfl rfl h
    · exact toLower_ne_of_startsUnsigned hstarts rfl rfl h
  have hnan : (String.ofList (whole ++ (fractionText fraction ++ ds))).toLower ≠ "nan" :=
    toLower_ne_of_startsUnsigned hstarts rfl rfl
  have hdigits : ¬(whole.isEmpty && fraction.isEmpty) = true := by
    rw [Bool.and_eq_true, List.isEmpty_iff, List.isEmpty_iff]
    rintro ⟨hw, hf⟩
    exact hne.elim (absurd hw) (absurd hf)
  rw [List.append_assoc, List.append_assoc, floatOfText?, String.toList_ofList, hsigns _ hstarts]
  dsimp only
  rw [if_neg hword, if_neg hnan, htake, hdrop]
  -- the rest begins with a point exactly if there is a fraction
  split
  · next after hafter =>
    cases fraction with
    | nil => exact (hds.point after hafter).elim
    | cons c cs =>
      obtain ⟨hfractionTake, hfractionDrop⟩ := span_digits hfraction hds.digit
      obtain rfl : after = c :: cs ++ ds := (List.cons.inj hafter).2.symm
      rw [hfractionTake, hfractionDrop, if_neg hdigits, hds.read]
      rfl
  · next hpoint =>
    cases fraction with
    | nil =>
      rw [if_neg hdigits]
      exact congrArg _ hds.read
    | cons c cs => exact (hpoint _ rfl).elim

/-! ### The parts of a number -/

namespace Cursor

variable {text : Array Char}

theorem isSign_iff {c : Char} : isSign c = true ↔ c = '+' ∨ c = '-' := by
  simp [isSign]

theorem takeSign_of_not_isSign {c : Char} (hc : ¬isSign c = true) (cs : List Char) :
    takeSign (c :: cs) = (false, c :: cs) := by
  rw [isSign_iff, not_or] at hc
  simp [takeSign, hc.1, hc.2]

theorem takeSign_of_startsUnsigned (h : startsUnsigned cs = true) : takeSign cs = (false, cs) := by
  obtain ⟨c, ds, rfl, hc⟩ := exists_of_startsUnsigned h
  refine takeSign_of_not_isSign ?_ ds
  rw [isSign_iff]
  rintro (rfl | rfl) <;> rcases hc with hc | hc <;> cases hc

theorem takes_signed (h : cs <:+ text.toList) :
    ∃ signs, Takes text (if cs.head?.any isSign then one else pure []) cs signs (takeSign cs).2 ∧
      WritesSign signs (takeSign cs).1 := by
  cases cs with
  | nil => exact ⟨[], .pure h [], fun ds hds => takeSign_of_startsUnsigned hds⟩
  | cons c cs =>
    rw [List.head?_cons, Option.any_some]
    by_cases hc : isSign c = true
    · rw [if_pos hc]
      refine ⟨[c], ?_, ?_⟩
      · rcases isSign_iff.1 hc with rfl | rfl <;> exact takes_one h
      · rintro ds -
        rcases isSign_iff.1 hc with rfl | rfl <;> rfl
    · rw [if_neg hc, takeSign_of_not_isSign hc]
      exact ⟨[], .pure h [], fun ds hds => takeSign_of_startsUnsigned hds⟩

theorem takes_sign (h : cs <:+ text.toList) :
    ∃ signs, Takes text sign cs signs (takeSign cs).2 ∧ WritesSign signs (takeSign cs).1 := by
  obtain ⟨signs, htakes, hsigns⟩ := takes_signed h
  exact ⟨signs, (takes_peek h).bind htakes, hsigns⟩

theorem any_isDigit_head? (cs : List Char) : cs.head?.any Char.isDigit = startsDigit cs := by
  cases cs <;> rfl

theorem any_isDigit_getElem? (c : Char) (cs : List Char) :
    ((c :: cs)[1]?).any Char.isDigit = startsDigit cs := by
  cases cs <;> rfl

theorem startsDigit_takeWhile (h : startsDigit cs = true) :
    startsDigit (cs.takeWhile Char.isDigit) = true := by
  cases cs with
  | nil => cases h
  | cons c cs =>
    rw [List.takeWhile_cons_of_pos (show c.isDigit = true from h)]
    exact h

theorem takeWhile_isDigit_ne_nil (h : startsDigit cs = true) :
    cs.takeWhile Char.isDigit ≠ [] := by
  intro hnil
  have hstarts := startsDigit_takeWhile h
  rw [hnil] at hstarts
  cases hstarts

theorem takes_fraction (h : cs <:+ text.toList) :
    Takes text fraction cs (fractionText (takeFraction cs).1) (takeFraction cs).2 := by
  rw [fraction]
  refine (takes_peek h).bind ((takes_peekAt h 1).bind ?_)
  fun_cases takeFraction cs with
  | case1 ds hdigit =>
    have hdigits := takes_digits (suffix_of_cons h)
    rw [any_isDigit_getElem?, if_pos (by simpa using hdigit), fractionText,
      if_neg (by simpa using takeWhile_isDigit_ne_nil hdigit)]
    exact (takes_one h).bind (hdigits.bind (.pure hdigits.within _))
  | case2 ds hdigit =>
    rw [any_isDigit_getElem?, if_neg (by simpa using hdigit)]
    exact .pure h []
  | case3 _ hpoint =>
    have hfirst : cs.head? ≠ some '.' := by
      cases cs with
      | nil => simp
      | cons c ds =>
        rintro hc
        cases hc
        exact hpoint ds rfl
    rw [if_neg (by simp [hfirst])]
    exact .pure h []

theorem isDigit_of_mem_takeFraction {c : Char} (hc : c ∈ (takeFraction cs).1) :
    c.isDigit = true := by
  unfold takeFraction at hc
  split at hc
  · split at hc
    · exact List.mem_takeWhile_imp hc
    · cases hc
  · cases hc

theorem digits_of_startsUnsigned (h : startsUnsigned cs = true) :
    cs.takeWhile Char.isDigit ≠ [] ∨ (takeFraction (cs.dropWhile Char.isDigit)).1 ≠ [] := by
  obtain ⟨c, ds, rfl, hc | rfl⟩ := exists_of_startsUnsigned h
  · exact .inl (takeWhile_isDigit_ne_nil hc)
  · refine .inr ?_
    have hdigit : startsDigit ds = true := h
    rw [List.dropWhile_cons_of_neg (by decide), takeFraction, if_pos hdigit]
    exact takeWhile_isDigit_ne_nil hdigit

theorem startsUnsigned_takeSign (h : Scan.startsNumber cs = true) :
    startsUnsigned (takeSign cs).2 = true := by
  unfold Scan.startsNumber at h
  unfold takeSign
  split at h <;> simp_all

theorem any_isDigit_signed (c : Char) (cs : List Char) :
    ((c :: cs)[if cs.head?.any isSign then 2 else 1]?).any Char.isDigit =
      startsDigit (takeSign cs).2 := by
  cases cs with
  | nil => rfl
  | cons d ds =>
    rw [List.head?_cons, Option.any_some]
    by_cases hd : isSign d = true
    · rw [if_pos hd]
      rcases isSign_iff.1 hd with rfl | rfl <;> exact any_isDigit_getElem? '-' ds
    · rw [if_neg hd, takeSign_of_not_isSign hd]
      rfl

theorem startsUnsigned_of_startsDigit (h : startsDigit cs = true) : startsUnsigned cs = true := by
  unfold startsUnsigned
  split
  · cases h
  · exact h

theorem writesExponent {mark : Char} {signs ds : List Char} {negative : Bool}
    (hmark : mark = 'e' ∨ mark = 'E') (hdigits : ∀ c ∈ ds, c.isDigit = true) (hne : ds ≠ [])
    (hsigns : takeSign (signs ++ ds) = (negative, ds)) :
    WritesExponent (mark :: signs ++ ds)
      (some (if negative then -(Decimal.natOfDigits ds : Int) else Decimal.natOfDigits ds)) where
  read := by
    rw [List.cons_append, exponentOfText?, if_pos hmark, hsigns]
    dsimp only
    have hall : ds.all Char.isDigit = true := by simpa using hdigits
    rw [hall, if_neg (by simpa using hne)]
    rfl
  isEmpty := rfl
  digit := by rcases hmark with rfl | rfl <;> rfl
  point es heq := by rcases hmark with rfl | rfl <;> cases heq

theorem takes_exponent (h : cs <:+ text.toList) :
    ∃ ds, Takes text exponent cs ds (takeExponent cs).2 ∧
      WritesExponent ds (takeExponent cs).1 := by
  rw [exponent]
  have hnone : WritesExponent [] none := ⟨rfl, rfl, rfl, by simp⟩
  cases cs with
  | nil => exact ⟨[], (takes_peek h).bind (.pure h []), hnone⟩
  | cons c cs =>
    have hsecond : (c :: cs)[1]? = cs.head? := by simp [List.head?_eq_getElem?]
    rw [takeExponent]
    dsimp only
    by_cases hmark : c = 'e' ∨ c = 'E'
    · have hmarked : ((c :: cs).head?.any fun c => c = 'e' || c = 'E') = true := by
        simpa using hmark
      by_cases hdigit : startsDigit (takeSign cs).2 = true
      · obtain ⟨signs, hsigned, hsigns⟩ := takes_signed (suffix_of_cons h)
        have hdigits := takes_digits hsigned.within
        have hread := writesExponent hmark (fun d hd => List.mem_takeWhile_imp hd)
          (takeWhile_isDigit_ne_nil hdigit)
          (hsigns _ (startsUnsigned_of_startsDigit (startsDigit_takeWhile hdigit)))
        rw [if_pos ⟨hmark, hdigit⟩]
        refine ⟨_, (takes_peek h).bind ?_, hread⟩
        rw [if_pos hmarked]
        refine (takes_peekAt h 1).bind ((takes_peekAt h _).bind ?_)
        rw [hsecond, any_isDigit_signed, if_pos hdigit]
        refine (takes_one h).bind ?_
        -- the step splits where the sign is, and goes on in the same way
        by_cases hsign : cs.head?.any isSign = true
        · rw [if_pos hsign] at hsigned ⊢
          exact hsigned.bind (hdigits.bind (.pure hdigits.within _))
        · rw [if_neg hsign] at hsigned ⊢
          exact hsigned.bind (hdigits.bind (.pure hdigits.within _))
      · rw [if_neg (fun hboth => hdigit hboth.2)]
        refine ⟨[], (takes_peek h).bind ?_, hnone⟩
        rw [if_pos hmarked]
        refine (takes_peekAt h 1).bind ((takes_peekAt h _).bind ?_)
        rw [hsecond, any_isDigit_signed, if_neg hdigit]
        exact .pure h []
    · rw [if_neg (fun hboth => hmark hboth.1)]
      refine ⟨[], (takes_peek h).bind ?_, hnone⟩
      rw [if_neg (by simpa using hmark)]
      exact .pure h []

/-- **The number that a cursor takes is the one that its characters make.** -/
theorem takes_number (h : cs <:+ text.toList) (hn : Scan.startsNumber cs = true) :
    Takes text number cs ((takeNumber cs).1.1.toFloat, (takeNumber cs).1.2) (takeNumber cs).2 := by
  obtain ⟨signs, hsign, hsigns⟩ := takes_sign h
  have hwhole := takes_digits hsign.within
  have hfraction := takes_fraction hwhole.within
  obtain ⟨ds, hexponent, hds⟩ := takes_exponent hfraction.within
  have hread := floatOfText?_parts hsigns (fun c hc => List.mem_takeWhile_imp hc)
    (fun c hc => isDigit_of_mem_takeFraction hc)
    (digits_of_startsUnsigned (startsUnsigned_takeSign hn)) hds
  have hpoint (fraction : List Char) : (fractionText fraction).isEmpty = fraction.isEmpty := by
    cases fraction <;> rfl
  rw [number]
  refine hsign.bind (hwhole.bind (hfraction.bind (hexponent.bind ?_)))
  dsimp only
  rw [hread, hpoint, hds.isEmpty]
  exact .pure hexponent.within _

end Cursor

end Css2
