import Css2.Cursor.Scan
import Css2.Proofs.Cursor.Number
import Css2.Proofs.Cursor.Part
import Css2.Proofs.Token.Newlines

/-!
# Tokens, taken by a cursor

The next token of a cursor is the one that `Scan.next?` takes off the characters in front of it
(`agrees_lexeme`).  The cursor tells it by its first character, which is read already, and steps
back over that where it is part of a number or a name; `Scan.next?` asks for numbers and names
first.  So the characters that begin several kinds of lexemes have a lemma each, and all others are
`agrees_plain`.
-/

namespace Css2

namespace Cursor

open Scan

variable {text : Array Char} {cs : List Char} {c : Char}

/-! ### Lexemes of several parts -/

theorem takes_numeric (h : cs <:+ text.toList) (hn : Scan.startsNumber cs = true) :
    Takes text numeric cs (takeNumeric cs).1 (takeNumeric cs).2 := by
  have hnumber := takes_number h hn
  have hrest := hnumber.within
  rw [numeric]
  refine hnumber.bind ?_
  dsimp only
  refine (takes_startsName hrest).bind ?_
  rw [takeNumeric]
  dsimp only
  by_cases hname : Scan.startsName (takeNumber cs).2 = true
  · have hunit := takes_name hrest
    rw [if_pos hname, if_pos hname]
    exact hunit.bind (.pure hunit.within _)
  · rw [if_neg hname, if_neg hname]
    refine (takes_peek hrest).bind ?_
    split
    · next hpercent =>
      obtain ⟨rest, heq⟩ := List.head?_eq_some_iff.1 hpercent
      rw [heq] at hrest ⊢
      exact (takes_consume hrest).bind (.pure (suffix_of_cons hrest) _)
    · next hpercent =>
      split
      · next rest heq =>
        rw [heq] at hpercent
        exact absurd rfl hpercent
      · exact .pure hrest _

theorem getElem?_blanks (cs : List Char) :
    cs[(cs.takeWhile isBlank).length]? = (cs.dropWhile isBlank).head? := by
  induction cs with
  | nil => rfl
  | cons c cs ih =>
    by_cases hc : isBlank c = true
    · rw [List.takeWhile_cons_of_pos hc, List.dropWhile_cons_of_pos hc, ← ih, List.length_cons,
        List.getElem?_cons_succ]
    · rw [List.takeWhile_cons_of_neg hc, List.dropWhile_cons_of_neg hc]
      rfl

/-- A quoted string behind white space is seen without reading that. -/
theorem any_quote_getElem? (cs : List Char) :
    (cs[(cs.takeWhile isBlank).length]?.any fun c => c = '\x22' || c = '\x27') =
      startsQuoted cs := by
  rw [getElem?_blanks, startsQuoted]
  cases cs.dropWhile isBlank <;> rfl

theorem takes_named (h : cs <:+ text.toList) :
    Takes text named cs (takeNamed cs).1 (takeNamed cs).2 := by
  have hname := takes_name h
  have hrest := hname.within
  rw [named, takeNamed_eq]
  refine hname.bind ((takes_peek hrest).bind ?_)
  generalize (takeName cs).2 = rest at hrest ⊢
  generalize String.ofList (takeName cs).1 = word at hrest ⊢
  by_cases hparen : rest.head? = some '('
  · obtain ⟨ds, rfl⟩ := List.head?_eq_some_iff.1 hparen
    have hds := suffix_of_cons hrest
    rw [endNamed]
    by_cases hurl : sameName word "url" = true
    · rw [if_pos (by simp [hurl])]
      have hahead := takes_blanksAhead hds
      refine (takes_consume hrest).bind (hahead.bind ((takes_peekAt hds _).bind ?_))
      rw [any_quote_getElem?]
      by_cases hquoted : startsQuoted ds = true
      · rw [if_pos hquoted, if_neg (by simp [hquoted])]
        exact .pure hds _
      · have haddress := takes_url hds
        rw [if_neg hquoted, if_pos (by simp [hurl, hquoted])]
        refine haddress.bind ?_
        have hwithin := haddress.within
        generalize takeUrl (ds.dropWhile isBlank) = r at hwithin ⊢
        obtain ⟨value, rest⟩ := r
        cases value <;> exact .pure hwithin _
    · rw [if_neg (by simp [hurl]), if_neg (by simp [hurl])]
      refine (takes_peek hrest).bind ?_
      rw [if_pos hparen]
      exact (takes_consume hrest).bind (.pure hds _)
  · have hident : endNamed word rest = (.ident word, rest) := by
      rw [endNamed]
      rintro ds rfl
      exact hparen rfl
    rw [hident, if_neg (by simp [hparen])]
    refine (takes_peek hrest).bind ?_
    rw [if_neg hparen]
    exact .pure hrest _

theorem dropTrivia_dropWhile (cs : List Char) :
    dropTrivia (cs.dropWhile isBlank) = dropTrivia cs := by
  induction cs with
  | nil => rfl
  | cons c cs ih =>
    by_cases hc : isBlank c = true
    · rw [List.dropWhile_cons_of_pos hc, dropTrivia_blank hc, ih]
    · rw [List.dropWhile_cons_of_neg hc]

theorem takes_skipTrivia (h : cs <:+ text.toList) :
    Takes text skipTrivia cs () (dropTrivia cs) := by
  induction hlen : cs.length using Nat.strongRecOn generalizing cs with
  | ind len ih =>
    rw [skipTrivia]
    refine (takes_peek h).bind ?_
    cases cs with
    | nil =>
      rw [dropTrivia]
      exact (takes_peek h).bind ((takes_peekAt h 1).bind (.pure h ()))
    | cons c cs =>
      rw [List.head?_cons, Option.any_some]
      by_cases hblank : isBlank c = true
      · have hblanks := takes_skipBlanks h
        have hlt : ((c :: cs).dropWhile isBlank).length < (c :: cs).length := dropWhile_lt hblank
        have hmore := ih _ (by omega) hblanks.within rfl
        rw [dropTrivia_dropWhile] at hmore
        rw [if_pos hblank]
        exact hblanks.bind hmore
      rw [if_neg hblank]
      refine (takes_peek h).bind ((takes_peekAt h 1).bind ?_)
      by_cases hcomment : c = '/' ∧ cs.head? = some '*'
      · obtain ⟨rfl, hstar⟩ := hcomment
        obtain ⟨ds, rfl⟩ := List.head?_eq_some_iff.1 hstar
        have hds := suffix_of_cons (suffix_of_cons h)
        have htext := takes_comment hds
        have hle := takeComment_le ds
        simp only [List.length_cons] at hlen
        have hmore := ih _ (by omega) htext.within rfl
        rw [dropTrivia]
        exact (takes_consume h).bind ((takes_consume (suffix_of_cons h)).bind (htext.bind hmore))
      · have hnone : ¬(decide ((c :: cs).head? = some '/') && decide ((c :: cs)[1]? = some '*'))
            = true := by
          simpa [← List.head?_eq_getElem?] using hcomment
        rw [if_neg hnone, dropTrivia_of_ne (by simpa using hblank) (by simpa using hcomment)]
        exact .pure h ()

theorem takes_get (h : cs <:+ text.toList) :
    Takes text (get : Scanner Cursor) cs (facing text cs) cs :=
  ⟨rfl, h⟩

/-- **Nothing is taken where `important` does not come.**  However many trivia the cursor has
skipped by then, it goes back over all of them. -/
theorem takes_important (h : cs <:+ text.toList) :
    Takes text important cs (takeImportant cs).1 (takeImportant cs).2 := by
  have htrivia := takes_skipTrivia h
  have hback (ds : List Char) : Takes text (do moveTo (facing text cs).position; pure (.delim '!'))
      ds (Lexeme.delim '!') cs := (takes_moveTo h ds).bind (.pure h _)
  rw [important, takeImportant]
  refine (takes_get h).bind (htrivia.bind ((takes_startsName htrivia.within).bind ?_))
  dsimp only
  by_cases hname : Scan.startsName (dropTrivia cs) = true
  · have hword := takes_name htrivia.within
    rw [if_pos hname, hname, Bool.true_and]
    refine hword.bind ?_
    by_cases hsame : sameName (String.ofList (takeName (dropTrivia cs)).1) "important" = true
    · rw [if_pos hsame, if_pos hsame]
      exact .pure hword.within _
    · rw [if_neg hsame, if_neg hsame]
      exact hback _
  · rw [if_neg hname, if_neg (by simp [hname])]
    exact hback _

theorem takes_unicodeRange (h : '+' :: cs <:+ text.toList) :
    Takes text unicodeRange ('+' :: cs)
      (.unicodeRange (String.ofList (takeUnicodeRange cs).1)) (takeUnicodeRange cs).2 := by
  have hcs := suffix_of_cons h
  have hfirst := takes_upTo isRangeChar 6 hcs
  have hrest := hfirst.within
  rw [unicodeRange, takeUnicodeRange_eq]
  refine (takes_consume h).bind (hfirst.bind ?_)
  generalize (takeUpTo isRangeChar 6 cs).1 = first at hrest ⊢
  generalize (takeUpTo isRangeChar 6 cs).2 = rest at hrest ⊢
  refine (takes_peek hrest).bind ((takes_peekAt hrest 1).bind ?_)
  fun_cases endRange first rest with
  | case1 c ds hmore =>
    have hsecond := takes_upTo isHexDigit 6 (suffix_of_cons hrest)
    rw [if_pos (by simpa [and_comm] using hmore)]
    refine (takes_one hrest).bind (hsecond.bind ?_)
    rw [List.append_assoc]
    exact .pure hsecond.within _
  | case2 c ds hmore =>
    rw [if_neg (by simpa [and_comm] using hmore)]
    exact .pure hrest _
  | case3 _ hne =>
    rw [if_neg ?_]
    · exact .pure hrest _
    · cases rest with
      | nil => simp
      | cons c ds =>
        cases ds with
        | nil => simp
        | cons d ds =>
          have hhyphen : c ≠ '-' := fun hc => hne d ds (by rw [hc])
          simp [hhyphen]

theorem takes_hash (h : cs <:+ text.toList) :
    Takes text hash cs (takeHash cs).1 (takeHash cs).2 := by
  have hcontinues :
      (cs.head?.any isNameChar || opensEscape cs.head? cs[1]?) = continuesName cs := by
    cases cs with
    | nil => rfl
    | cons c cs =>
      by_cases hc : c = '\\'
      · subst hc
        cases cs <;> simp [continuesName, opensEscape, escapes, isNameChar, isNameStart, isNonAscii]
      · simp [continuesName, opensEscape_of_ne hc]
  rw [hash, takeHash]
  refine (takes_peek h).bind ((takes_peek h).bind ((takes_peekAt h 1).bind ?_))
  rw [hcontinues]
  by_cases hname : continuesName cs = true
  · have hvalue := takes_name h
    rw [if_pos hname, if_pos hname]
    exact (takes_startsName h).bind (hvalue.bind (.pure hvalue.within _))
  · rw [if_neg hname, if_neg hname]
    exact .pure h _

/-! ### Tokens -/

theorem startsUnsigned_eq (cs : List Char) :
    startsUnsigned cs =
      (cs.head?.any Char.isDigit || decide (cs.head? = some '.') && cs[1]?.any Char.isDigit) := by
  cases cs with
  | nil => rfl
  | cons c cs =>
    by_cases hpoint : c = '.'
    · subst hpoint
      rw [any_isDigit_getElem?]
      rfl
    · have hdigit : startsUnsigned (c :: cs) = startsDigit (c :: cs) := by
        simp [startsUnsigned, hpoint]
      simp [hdigit, startsDigit, hpoint]

theorem takes_startsNumber (h : cs <:+ text.toList) (c : Char) :
    Takes text (startsNumber c) cs (Scan.startsNumber (c :: cs)) cs := by
  rw [startsNumber]
  refine (takes_peek h).bind ((takes_peekAt h 1).bind ?_)
  by_cases hsign : isSign c = true
  · have hnumber : Scan.startsNumber (c :: cs) = startsUnsigned cs := by
      rcases isSign_iff.1 hsign with rfl | rfl <;> rfl
    rw [if_pos hsign, hnumber, startsUnsigned_eq]
    exact .pure h _
  · have hnumber : Scan.startsNumber (c :: cs) = startsUnsigned (c :: cs) := by
      rw [isSign_iff, not_or] at hsign
      simp [Scan.startsNumber, hsign.1, hsign.2]
    rw [if_neg hsign, hnumber]
    by_cases hpoint : c = '.'
    · subst hpoint
      rw [if_pos rfl, any_isDigit_head?]
      exact .pure h _
    · have hdigit : startsUnsigned (c :: cs) = c.isDigit := by
        simp [startsUnsigned, hpoint, startsDigit]
      rw [if_neg hpoint, hdigit]
      exact .pure h _

/-- The step `p`, begun behind the character `c`, takes the lexeme that `Scan.next?` finds before
that character. -/
def Agrees (text : Array Char) (p : Scanner Lexeme) (c : Char) (cs : List Char) : Prop :=
  ∃ r, Scan.next? (c :: cs) = some r ∧ Takes text p cs r.1 r.2

theorem Agrees.bind {β : Type} {q : Scanner β} {k : β → Scanner Lexeme} {b : β}
    (hq : Takes text q cs b cs) (hk : Agrees text (k b) c cs) : Agrees text (q >>= k) c cs := by
  obtain ⟨r, hnext, htakes⟩ := hk
  exact ⟨r, hnext, hq.bind htakes⟩

theorem agrees_numeric (h : c :: cs <:+ text.toList) (hn : Scan.startsNumber (c :: cs) = true) :
    Agrees text (do reconsume; numeric) c cs :=
  ⟨_, next?_of_startsNumber hn, (takes_reconsume h).bind (takes_numeric h hn)⟩

theorem next?_of_startsName (h : Scan.startsName (c :: cs) = true)
    (hrange : ¬((c = 'u' ∨ c = 'U') ∧ Scan.startsUnicodeRange cs = true))
    (hmark : takeMark? (c :: cs) = none) :
    Scan.next? (c :: cs) = some (takeNamed (c :: cs)) := by
  unfold Scan.next?
  split
  · next heq => cases heq
  · next heq =>
    cases heq
    cases h
  · next heq =>
    cases heq
    rw [startsNumber_of_startsName h, if_neg (by decide), if_neg hrange, hmark, h]
    rfl

theorem agrees_named (h : c :: cs <:+ text.toList) (hname : Scan.startsName (c :: cs) = true)
    (hrange : ¬((c = 'u' ∨ c = 'U') ∧ Scan.startsUnicodeRange cs = true))
    (hmark : takeMark? (c :: cs) = none) :
    Agrees text (do reconsume; named) c cs :=
  ⟨_, next?_of_startsName hname hrange hmark, (takes_reconsume h).bind (takes_named h)⟩

/-- A digit or a letter begins a number or a name, and another character stands for itself. -/
theorem agrees_plain (h : c :: cs <:+ text.toList)
    (hnumber : Scan.startsNumber (c :: cs) = c.isDigit)
    (hname : Scan.startsName (c :: cs) = isNameStart c) (hmark : takeMark? (c :: cs) = none)
    (hrange : ¬((c = 'u' ∨ c = 'U') ∧ Scan.startsUnicodeRange cs = true))
    (hcomment : c = '/' → cs.head? ≠ some '*') (hspecial : takeSpecial c cs = (.delim c, cs)) :
    Agrees text (plain c) c cs := by
  rw [plain]
  by_cases hdigit : c.isDigit = true
  · rw [if_pos hdigit]
    exact agrees_numeric h (hnumber.trans hdigit)
  rw [if_neg hdigit]
  by_cases hstart : isNameStart c = true
  · rw [if_pos hstart]
    exact agrees_named h (hname.trans hstart) hrange hmark
  rw [if_neg hstart]
  refine ⟨(.delim c, cs), ?_, .pure (suffix_of_cons h) _⟩
  unfold Scan.next?
  split
  · next heq => cases heq
  · next heq =>
    cases heq
    exact absurd rfl (hcomment rfl)
  · next heq =>
    cases heq
    rw [hnumber, if_neg hdigit, if_neg hrange, hmark, hname, ← hspecial]
    exact if_neg hstart

theorem agrees_quoted (h : cs <:+ text.toList) {quote : Char}
    (hquote : quote = '\x22' ∨ quote = '\x27') : Agrees text (quoted quote) quote cs := by
  have hstring := takes_string quote h
  have hwithin := hstring.within
  have hnext : Scan.next? (quote :: cs) = some (takeSpecial quote cs) := by
    rcases hquote with rfl | rfl <;> rfl
  have hblank : ¬isBlank quote = true := by
    rcases hquote with rfl | rfl <;> decide
  refine ⟨_, hnext, ?_⟩
  rw [quoted, takeSpecial, if_neg hblank, if_pos hquote]
  refine hstring.bind ?_
  generalize takeString quote cs = r at hwithin ⊢
  obtain ⟨value, rest⟩ := r
  cases value <;> exact .pure hwithin _

theorem agrees_numeral (h : c :: cs <:+ text.toList)
    (hsingle : Scan.startsNumber (c :: cs) = false →
      Scan.next? (c :: cs) = some (.delim c, cs)) :
    Agrees text
      (do
        if ← startsNumber c then
          reconsume
          numeric
        else return .delim c) c cs := by
  have hcs := suffix_of_cons h
  refine .bind (takes_startsNumber hcs c) ?_
  by_cases hnumber : Scan.startsNumber (c :: cs) = true
  · rw [if_pos hnumber]
    exact agrees_numeric h hnumber
  · rw [if_neg hnumber]
    exact ⟨_, hsingle (by simpa using hnumber), .pure hcs _⟩

theorem takeMark?_eq_none (hclose : c = '-' → ∀ ds, cs ≠ '-' :: '>' :: ds)
    (hopen : c = '<' → ∀ ds, cs ≠ '!' :: '-' :: '-' :: ds)
    (hequals : c = '~' ∨ c = '|' → ∀ ds, cs ≠ '=' :: ds) : takeMark? (c :: cs) = none := by
  unfold takeMark?
  split
  · next heq =>
    cases heq
    exact absurd rfl (hclose rfl _)
  · next heq =>
    cases heq
    exact absurd rfl (hopen rfl _)
  · next heq =>
    cases heq
    exact absurd rfl (hequals (.inl rfl) _)
  · next heq =>
    cases heq
    exact absurd rfl (hequals (.inr rfl) _)
  · rfl

theorem agrees_hyphen (h : '-' :: cs <:+ text.toList) :
    Agrees text
      (do
        if ← startsNumber '-' then
          reconsume
          numeric
        else if (← peek) = some '-' && (← peekAt 1) = some '>' then
          let _ ← consume
          let _ ← consume
          return .mark .closeComment
        else if opensName (some '-') (← peek) (← peekAt 1) then
          reconsume
          named
        else return .delim '-') '-' cs := by
  have hcs := suffix_of_cons h
  refine .bind (takes_startsNumber hcs '-') ?_
  by_cases hnumber : Scan.startsNumber ('-' :: cs) = true
  · rw [if_pos hnumber]
    exact agrees_numeric h hnumber
  rw [if_neg hnumber]
  refine .bind (takes_peek hcs) (.bind (takes_peekAt hcs 1) ?_)
  by_cases hclose : ∃ ds, cs = '-' :: '>' :: ds
  · obtain ⟨ds, rfl⟩ := hclose
    have hds := suffix_of_cons hcs
    exact ⟨_, rfl,
      (takes_consume hcs).bind ((takes_consume hds).bind (.pure (suffix_of_cons hds) _))⟩
  have hmark : takeMark? ('-' :: cs) = none :=
    takeMark?_eq_none (fun _ ds hds => hclose ⟨ds, hds⟩) (by simp) (by simp)
  have hpair : ¬(decide (cs.head? = some '-') && decide (cs[1]? = some '>')) = true := by
    rcases cs with _ | ⟨c, _ | ⟨d, ds⟩⟩ <;> simp_all
  have hname : opensName (some '-') cs.head? cs[1]? = Scan.startsName ('-' :: cs) := by
    rw [← opensName_eq, List.head?_eq_getElem?]
    rfl
  rw [if_neg hpair]
  refine .bind (takes_peek hcs) (.bind (takes_peekAt hcs 1) ?_)
  rw [hname]
  by_cases hstarts : Scan.startsName ('-' :: cs) = true
  · rw [if_pos hstarts]
    exact agrees_named h hstarts (by simp) hmark
  · rw [if_neg hstarts]
    exact ⟨_, next?_special (by simpa using hnumber) (by simpa using hstarts) hmark
      ⟨by decide, by decide⟩ (.inl (by decide)), .pure hcs _⟩

/-- With an equals sign the character makes a mark, and without one it stands for itself. -/
theorem agrees_pair {m : Mark} (h : c :: cs <:+ text.toList)
    (hc : c = '~' ∧ m = .includes ∨ c = '|' ∧ m = .dashMatch) :
    Agrees text
      (do
        if (← peek) = some '=' then
          let _ ← consume
          return .mark m
        else plain c) c cs := by
  have hcs := suffix_of_cons h
  refine .bind (takes_peek hcs) ?_
  by_cases hequals : cs.head? = some '='
  · obtain ⟨ds, rfl⟩ := List.head?_eq_some_iff.1 hequals
    rw [if_pos hequals]
    rcases hc with ⟨rfl, rfl⟩ | ⟨rfl, rfl⟩
    all_goals exact ⟨_, rfl, (takes_consume hcs).bind (.pure (suffix_of_cons hcs) _)⟩
  · have hmark : takeMark? (c :: cs) = none := by
      refine takeMark?_eq_none ?_ ?_ fun _ ds hds => hequals (by rw [hds]; rfl)
      all_goals rcases hc with ⟨rfl, rfl⟩ | ⟨rfl, rfl⟩ <;> simp
    rw [if_neg hequals]
    rcases hc with ⟨rfl, rfl⟩ | ⟨rfl, rfl⟩
    all_goals exact agrees_plain h rfl rfl hmark (by simp) (by simp) rfl

theorem agrees_letter (h : c :: cs <:+ text.toList) (hc : c = 'u' ∨ c = 'U') :
    Agrees text (do if ← startsUnicodeRange then unicodeRange else plain c) c cs := by
  have hcs := suffix_of_cons h
  have hstarts : Takes text startsUnicodeRange cs (Scan.startsUnicodeRange cs) cs := by
    have heq : (decide (cs.head? = some '+') && cs[1]?.any isRangeChar) =
        Scan.startsUnicodeRange cs := by
      rcases cs with _ | ⟨c, _ | ⟨d, ds⟩⟩
      · rfl
      · simp [Scan.startsUnicodeRange]
      · by_cases hplus : c = '+' <;> simp [Scan.startsUnicodeRange, hplus]
    rw [← heq]
    exact (takes_peek hcs).bind ((takes_peekAt hcs 1).bind (.pure hcs _))
  refine .bind hstarts ?_
  by_cases hrange : Scan.startsUnicodeRange cs = true
  · obtain ⟨ds, rfl⟩ : ∃ ds, cs = '+' :: ds := by
      unfold Scan.startsUnicodeRange at hrange
      split at hrange
      · exact ⟨_, rfl⟩
      · cases hrange
    have hnext : Scan.next? (c :: '+' :: ds) =
        some (.unicodeRange (String.ofList (takeUnicodeRange ds).1), (takeUnicodeRange ds).2) := by
      rw [Scan.next?, if_neg, if_pos ⟨hc, hrange⟩]
      · rfl
      · rcases hc with rfl | rfl <;> exact Bool.false_ne_true
      · rintro es rfl -
        rcases hc with hc | hc <;> cases hc
    rw [if_pos hrange]
    exact ⟨_, hnext, takes_unicodeRange hcs⟩
  · rw [if_neg hrange]
    rcases hc with rfl | rfl
    all_goals exact agrees_plain h rfl rfl rfl (fun hboth => hrange hboth.2) (by simp) rfl

theorem agrees_slash (h : '/' :: cs <:+ text.toList) :
    Agrees text
      (do
        if (← peek) = some '*' then
          let _ ← consume
          return .comment (String.ofList (← comment))
        else plain '/') '/' cs := by
  have hcs := suffix_of_cons h
  refine .bind (takes_peek hcs) ?_
  by_cases hstar : cs.head? = some '*'
  · obtain ⟨ds, rfl⟩ := List.head?_eq_some_iff.1 hstar
    have hcomment := takes_comment (suffix_of_cons hcs)
    rw [if_pos hstar]
    exact ⟨_, next?_comment ds, (takes_consume hcs).bind (hcomment.bind (.pure hcomment.within _))⟩
  · rw [if_neg hstar]
    exact agrees_plain h rfl rfl rfl (by simp) (fun _ => hstar) rfl

theorem agrees_less (h : '<' :: cs <:+ text.toList) :
    Agrees text
      (do
        if (← peek) = some '!' && (← peekAt 1) = some '-' && (← peekAt 2) = some '-' then
          let _ ← consume
          let _ ← consume
          let _ ← consume
          return .mark .openComment
        else return .delim '<') '<' cs := by
  have hcs := suffix_of_cons h
  refine .bind (takes_peek hcs) (.bind (takes_peekAt hcs 1) (.bind (takes_peekAt hcs 2) ?_))
  by_cases hopen : ∃ ds, cs = '!' :: '-' :: '-' :: ds
  · obtain ⟨ds, rfl⟩ := hopen
    have hds := suffix_of_cons hcs
    have hes := suffix_of_cons hds
    exact ⟨_, rfl, (takes_consume hcs).bind ((takes_consume hds).bind ((takes_consume hes).bind
      (.pure (suffix_of_cons hes) _)))⟩
  have hmark : takeMark? ('<' :: cs) = none :=
    takeMark?_eq_none (by simp) (fun _ ds hds => hopen ⟨ds, hds⟩) (by simp)
  have htriple : ¬(decide (cs.head? = some '!') && decide (cs[1]? = some '-') &&
      decide (cs[2]? = some '-')) = true := by
    rcases cs with _ | ⟨c, _ | ⟨d, _ | ⟨e, ds⟩⟩⟩ <;> simp_all
  rw [if_neg htriple]
  exact ⟨_, next?_special rfl rfl hmark ⟨by decide, by decide⟩ (.inl (by decide)), .pure hcs _⟩

theorem agrees_at (h : '@' :: cs <:+ text.toList) :
    Agrees text
      (do
        if ← startsName then
          return .atKeyword (String.ofList (← name))
        else return .delim '@') '@' cs := by
  have hcs := suffix_of_cons h
  have hname := takes_name hcs
  have hnext : Scan.next? ('@' :: cs) = some (if '@' = '@' ∧ Scan.startsName cs = true then
      (.atKeyword (String.ofList (takeName cs).1), (takeName cs).2) else (.delim '@', cs)) := rfl
  refine .bind (takes_startsName hcs) ?_
  by_cases hstarts : Scan.startsName cs = true
  · rw [if_pos ⟨rfl, hstarts⟩] at hnext
    rw [if_pos hstarts]
    exact ⟨_, hnext, hname.bind (.pure hname.within _)⟩
  · rw [if_neg fun hboth => hstarts hboth.2] at hnext
    rw [if_neg hstarts]
    exact ⟨_, hnext, .pure hcs _⟩

theorem agrees_backslash (h : '\\' :: cs <:+ text.toList) :
    Agrees text
      (do
        if opensEscape (some '\\') (← peek) then
          reconsume
          named
        else return .delim '\\') '\\' cs := by
  have hcs := suffix_of_cons h
  refine .bind (takes_peek hcs) ?_
  rw [opensEscape_head?, decide_eq_true rfl, Bool.true_and]
  by_cases hescape : escapes cs = true
  · rw [if_pos hescape]
    exact agrees_named h hescape (by simp) rfl
  · rw [if_neg hescape]
    have hname : Scan.startsName ('\\' :: cs) = false := Bool.not_eq_true _ ▸ hescape
    exact ⟨_, next?_special rfl hname rfl ⟨by decide, by decide⟩
      (.inl (by decide)), .pure hcs _⟩

/-- The characters that begin lexemes of their own. -/
def leaders : List Char :=
  ['\x22', '\x27', '#', '(', ')', '+', '.', ',', '-', '/', ':', ';', '<', '@', '[', ']', '\x7b',
    '\x7d', '\\', '~', '|', '!', 'u', 'U']

theorem markOf?_eq_none (hc : c ∉ leaders) : markOf? c = none := by
  unfold markOf?
  split
  all_goals first
    | rfl
    | exact absurd (by simp [leaders]) hc

theorem agrees_other (h : c :: cs <:+ text.toList) (hblank : ¬isBlank c = true)
    (hc : c ∉ leaders) : Agrees text (plain c) c cs := by
  have hmark := markOf?_eq_none hc
  simp only [leaders, List.mem_cons, List.not_mem_nil, or_false, not_or] at hc
  refine agrees_plain h ?_ ?_ ?_ ?_ ?_ ?_
  · simp [Scan.startsNumber, startsUnsigned, startsDigit, hc]
  · simp [Scan.startsName, hc]
  · exact takeMark?_eq_none (by simp [hc]) (by simp [hc]) (by simp [hc])
  · simp [hc]
  · simp [hc]
  · simp [takeSpecial, hblank, hc, hmark]

/-- **What follows a character is taken as `Scan.next?` takes it.** -/
theorem agrees_lexeme (h : c :: cs <:+ text.toList) : Agrees text (lexeme c) c cs := by
  have hcs := suffix_of_cons h
  unfold lexeme
  by_cases hblank : isBlank c = true
  · have hblanks := takes_skipBlanks hcs
    rw [if_pos hblank]
    exact ⟨_, next?_blank hblank cs, hblanks.bind (.pure hblanks.within _)⟩
  rw [if_neg hblank]
  split
  · exact agrees_quoted hcs (.inl rfl)
  · exact agrees_quoted hcs (.inr rfl)
  · exact ⟨_, rfl, takes_hash hcs⟩
  · exact ⟨_, rfl, .pure hcs _⟩
  · exact ⟨_, rfl, .pure hcs _⟩
  · exact agrees_numeral h next?_plus
  · exact agrees_numeral h next?_point
  · exact ⟨_, rfl, .pure hcs _⟩
  · exact agrees_hyphen h
  · exact agrees_slash h
  · exact ⟨_, rfl, .pure hcs _⟩
  · exact ⟨_, rfl, .pure hcs _⟩
  · exact agrees_less h
  · exact agrees_at h
  · exact ⟨_, rfl, .pure hcs _⟩
  · exact ⟨_, rfl, .pure hcs _⟩
  · exact ⟨_, rfl, .pure hcs _⟩
  · exact ⟨_, rfl, .pure hcs _⟩
  · exact agrees_backslash h
  · exact agrees_pair h (.inl ⟨rfl, rfl⟩)
  · exact agrees_pair h (.inr ⟨rfl, rfl⟩)
  · exact ⟨_, rfl, takes_important hcs⟩
  · exact agrees_letter h (.inl rfl)
  · exact agrees_letter h (.inr rfl)
  · refine agrees_other h hblank ?_
    simp only [leaders, List.mem_cons, List.not_mem_nil, or_false, not_or]
    and_intros
    all_goals assumption

end Cursor

end Css2
