import Css2.Cursor.Part
import Css2.Proofs.Cursor.Steps
import Css2.Proofs.Token.Newlines

/-!
# The parts of a token, taken by a cursor

A cursor takes escapes, names, comments, strings and addresses as the functions of `Scan` take them
off a list of characters: it gives the same value and ends before the same characters.  The proofs
follow the recursion of those functions.
-/

namespace Css2

namespace Cursor

open Scan

variable {text : Array Char} {cs : List Char} {c : Char}

/-! ### Escapes and names -/

theorem takes_upTo (p : Char → Bool) (n : Nat) (h : cs <:+ text.toList) :
    Takes text (upTo p n) cs (takeUpTo p n cs).1 (takeUpTo p n cs).2 := by
  induction n generalizing cs with
  | zero =>
    rw [takeUpTo, upTo]
    · exact .pure h []
    · simp
  | succ n ih =>
    rw [upTo]
    refine (takes_peek h).bind ?_
    cases cs with
    | nil =>
      rw [takeUpTo]
      · exact .pure h []
      · simp
    | cons c cs =>
      have hmore := ih (suffix_of_cons h)
      rw [takeUpTo, List.head?_cons, Option.any_some]
      by_cases hc : p c = true
      · rw [if_pos hc, if_pos hc]
        refine (takes_one h).bind ?_
        exact hmore.bind (.pure hmore.within _)
      · rw [if_neg hc, if_neg hc]
        exact .pure h []

/-- Both ends of a line are taken where they make a pair, and one blank where they do not. -/
theorem takes_oneBlank (h : cs <:+ text.toList) : Takes text oneBlank cs () (dropBlank cs) := by
  rw [oneBlank]
  refine (takes_peek h).bind ((takes_peekAt h 1).bind ?_)
  have hsingle (c : Char) (ds : List Char) (hpair : ∀ es, c = '\r' → ds = '\n' :: es → False) :
      ¬(decide ((c :: ds).head? = some '\r') && decide ((c :: ds)[1]? = some '\n')) = true := by
    cases ds <;> simp_all
  fun_cases dropBlank cs with
  | case1 ds =>
    have hrest := suffix_of_cons h
    exact (takes_consume h).bind ((takes_peek hrest).bind
      ((takes_consume hrest).bind (.pure (suffix_of_cons hrest) ())))
  | case2 c ds hpair hc =>
    rw [if_neg (hsingle c ds hpair)]
    refine (takes_peek h).bind ?_
    rw [List.head?_cons, Option.any_some, if_pos hc]
    exact (takes_consume h).bind (.pure (suffix_of_cons h) ())
  | case3 c ds hpair hc =>
    rw [if_neg (hsingle c ds hpair)]
    refine (takes_peek h).bind ?_
    rw [List.head?_cons, Option.any_some, if_neg hc]
    exact .pure h ()
  | case4 => exact (takes_peek h).bind (.pure h ())

theorem takes_escaped (h : cs <:+ text.toList) :
    Takes text escaped cs (takeEscape cs).1 (takeEscape cs).2 := by
  rw [escaped]
  cases cs with
  | nil => exact takes_consume_nil.bind (.pure h _)
  | cons c cs =>
    have hrest := suffix_of_cons h
    refine (takes_consume h).bind ?_
    rw [takeEscape]
    dsimp only
    by_cases hc : isHexDigit c = true
    · have hdigits := takes_upTo isHexDigit 5 hrest
      have hblank := takes_oneBlank hdigits.within
      rw [if_pos hc, if_pos hc]
      exact hdigits.bind (hblank.bind (.pure hblank.within _))
    · rw [if_neg hc, if_neg hc]
      exact .pure hrest c

theorem opensEscape_head? (c : Char) (cs : List Char) :
    opensEscape (some c) cs.head? = (decide (c = '\\') && escapes cs) := by
  cases cs <;> simp [opensEscape, escapes]

theorem opensEscape_of_ne (hc : c ≠ '\\') (next : Option Char) :
    opensEscape (some c) next = false := by
  simp [opensEscape, hc]

theorem opensName_eq (cs : List Char) :
    opensName cs.head? cs[1]? cs[2]? = Scan.startsName cs := by
  fun_cases Scan.startsName cs with
  | case1 ds => cases ds <;> simp [opensName, opensEscape, escapes, isNameStart, isNonAscii]
  | case2 c ds hc =>
    show (isNameStart c || decide (some c = some '-') || opensEscape (some c) ds[0]?) = _
    rw [opensEscape_of_ne hc, Bool.or_false]
    simp
  | case3 ds => cases ds <;> simp [opensName, opensEscape, escapes, isNameStart, isNonAscii]
  | case4 c ds _ hdash hc =>
    by_cases hfirst : c = '-'
    · subst hfirst
      cases ds with
      | nil => rfl
      | cons d ds => exact (hdash d ds rfl rfl).elim
    · rw [List.head?_cons, opensName, if_neg hfirst, opensEscape_of_ne hc, Bool.or_false]
  | case5 => rfl

theorem takes_startsName (h : cs <:+ text.toList) :
    Takes text startsName cs (Scan.startsName cs) cs := by
  rw [startsName, ← opensName_eq]
  exact (takes_peek h).bind ((takes_peekAt h 1).bind ((takes_peekAt h 2).bind (.pure h _)))

theorem takes_name (h : cs <:+ text.toList) :
    Takes text name cs (takeName cs).1 (takeName cs).2 := by
  fun_induction takeName cs with
  | case1 =>
    rw [name]
    exact takes_consume_nil.bind (.pure h [])
  | case2 c cs hc r ih =>
    have hmore := ih (suffix_of_cons h)
    rw [name]
    refine (takes_consume h).bind ?_
    dsimp only
    rw [if_pos hc]
    exact hmore.bind (.pure hmore.within _)
  | case3 c cs hc hesc r ih =>
    have hrest := suffix_of_cons h
    have hescaped := takes_escaped hrest
    have hmore := ih hescaped.within
    rw [name]
    refine (takes_consume h).bind ?_
    dsimp only
    rw [if_neg hc]
    refine (takes_peek hrest).bind ?_
    rw [if_pos (by simpa [opensEscape_head?] using hesc)]
    exact hescaped.bind (hmore.bind (.pure hmore.within _))
  | case4 c cs hc hesc =>
    have hrest := suffix_of_cons h
    rw [name]
    refine (takes_consume h).bind ?_
    dsimp only
    rw [if_neg hc]
    refine (takes_peek hrest).bind ?_
    rw [if_neg (by simpa [opensEscape_head?] using hesc)]
    exact (takes_reconsume h).bind (.pure h [])

/-! ### Comments, strings and addresses -/

theorem takes_comment (h : cs <:+ text.toList) :
    Takes text comment cs (takeComment cs).1 (takeComment cs).2 := by
  fun_induction takeComment cs with
  | case1 cs =>
    have hslash := suffix_of_cons h
    rw [comment]
    refine (takes_consume h).bind ((takes_peek hslash).bind ?_)
    exact (takes_consume hslash).bind (.pure (suffix_of_cons hslash) [])
  | case2 c cs hne r ih =>
    have hrest := suffix_of_cons h
    have hmore := ih hrest
    have hclose : ¬(decide (c = '*') && decide (cs.head? = some '/')) = true := by
      cases cs <;> simp_all
    rw [comment]
    refine (takes_consume h).bind ((takes_peek hrest).bind ?_)
    rw [if_neg hclose]
    exact hmore.bind (.pure hmore.within _)
  | case3 =>
    rw [comment]
    exact takes_consume_nil.bind (.pure h [])

theorem isSome_dropNewline? (c : Char) (cs : List Char) :
    (dropNewline? (c :: cs)).isSome = isNewline c := by
  unfold dropNewline?
  split
  · next heq =>
    cases heq
    rfl
  · next heq =>
    cases heq
    split <;> simp_all
  · next heq => cases heq

theorem takes_hiddenBreak {rest : List Char} (h : c :: cs <:+ text.toList)
    (hbreak : dropNewline? (c :: cs) = some rest) :
    Takes text (hiddenBreak c) (c :: cs) () rest := by
  have hcs := suffix_of_cons h
  rw [hiddenBreak]
  refine (takes_consume h).bind ?_
  unfold dropNewline? at hbreak
  split at hbreak
  · next ds heq =>
    cases heq
    cases hbreak
    exact (takes_peek hcs).bind ((takes_consume hcs).bind (.pure (suffix_of_cons hcs) ()))
  · next d ds hpair heq =>
    cases heq
    split at hbreak
    · cases hbreak
      by_cases hc : c = '\r'
      · have hfeed : cs.head? ≠ some '\n' := by
          cases cs <;> simp_all
        rw [if_pos hc]
        refine (takes_peek hcs).bind ?_
        rw [if_neg hfeed]
        exact .pure hcs ()
      · rw [if_neg hc]
        exact .pure hcs ()
    · cases hbreak
  · next heq => cases heq

theorem takes_string (quote : Char) (h : cs <:+ text.toList) :
    Takes text (string quote) cs (takeString quote cs).1 (takeString quote cs).2 := by
  fun_induction takeString quote cs with
  | case1 =>
    rw [string]
    exact takes_consume_nil.bind (.pure h _)
  | case2 cs =>
    rw [string]
    refine (takes_consume h).bind ?_
    dsimp only
    rw [if_pos rfl]
    exact .pure (suffix_of_cons h) _
  | case3 c cs hquote hbreak =>
    rw [string]
    refine (takes_consume h).bind ?_
    dsimp only
    rw [if_neg hquote, if_pos hbreak]
    exact (takes_reconsume h).bind (.pure h _)
  | case4 cs rest hhidden hquote hbreak ih =>
    have hcs := suffix_of_cons h
    rw [string]
    refine (takes_consume h).bind ?_
    dsimp only
    rw [if_neg hquote, if_neg hbreak, if_pos rfl]
    refine (takes_peek hcs).bind ?_
    cases cs with
    | nil =>
      cases hhidden
      exact ih hcs
    | cons d ds =>
      have hd : isNewline d = true := by rw [← isSome_dropNewline? d ds, hhidden]; rfl
      have hskip := takes_hiddenBreak hcs hhidden
      dsimp only [List.head?_cons]
      rw [if_pos hd]
      exact hskip.bind (ih hskip.within)
  | case5 cs hhidden r hquote hbreak ih =>
    have hcs := suffix_of_cons h
    have hescaped := takes_escaped hcs
    have hmore := ih hescaped.within
    rw [string]
    refine (takes_consume h).bind ?_
    dsimp only
    rw [if_neg hquote, if_neg hbreak, if_pos rfl]
    refine (takes_peek hcs).bind ?_
    cases cs with
    | nil => cases hhidden
    | cons d ds =>
      have hd : isNewline d = false := by rw [← isSome_dropNewline? d ds, hhidden]; rfl
      dsimp only [List.head?_cons]
      rw [if_neg (by simp [hd])]
      exact hescaped.bind (hmore.bind (.pure hmore.within _))
  | case6 c cs hquote hbreak hescape r ih =>
    have hmore := ih (suffix_of_cons h)
    rw [string]
    refine (takes_consume h).bind ?_
    dsimp only
    rw [if_neg hquote, if_neg hbreak, if_neg hescape]
    exact hmore.bind (.pure hmore.within _)

theorem takes_skipBadUrl (h : cs <:+ text.toList) :
    Takes text skipBadUrl cs () (dropBadUrl cs) := by
  fun_induction dropBadUrl cs with
  | case1 =>
    rw [skipBadUrl]
    exact takes_consume_nil.bind (.pure h ())
  | case2 cs =>
    rw [skipBadUrl]
    exact (takes_consume h).bind (.pure (suffix_of_cons h) ())
  | case3 c cs hparen hescape ih =>
    have hcs := suffix_of_cons h
    have hescaped := takes_escaped hcs
    rw [skipBadUrl]
    refine (takes_consume h).bind ?_
    dsimp only
    rw [if_neg hparen]
    refine (takes_peek hcs).bind ?_
    rw [if_pos (by simpa [opensEscape_head?] using hescape)]
    exact hescaped.bind (ih hescaped.within)
  | case4 c cs hparen hescape ih =>
    have hcs := suffix_of_cons h
    rw [skipBadUrl]
    refine (takes_consume h).bind ?_
    dsimp only
    rw [if_neg hparen]
    refine (takes_peek hcs).bind ?_
    rw [if_neg (by simpa [opensEscape_head?] using hescape)]
    exact ih hcs

theorem takes_badUrl (h : cs <:+ text.toList) :
    Takes text (do skipBadUrl; return (none : Option (List Char))) cs none (dropBadUrl cs) := by
  have hskip := takes_skipBadUrl h
  exact hskip.bind (.pure hskip.within _)

theorem takes_urlEnd (h : cs <:+ text.toList) :
    Takes text urlEnd cs (endUrl (cs.dropWhile isBlank)).1 (endUrl (cs.dropWhile isBlank)).2 := by
  have hblanks := takes_skipBlanks h
  have hwithin := hblanks.within
  rw [urlEnd]
  refine hblanks.bind ((takes_peek hwithin).bind ?_)
  generalize cs.dropWhile isBlank = ds at hwithin ⊢
  cases ds with
  | nil => exact .pure hwithin _
  | cons d ds =>
    rw [endUrl]
    dsimp only [List.head?_cons]
    by_cases hparen : d = ')'
    · rw [if_pos hparen, if_pos hparen]
      exact (takes_consume hwithin).bind (.pure (suffix_of_cons hwithin) _)
    · rw [if_neg hparen, if_neg hparen]
      exact takes_badUrl hwithin

theorem takes_urlBody (h : cs <:+ text.toList) :
    Takes text urlBody cs (takeUrl cs).1 (takeUrl cs).2 := by
  induction hlen : cs.length using Nat.strongRecOn generalizing cs with
  | ind len ih =>
    rw [urlBody]
    cases cs with
    | nil =>
      rw [takeUrl]
      exact takes_consume_nil.bind (.pure h _)
    | cons c cs =>
      rw [List.length_cons] at hlen
      have hcs := suffix_of_cons h
      refine (takes_consume h).bind ?_
      dsimp only
      by_cases hblank : isBlank c = true
      · have hparen : c ≠ ')' := by
          rintro rfl
          cases hblank
        rw [takeUrl_blank hblank, if_neg hparen, if_pos hblank]
        exact takes_urlEnd hcs
      · rw [takeUrl, if_neg hblank, if_neg hblank]
        by_cases hparen : c = ')'
        · rw [if_pos hparen, if_pos hparen]
          exact .pure hcs _
        rw [if_neg hparen, if_neg hparen]
        by_cases hquote : c = '\x22' ∨ c = '\x27' ∨ c = '('
        · rw [if_pos hquote, if_pos hquote]
          exact takes_badUrl hcs
        rw [if_neg hquote, if_neg hquote]
        by_cases hescape : c = '\\'
        · rw [if_pos hescape, if_pos hescape]
          refine (takes_peek hcs).bind ?_
          rw [opensEscape_head?, decide_eq_true rfl, Bool.true_and]
          by_cases hopens : escapes cs = true
          · have hescaped := takes_escaped hcs
            have hle := takeEscape_le cs
            have hmore := ih _ (by omega) hescaped.within rfl
            rw [if_pos hopens, if_pos hopens]
            exact hescaped.bind (hmore.bind (.pure hmore.within _))
          · rw [if_neg hopens, if_neg hopens]
            exact takes_badUrl hcs
        · have hmore := ih _ (by omega) hcs rfl
          rw [if_neg hescape, if_neg hescape]
          exact hmore.bind (.pure hmore.within _)

theorem takes_url (h : cs <:+ text.toList) :
    Takes text url cs (takeUrl (cs.dropWhile isBlank)).1 (takeUrl (cs.dropWhile isBlank)).2 := by
  have hblanks := takes_skipBlanks h
  exact hblanks.bind (takes_urlBody hblanks.within)

end Cursor

end Css2
