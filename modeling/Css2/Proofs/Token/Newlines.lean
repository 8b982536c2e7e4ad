import Css2.Token.Scan
import Mathlib.Data.List.Forall2

/-!
# The forms of a line break

A style sheet may end its lines with a line feed, a carriage return, a form feed, or the pair of
carriage return and line feed, which is one line break although it is two characters.  Line breaks
matter in blanks, in strings, behind the backslash of an escape, behind its digits, in addresses, in
`! important`, in comments and in the count of lines.  `scan_unifyNewlines` says that none of these
tells the forms apart: a text with a line feed for every line break is scanned into the same lexemes
in the same lines and columns, but for the text of a comment, which is kept as it is written.

The scanner reads both texts side by side.  `InStep` says that what lies between two places of the
one text is, up to line breaks, what lies between two places of the other, and that no place is
inside of a pair.  It composes (`InStep.trans`), so for each function of the scanner it is shown
that it reads the same from both texts and leaves them in step (`SameRead`), from the classes of
characters up to `next?_alike`.  Where texts are in step their lines and columns agree
(`InStep.walk`), since the carriage return of a pair does not end a line.
-/

namespace Css2

/-- The characters with a line feed for each pair of carriage return and line feed, for each other
carriage return and for each form feed. -/
def unifyBreaks : List Char → List Char
  | '\r' :: '\n' :: cs => '\n' :: unifyBreaks cs
  | c :: cs => (if isNewline c then '\n' else c) :: unifyBreaks cs
  | [] => []

def unifyNewlines (text : String) : String :=
  String.ofList (unifyBreaks text.toList)

/-- Only comments keep the line breaks that they are written with. -/
def Lexeme.unifyNewlines : Lexeme → Lexeme
  | comment text => comment (Css2.unifyNewlines text)
  | l => l

namespace Scan

/-! ### Two texts in step -/

/-- From `cs` to `rest` and from `ds` to `rest'` there is the same to read, but where the first text
breaks a line in any way the second one has a line feed.  Neither stops inside of a pair of carriage
return and line feed. -/
inductive InStep (rest rest' : List Char) : List Char → List Char → Prop
  | refl : InStep rest rest' rest rest'
  | char {c : Char} {cs ds : List Char} : isNewline c = false → InStep rest rest' cs ds →
      InStep rest rest' (c :: cs) (c :: ds)
  | pair {cs ds : List Char} : InStep rest rest' cs ds →
      InStep rest rest' ('\r' :: '\n' :: cs) ('\n' :: ds)
  | single {c : Char} {cs ds : List Char} : isNewline c = true →
      (c = '\r' → cs.head? ≠ some '\n') → InStep rest rest' cs ds →
      InStep rest rest' (c :: cs) ('\n' :: ds)

/-- The whole texts are the same but for their line breaks. -/
abbrev Alike (cs ds : List Char) : Prop :=
  InStep [] [] cs ds

variable {α : Type} {c : Char} {cs ds rest rest' : List Char}

theorem isNewline_cases (h : isNewline c = true) : c = '\n' ∨ c = '\r' ∨ c = '\x0c' := by
  simpa [isNewline, or_assoc] using h

theorem InStep.trans {ts ts' : List Char} (h : InStep rest rest' cs ds)
    (h' : InStep ts ts' rest rest') : InStep ts ts' cs ds := by
  induction h with
  | refl => exact h'
  | char hc _ ih => exact .char hc ih
  | pair _ ih => exact .pair ih
  | single hc hr _ ih => exact .single hc hr ih

theorem alike_unifyBreaks (cs : List Char) : Alike cs (unifyBreaks cs) := by
  fun_induction unifyBreaks cs with
  | case1 cs ih => exact .pair ih
  | case2 c cs hpair ih =>
    split
    · next hc =>
      refine .single hc (fun hr hn => ?_) ih
      cases cs with
      | nil => cases hn
      | cons d cs => exact hpair cs hr (congrArg (· :: cs) (Option.some.inj hn))
    · next hc => exact .char (Bool.not_eq_true _ ▸ hc) ih
  | case3 => exact .refl

theorem Alike.eq_unifyBreaks (h : Alike cs ds) : ds = unifyBreaks cs := by
  induction h with
  | refl => rfl
  | @char c cs ds hc _ ih =>
    rw [unifyBreaks, if_neg (by simp [hc]), ih]
    rintro es rfl
    cases hc
  | pair _ ih => rw [unifyBreaks, ih]
  | @single c cs ds hc hr _ ih =>
    rw [unifyBreaks, if_pos hc, ih]
    rintro es rfl rfl
    exact hr rfl rfl

theorem InStep.alike (h : InStep rest rest' cs ds) (halike : Alike cs ds) : Alike rest rest' := by
  induction h with
  | refl => exact halike
  | char hc _ ih =>
    cases halike with
    | char _ h => exact ih h
    | single hn _ _ =>
      rw [hc] at hn
      cases hn
  | pair _ ih =>
    cases halike with
    | pair h => exact ih h
    | single _ hr _ => exact absurd rfl (hr rfl)
  | single hc hr _ ih =>
    cases halike with
    | char hn _ =>
      rw [hc] at hn
      cases hn
    | pair _ => exact absurd rfl (hr rfl)
    | single _ _ h => exact ih h

theorem InStep.length_le (h : InStep rest rest' cs ds) :
    rest.length ≤ cs.length ∧ rest'.length ≤ ds.length := by
  induction h with
  | refl => exact ⟨Nat.le_refl _, Nat.le_refl _⟩
  | char _ _ ih => exact ⟨Nat.le_succ_of_le ih.1, Nat.le_succ_of_le ih.2⟩
  | pair _ ih => exact ⟨Nat.le_succ_of_le (Nat.le_succ_of_le ih.1), Nat.le_succ_of_le ih.2⟩
  | single _ _ _ ih => exact ⟨Nat.le_succ_of_le ih.1, Nat.le_succ_of_le ih.2⟩

/-- What is read from the two texts is the same, and they stay in step. -/
structure SameRead (cs ds : List Char) (r r' : α × List Char) : Prop where
  value : r'.1 = r.1
  inStep : InStep r.2 r'.2 cs ds

theorem SameRead.nothing (a : α) : SameRead cs ds (a, cs) (a, ds) :=
  ⟨rfl, .refl⟩

theorem SameRead.alike {r r' : α × List Char} (h : SameRead cs ds r r') (halike : Alike cs ds) :
    Alike r.2 r'.2 :=
  h.inStep.alike halike

theorem SameRead.cons {x : Char} {r r' : List Char × List Char} (hc : isNewline c = false)
    (h : SameRead cs ds r r') :
    SameRead (c :: cs) (c :: ds) (x :: r.1, r.2) (x :: r'.1, r'.2) :=
  ⟨congrArg (x :: ·) h.value, .char hc h.inStep⟩

/-- Two texts that are alike begin with the same character or both of them with a line break. -/
inductive Heads : List Char → List Char → Prop
  | nil : Heads [] []
  | char {c : Char} {cs ds : List Char} : isNewline c = false → Alike cs ds →
      Heads (c :: cs) (c :: ds)
  | newline {c : Char} {cs ds : List Char} : isNewline c = true → Heads (c :: cs) ('\n' :: ds)

theorem InStep.heads (h : InStep [] [] cs ds) : Heads cs ds := by
  cases h with
  | refl => exact .nil
  | char hc h => exact .char hc h
  | pair _ => exact .newline rfl
  | single hc _ _ => exact .newline hc

theorem InStep.head?_eq_some {x : Char} (h : InStep [] [] cs ds) (hx : isNewline x = false)
    (hds : ds.head? = some x) : cs.head? = some x := by
  cases h.heads with
  | nil => exact hds
  | char _ _ => exact hds
  | newline _ =>
    cases hds
    cases hx

/-! ### Looking ahead -/

theorem escapes_alike (h : Alike cs ds) : escapes ds = escapes cs := by
  cases h.heads with
  | nil => rfl
  | char _ _ => rfl
  | newline hc =>
    rw [escapes, escapes, hc]
    rfl

theorem startsName_alike (h : Alike cs ds) : startsName ds = startsName cs := by
  cases h.heads with
  | nil => rfl
  | newline hc => rcases isNewline_cases hc with rfl | rfl | rfl <;> rfl
  | @char c cs ds _ hrest =>
    by_cases hback : c = '\\'
    · subst hback
      exact escapes_alike hrest
    · by_cases hhyphen : c = '-'
      · -- a hyphen begins a name if a name, another hyphen or an escape is behind it
        subst hhyphen
        cases hrest.heads with
        | nil => rfl
        | newline hc => rcases isNewline_cases hc with rfl | rfl | rfl <;> rfl
        | @char c cs ds _ hlast =>
          by_cases hback : c = '\\'
          · subst hback
            exact escapes_alike hlast
          · simp [startsName]
      · simp [startsName, hhyphen]

theorem startsDigit_alike (h : Alike cs ds) : startsDigit ds = startsDigit cs := by
  cases h.heads with
  | nil => rfl
  | char _ _ => rfl
  | newline hc => rcases isNewline_cases hc with rfl | rfl | rfl <;> rfl

theorem startsUnsigned_alike (h : Alike cs ds) : startsUnsigned ds = startsUnsigned cs := by
  cases h.heads with
  | nil => rfl
  | newline hc => rcases isNewline_cases hc with rfl | rfl | rfl <;> rfl
  | @char c cs ds _ hrest =>
    by_cases hpoint : c = '.'
    · subst hpoint
      exact startsDigit_alike hrest
    · simp [startsUnsigned, hpoint, startsDigit]

theorem startsNumber_alike (h : Alike cs ds) : startsNumber ds = startsNumber cs := by
  have hunsigned := startsUnsigned_alike h
  cases h.heads with
  | nil => rfl
  | newline hc => rcases isNewline_cases hc with rfl | rfl | rfl <;> rfl
  | @char c cs ds _ hrest =>
    by_cases hplus : c = '+'
    · subst hplus
      exact startsUnsigned_alike hrest
    · by_cases hminus : c = '-'
      · subst hminus
        exact startsUnsigned_alike hrest
      · simpa [startsNumber, hplus, hminus] using hunsigned

/-! ### Characters of one class -/

def BreakFree (p : Char → Bool) : Prop :=
  ∀ c, isNewline c = true → ¬ p c = true

theorem breakFree_isHexDigit : BreakFree isHexDigit := by
  intro c hc
  rcases isNewline_cases hc with rfl | rfl | rfl <;> decide

theorem breakFree_isRangeChar : BreakFree isRangeChar := by
  intro c hc
  rcases isNewline_cases hc with rfl | rfl | rfl <;> decide

theorem breakFree_isDigit : BreakFree Char.isDigit := by
  intro c hc
  rcases isNewline_cases hc with rfl | rfl | rfl <;> decide

theorem breakFree_isNameChar : BreakFree isNameChar := by
  intro c hc
  rcases isNewline_cases hc with rfl | rfl | rfl <;> decide

theorem takeUpTo_alike {p : Char → Bool} (hp : BreakFree p) (n : Nat) (h : Alike cs ds) :
    SameRead cs ds (takeUpTo p n cs) (takeUpTo p n ds) := by
  induction n generalizing cs ds with
  | zero => exact .nothing []
  | succ n ih =>
    cases h.heads with
    | nil => exact .nothing []
    | @char c cs ds hc hrest =>
      rw [takeUpTo, takeUpTo]
      split
      · exact (ih hrest).cons hc
      · exact .nothing []
    | newline hc =>
      rw [takeUpTo, takeUpTo, if_neg (hp _ hc), if_neg (hp _ rfl)]
      exact .nothing []

theorem span_alike {p : Char → Bool} (hp : BreakFree p) (h : Alike cs ds) :
    SameRead cs ds (cs.takeWhile p, cs.dropWhile p) (ds.takeWhile p, ds.dropWhile p) := by
  induction cs generalizing ds with
  | nil =>
    cases h.heads
    exact .nothing []
  | cons c cs ih =>
    cases h.heads with
    | @char c cs ds hc hrest =>
      rw [List.takeWhile_cons, List.takeWhile_cons, List.dropWhile_cons, List.dropWhile_cons]
      split
      · exact (ih hrest).cons hc
      · exact .nothing []
    | newline hc =>
      rw [List.takeWhile_cons_of_neg (hp _ hc), List.takeWhile_cons_of_neg (hp _ rfl),
        List.dropWhile_cons_of_neg (hp _ hc), List.dropWhile_cons_of_neg (hp _ rfl)]
      exact .nothing []

theorem isBlank_newline (h : isNewline c = true) : isBlank c = true := by
  rw [isBlank, h, Bool.or_true]

theorem dropBlanks_inStep (h : Alike cs ds) :
    InStep (cs.dropWhile isBlank) (ds.dropWhile isBlank) cs ds := by
  induction h with
  | refl => exact .refl
  | char hc _ ih =>
    rw [List.dropWhile_cons, List.dropWhile_cons]
    split
    · exact .char hc ih
    · exact .refl
  | pair _ ih => exact .pair ih
  | single hc hr _ ih =>
    rw [List.dropWhile_cons_of_pos (isBlank_newline hc), List.dropWhile_cons_of_pos rfl]
    exact .single hc hr ih

/-! ### Escapes and names -/

/-- The blank that may end an escape is dropped, also if it is a pair. -/
theorem dropBlank_inStep (h : Alike cs ds) : InStep (dropBlank cs) (dropBlank ds) cs ds := by
  cases h with
  | refl => exact .refl
  | @pair cs ds _ =>
    have hds : dropBlank ('\n' :: ds) = ds := rfl
    rw [dropBlank, hds]
    exact .pair .refl
  | @char c cs ds hc _ =>
    have hcs (es : List Char) : dropBlank (c :: es) = if isBlank c then es else c :: es := by
      rw [dropBlank]
      rintro fs rfl
      cases hc
    rw [hcs, hcs]
    split
    · exact .char hc .refl
    · exact .refl
  | @single c cs ds hc hr _ =>
    have hcs : dropBlank (c :: cs) = cs := by
      rw [dropBlank, if_pos (isBlank_newline hc)]
      rintro fs rfl rfl
      exact hr rfl rfl
    have hds : dropBlank ('\n' :: ds) = ds := rfl
    rw [hcs, hds]
    exact .single hc hr .refl

/-- An escape stands for the same character.  It is no escape where it begins with a line break. -/
theorem takeEscape_alike (h : Alike cs ds) (he : escapes cs = true) :
    SameRead cs ds (takeEscape cs) (takeEscape ds) := by
  cases h.heads with
  | nil => exact .nothing _
  | newline hc =>
    rw [escapes, hc] at he
    cases he
  | @char c cs ds hc hrest =>
    rw [takeEscape, takeEscape]
    split
    · have hdigits := takeUpTo_alike breakFree_isHexDigit 5 hrest
      refine ⟨?_, .char hc (hdigits.inStep.trans (dropBlank_inStep (hdigits.alike hrest)))⟩
      dsimp only
      rw [hdigits.value]
    · exact ⟨rfl, .char hc .refl⟩

theorem takeName_alike (h : Alike cs ds) : SameRead cs ds (takeName cs) (takeName ds) := by
  fun_induction takeName cs generalizing ds with
  | case1 =>
    cases h.heads
    rw [takeName]
    exact .nothing []
  | @case2 c cs hname r ih =>
    cases h.heads with
    | char hc hrest =>
      rw [takeName, if_pos hname]
      exact (ih hrest).cons hc
    | newline hc => exact absurd hname (breakFree_isNameChar _ hc)
  | @case3 c cs hname hesc r ih =>
    obtain ⟨rfl, hesc⟩ := hesc
    cases h.heads with
    | char hc hrest =>
      have he := takeEscape_alike hrest hesc
      rw [takeName, if_neg hname, if_pos ⟨rfl, (escapes_alike hrest).trans hesc⟩]
      have hr := ih (he.alike hrest)
      refine ⟨?_, .char hc (he.inStep.trans hr.inStep)⟩
      dsimp only
      rw [he.value, hr.value]
    | newline hc => cases hc
  | case4 c cs hname hesc =>
    cases h.heads with
    | char hc hrest =>
      rw [takeName, if_neg hname, if_neg (by rwa [escapes_alike hrest])]
      exact .nothing []
    | newline hc =>
      rw [takeName, if_neg (breakFree_isNameChar _ rfl), if_neg (by simp)]
      exact .nothing []

/-! ### Comments, strings and addresses -/

theorem takeComment_cons (h : c = '*' → cs.head? ≠ some '/') :
    takeComment (c :: cs) = (c :: (takeComment cs).1, (takeComment cs).2) := by
  rw [takeComment]
  rintro es rfl rfl
  exact h rfl rfl

theorem takeComment_head? (cs : List Char) {x : Char} (h : (takeComment cs).1.head? = some x) :
    cs.head? = some x := by
  unfold takeComment at h
  split at h
  · cases h
  · exact h
  · cases h

theorem takeComment_alike (h : Alike cs ds) :
    Alike (takeComment cs).1 (takeComment ds).1 ∧
      InStep (takeComment cs).2 (takeComment ds).2 cs ds := by
  induction h with
  | refl => exact ⟨.refl, .refl⟩
  | @char c cs ds hc hrest ih =>
    by_cases hend : c = '*' ∧ cs.head? = some '/'
    · obtain ⟨rfl, hslash⟩ := hend
      cases hrest with
      | refl => cases hslash
      | pair _ => cases hslash
      | char hn _ =>
        cases hslash
        exact ⟨.refl, .char hc (.char hn .refl)⟩
      | single hn _ _ =>
        cases hslash
        cases hn
    · have hcs : c = '*' → cs.head? ≠ some '/' := fun h hslash => hend ⟨h, hslash⟩
      have hds : c = '*' → ds.head? ≠ some '/' := fun h hslash =>
        hcs h (hrest.head?_eq_some rfl hslash)
      rw [takeComment_cons hcs, takeComment_cons hds]
      exact ⟨.char hc ih.1, .char hc ih.2⟩
  | pair _ ih =>
    rw [takeComment_cons (by simp), takeComment_cons (by simp), takeComment_cons (by simp)]
    exact ⟨.pair ih.1, .pair ih.2⟩
  | @single c cs ds hc hr _ ih =>
    have hstar : c ≠ '*' := by
      rintro rfl
      cases hc
    rw [takeComment_cons (by simp [hstar]), takeComment_cons (by simp)]
    exact ⟨.single hc (fun h hn => hr h (takeComment_head? cs hn)) ih.1, .single hc hr ih.2⟩

/-- A line break is hidden by a backslash in each of its forms, and a pair is hidden as a whole. -/
theorem dropNewline?_alike (h : Alike cs ds) :
    (dropNewline? cs = none ∧ dropNewline? ds = none ∧ escapes cs = true) ∨
      ∃ rest rest', dropNewline? cs = some rest ∧ dropNewline? ds = some rest' ∧
        InStep rest rest' cs ds := by
  cases h with
  | refl => exact .inr ⟨[], [], rfl, rfl, .refl⟩
  | @char c cs ds hc _ =>
    have hcs (es : List Char) : dropNewline? (c :: es) = none := by
      rw [dropNewline?, if_neg (by simp [hc])]
      rintro fs rfl
      cases hc
    exact .inl ⟨hcs cs, hcs ds, by simp [escapes, hc]⟩
  | @pair cs ds _ => exact .inr ⟨cs, ds, rfl, rfl, .pair .refl⟩
  | @single c cs ds hc hr _ =>
    have hcs : dropNewline? (c :: cs) = some cs := by
      rw [dropNewline?, if_pos hc]
      rintro fs rfl rfl
      exact hr rfl rfl
    exact .inr ⟨cs, ds, hcs, rfl, .single hc hr .refl⟩

theorem SameRead.mapCons {x : Char} {r r' : Option (List Char) × List Char}
    (hc : isNewline c = false) (h : SameRead cs ds r r') :
    SameRead (c :: cs) (c :: ds) (r.1.map (x :: ·), r.2) (r'.1.map (x :: ·), r'.2) :=
  ⟨congrArg (Option.map (x :: ·)) h.value, .char hc h.inStep⟩

theorem takeString_alike {quote : Char} (hquote : isNewline quote = false) (h : Alike cs ds) :
    SameRead cs ds (takeString quote cs) (takeString quote ds) := by
  fun_induction takeString quote cs generalizing ds with
  | case1 =>
    cases h.heads
    rw [takeString]
    exact .nothing _
  | case2 cs =>
    cases h.heads with
    | char hc _ =>
      rw [takeString, if_pos rfl]
      exact ⟨rfl, .char hc .refl⟩
    | newline hc =>
      rw [hquote] at hc
      cases hc
  | case3 c cs hq hc =>
    cases h.heads with
    | char hn _ =>
      rw [hc] at hn
      cases hn
    | newline _ =>
      have hq' : '\n' ≠ quote := by
        rintro rfl
        cases hquote
      rw [takeString, if_neg hq', if_pos (by rfl)]
      exact .nothing _
  | @case4 cs rest hrest hq hn ih =>
    cases h.heads with
    | newline hc => cases hc
    | char hc htail =>
      obtain ⟨hnone, -, -⟩ | ⟨rest, rest', hsome, hsome', hstep⟩ := dropNewline?_alike htail
      · rw [hnone] at hrest
        cases hrest
      · rw [hsome] at hrest
        cases hrest
        have hr := ih (hstep.alike htail)
        rw [takeString_hidden hq hsome']
        exact ⟨hr.value, .char hc (hstep.trans hr.inStep)⟩
  | @case5 cs hnone r hq hn ih =>
    cases h.heads with
    | newline hc => cases hc
    | char hc htail =>
      obtain ⟨-, hnone', hesc⟩ | ⟨rest, rest', hsome, -, -⟩ := dropNewline?_alike htail
      · have he := takeEscape_alike htail hesc
        have hr := ih (he.alike htail)
        rw [takeString_backslash hq hnone']
        refine ⟨?_, .char hc (he.inStep.trans hr.inStep)⟩
        dsimp only
        rw [he.value, hr.value]
      · rw [hnone] at hsome
        cases hsome
  | @case6 c cs hq hn hback r ih =>
    cases h.heads with
    | newline hc => exact absurd hc hn
    | char hc htail =>
      rw [takeString, if_neg hq, if_neg hn, if_neg hback]
      exact (ih htail).mapCons hc

theorem dropBadUrl_break (h : isNewline c = true) : dropBadUrl (c :: cs) = dropBadUrl cs := by
  have hparen : c ≠ ')' := by
    rintro rfl
    cases h
  have hback : ¬(c = '\\' ∧ escapes cs = true) := by
    rintro ⟨rfl, -⟩
    cases h
  rw [dropBadUrl, if_neg hparen, if_neg hback]

theorem dropBadUrl_inStep (h : Alike cs ds) : InStep (dropBadUrl cs) (dropBadUrl ds) cs ds := by
  -- an escape takes several characters at once, so the induction is on the length
  induction hlen : cs.length using Nat.strongRecOn generalizing cs ds with
  | ind len ih =>
    cases h with
    | refl =>
      rw [dropBadUrl]
      exact .refl
    | @char c cs ds hc hrest =>
      rw [List.length_cons] at hlen
      rw [dropBadUrl, dropBadUrl, escapes_alike hrest]
      split
      · exact .char hc .refl
      · split
        · next hesc =>
          have he := takeEscape_alike hrest hesc.2
          have hle := takeEscape_le cs
          exact .char hc (he.inStep.trans (ih _ (by omega) (he.alike hrest) rfl))
        · exact .char hc (ih _ (by omega) hrest rfl)
    | @pair cs ds hrest =>
      simp only [List.length_cons] at hlen
      rw [dropBadUrl_break rfl, dropBadUrl_break rfl, dropBadUrl_break rfl]
      exact .pair (ih _ (by omega) hrest rfl)
    | single hc hr hrest =>
      rw [List.length_cons] at hlen
      rw [dropBadUrl_break hc, dropBadUrl_break rfl]
      exact .single hc hr (ih _ (by omega) hrest rfl)

def endUrl : List Char → Option (List Char) × List Char
  | [] => (some [], [])
  | c :: cs => if c = ')' then (some [], cs) else (none, dropBadUrl (c :: cs))

theorem takeUrl_blank (h : isBlank c = true) :
    takeUrl (c :: cs) = endUrl (cs.dropWhile isBlank) := by
  have hparen : c ≠ ')' := by
    rintro rfl
    cases h
  rw [takeUrl, if_neg hparen, if_pos h]
  cases cs.dropWhile isBlank <;> rfl

theorem endUrl_alike (h : Alike cs ds) : SameRead cs ds (endUrl cs) (endUrl ds) := by
  have hbad := dropBadUrl_inStep h
  cases h.heads with
  | nil => exact .nothing _
  | char hc hrest =>
    rw [endUrl, endUrl]
    split
    · exact ⟨rfl, .char hc .refl⟩
    · exact ⟨rfl, hbad⟩
  | @newline c cs ds hc =>
    have hparen : c ≠ ')' := by
      rintro rfl
      cases hc
    rw [endUrl, endUrl, if_neg hparen, if_neg (by decide)]
    exact ⟨rfl, hbad⟩

theorem takeUrl_alike_blank {d : Char} (h : Alike (c :: cs) (d :: ds)) (hc : isBlank c = true)
    (hd : isBlank d = true) :
    SameRead (c :: cs) (d :: ds) (takeUrl (c :: cs)) (takeUrl (d :: ds)) := by
  have hblanks := dropBlanks_inStep h
  have hend := endUrl_alike (hblanks.alike h)
  rw [List.dropWhile_cons_of_pos hc, List.dropWhile_cons_of_pos hd] at hblanks hend
  rw [takeUrl_blank hc, takeUrl_blank hd]
  exact ⟨hend.value, hblanks.trans hend.inStep⟩

theorem takeUrl_alike (h : Alike cs ds) : SameRead cs ds (takeUrl cs) (takeUrl ds) := by
  induction hlen : cs.length using Nat.strongRecOn generalizing cs ds with
  | ind len ih =>
    cases h.heads with
    | nil =>
      rw [takeUrl]
      exact .nothing _
    | newline hc => exact takeUrl_alike_blank h (isBlank_newline hc) rfl
    | @char c cs ds hc hrest =>
      have hbad := dropBadUrl_inStep hrest
      rw [List.length_cons] at hlen
      by_cases hb : isBlank c = true
      · exact takeUrl_alike_blank h hb hb
      · rw [takeUrl, takeUrl, if_neg hb, if_neg hb, escapes_alike hrest]
        split
        · exact ⟨rfl, .char hc .refl⟩
        · split
          · exact ⟨rfl, .char hc hbad⟩
          · split
            · split
              · next hesc =>
                have he := takeEscape_alike hrest hesc
                have hle := takeEscape_le cs
                have hr := ih _ (by omega) (he.alike hrest) rfl
                refine ⟨?_, .char hc (he.inStep.trans hr.inStep)⟩
                dsimp only
                rw [he.value, hr.value]
              · exact ⟨rfl, .char hc hbad⟩
            · exact (ih _ (by omega) hrest rfl).mapCons hc

/-! ### Numbers -/

theorem takeSign_alike (h : Alike cs ds) : SameRead cs ds (takeSign cs) (takeSign ds) := by
  cases h.heads with
  | nil => exact .nothing _
  | newline hc => rcases isNewline_cases hc with rfl | rfl | rfl <;> exact .nothing _
  | @char c cs ds hc _ =>
    by_cases hplus : c = '+'
    · subst hplus
      exact ⟨rfl, .char hc .refl⟩
    · by_cases hminus : c = '-'
      · subst hminus
        exact ⟨rfl, .char hc .refl⟩
      · have hcs (es : List Char) : takeSign (c :: es) = (false, c :: es) := by
          simp [takeSign, hplus, hminus]
        rw [hcs, hcs]
        exact .nothing _

theorem takeFraction_alike (h : Alike cs ds) :
    SameRead cs ds (takeFraction cs) (takeFraction ds) := by
  cases h.heads with
  | nil => exact .nothing _
  | newline hc => rcases isNewline_cases hc with rfl | rfl | rfl <;> exact .nothing _
  | @char c cs ds hc hrest =>
    by_cases hpoint : c = '.'
    · subst hpoint
      rw [takeFraction, takeFraction, startsDigit_alike hrest]
      split
      · have hdigits := span_alike breakFree_isDigit hrest
        exact ⟨hdigits.value, .char hc hdigits.inStep⟩
      · exact .nothing _
    · have hcs (es : List Char) : takeFraction (c :: es) = ([], c :: es) := by
        simp [takeFraction, hpoint]
      rw [hcs, hcs]
      exact .nothing _

theorem takeExponent_alike (h : Alike cs ds) :
    SameRead cs ds (takeExponent cs) (takeExponent ds) := by
  cases h.heads with
  | nil => exact .nothing _
  | newline hc => rcases isNewline_cases hc with rfl | rfl | rfl <;> exact .nothing _
  | @char c cs ds hc hrest =>
    have hsign := takeSign_alike hrest
    have hdigits := span_alike breakFree_isDigit (hsign.alike hrest)
    rw [takeExponent, takeExponent]
    dsimp only
    rw [hsign.value, startsDigit_alike (hsign.alike hrest)]
    split
    · refine ⟨?_, .char hc (hsign.inStep.trans hdigits.inStep)⟩
      have hvalue := hdigits.value
      dsimp only at hvalue ⊢
      rw [hvalue]
    · exact .nothing _

theorem takeNumber_alike (h : Alike cs ds) : SameRead cs ds (takeNumber cs) (takeNumber ds) := by
  have hsign := takeSign_alike h
  have halike := hsign.alike h
  have hwhole := span_alike breakFree_isDigit halike
  have hfraction := takeFraction_alike (hwhole.alike halike)
  have hexponent := takeExponent_alike (hfraction.alike (hwhole.alike halike))
  refine ⟨?_, hsign.inStep.trans (hwhole.inStep.trans (hfraction.inStep.trans hexponent.inStep))⟩
  have hvalue := hwhole.value
  dsimp only at hvalue hfraction hexponent
  rw [takeNumber, takeNumber]
  dsimp only
  rw [hsign.value, hvalue, hfraction.value, hexponent.value]

/-! ### Lexemes of several parts -/

/-- The lexemes at the front of the two texts are the same, but for the line breaks of a comment. -/
abbrev SameLexeme (cs ds : List Char) (r r' : Lexeme × List Char) : Prop :=
  SameRead cs ds (r.1.unifyNewlines, r.2) r'

theorem SameLexeme.char {r r' : Lexeme × List Char} (hc : isNewline c = false)
    (h : SameLexeme cs ds r r') : SameLexeme (c :: cs) (c :: ds) r r' :=
  ⟨h.value, .char hc h.inStep⟩

theorem takeNumeric_alike (h : Alike cs ds) :
    SameLexeme cs ds (takeNumeric cs) (takeNumeric ds) := by
  have hnumber := takeNumber_alike h
  have halike := hnumber.alike h
  have hunit := takeName_alike halike
  rw [takeNumeric, takeNumeric]
  dsimp only
  rw [startsName_alike halike, hnumber.value]
  split
  · refine ⟨?_, hnumber.inStep.trans hunit.inStep⟩
    dsimp only [Lexeme.unifyNewlines]
    rw [hunit.value]
  · have hstep := hnumber.inStep
    generalize (takeNumber cs).2 = rest at halike hstep ⊢
    generalize (takeNumber ds).2 = rest' at halike hstep ⊢
    cases halike.heads with
    | nil => exact ⟨rfl, hstep⟩
    | newline hc => rcases isNewline_cases hc with rfl | rfl | rfl <;> exact ⟨rfl, hstep⟩
    | @char c rest rest' hc _ =>
      by_cases hpercent : c = '%'
      · subst hpercent
        exact ⟨rfl, hstep.trans (.char hc .refl)⟩
      · split
        · next heq =>
          cases heq
          exact absurd rfl hpercent
        · split
          · next heq =>
            cases heq
            exact absurd rfl hpercent
          · exact ⟨rfl, hstep⟩

theorem startsQuoted_alike (h : Alike cs ds) : startsQuoted ds = startsQuoted cs := by
  have halike := (dropBlanks_inStep h).alike h
  rw [startsQuoted, startsQuoted]
  generalize cs.dropWhile isBlank = rest at halike ⊢
  generalize ds.dropWhile isBlank = rest' at halike ⊢
  cases halike.heads with
  | nil => rfl
  | char _ _ => rfl
  | newline hc => rcases isNewline_cases hc with rfl | rfl | rfl <;> rfl

/-- What follows a name: the rest of an address, or the parenthesis of a function, or nothing. -/
def endNamed (text : String) : List Char → Lexeme × List Char
  | '(' :: rest =>
    if sameName text "url" && !startsQuoted rest then
      match takeUrl (rest.dropWhile isBlank) with
      | (some value, rest) => (.url (String.ofList value), rest)
      | (none, rest) => (.badUrl, rest)
    else (.function text, rest)
  | rest => (.ident text, rest)

theorem takeNamed_eq (cs : List Char) :
    takeNamed cs = endNamed (String.ofList (takeName cs).1) (takeName cs).2 := rfl

theorem endNamed_alike (text : String) (h : Alike cs ds) :
    SameLexeme cs ds (endNamed text cs) (endNamed text ds) := by
  cases h.heads with
  | nil => exact ⟨rfl, .refl⟩
  | newline hc => rcases isNewline_cases hc with rfl | rfl | rfl <;> exact ⟨rfl, .refl⟩
  | @char c cs ds hc hrest =>
    by_cases hparen : c = '('
    · subst hparen
      have hblanks := dropBlanks_inStep hrest
      have hurl := takeUrl_alike (hblanks.alike hrest)
      rw [endNamed, endNamed, startsQuoted_alike hrest]
      split
      · have hstep := hblanks.trans hurl.inStep
        have hvalue := hurl.value
        generalize takeUrl (cs.dropWhile isBlank) = r at hvalue hstep ⊢
        generalize takeUrl (ds.dropWhile isBlank) = r' at hvalue hstep ⊢
        obtain ⟨value, rest⟩ := r
        obtain ⟨value', rest'⟩ := r'
        cases hvalue
        cases value <;> exact ⟨rfl, .char hc hstep⟩
      · exact ⟨rfl, .char hc .refl⟩
    · have hcs (es : List Char) : endNamed text (c :: es) = (.ident text, c :: es) := by
        simp [endNamed, hparen]
      rw [hcs, hcs]
      exact ⟨rfl, .refl⟩

theorem takeNamed_alike (h : Alike cs ds) : SameLexeme cs ds (takeNamed cs) (takeNamed ds) := by
  have hname := takeName_alike h
  have hend := endNamed_alike (String.ofList (takeName cs).1) (hname.alike h)
  rw [takeNamed_eq, takeNamed_eq, hname.value]
  exact ⟨hend.value, hname.inStep.trans hend.inStep⟩

/-! ### Trivia and what is behind them -/

theorem dropTrivia_blank (h : isBlank c = true) : dropTrivia (c :: cs) = dropTrivia cs := by
  rw [dropTrivia, if_pos h]
  rintro es rfl
  cases h

theorem dropTrivia_of_ne (h : isBlank c = false) (hcomment : c = '/' → cs.head? ≠ some '*') :
    dropTrivia (c :: cs) = c :: cs := by
  rw [dropTrivia, if_neg (by simp [h])]
  rintro es rfl rfl
  exact hcomment rfl rfl

theorem comment_alike (hc : isNewline c = false) (h : Alike cs ds) :
    (∃ es fs, c = '/' ∧ cs = '*' :: es ∧ ds = '*' :: fs ∧ Alike es fs) ∨
      (c = '/' → cs.head? ≠ some '*') ∧ (c = '/' → ds.head? ≠ some '*') := by
  by_cases hcomment : c = '/' ∧ cs.head? = some '*'
  · obtain ⟨rfl, hstar⟩ := hcomment
    cases h.heads with
    | nil => cases hstar
    | char _ hrest =>
      cases hstar
      exact .inl ⟨_, _, rfl, rfl, rfl, hrest⟩
    | newline hn =>
      cases hstar
      cases hn
  · exact .inr ⟨fun hslash hstar => hcomment ⟨hslash, hstar⟩,
      fun hslash hstar => hcomment ⟨hslash, h.head?_eq_some rfl hstar⟩⟩

theorem dropTrivia_inStep (h : Alike cs ds) : InStep (dropTrivia cs) (dropTrivia ds) cs ds := by
  induction hlen : cs.length using Nat.strongRecOn generalizing cs ds with
  | ind len ih =>
    cases h with
    | refl =>
      rw [dropTrivia]
      exact .refl
    | @char c cs ds hc hrest =>
      rw [List.length_cons] at hlen
      obtain ⟨es, fs, rfl, rfl, rfl, hbody⟩ | ⟨hcs, hds⟩ := comment_alike hc hrest
      · have hcomment := (takeComment_alike hbody).2
        have hle := takeComment_le es
        rw [List.length_cons] at hlen
        rw [dropTrivia, dropTrivia]
        have hbehind := ih _ (by omega) (hcomment.alike hbody) rfl
        exact .char hc (.char rfl (hcomment.trans hbehind))
      · cases hb : isBlank c with
        | true =>
          rw [dropTrivia_blank hb, dropTrivia_blank hb]
          exact .char hc (ih _ (by omega) hrest rfl)
        | false =>
          rw [dropTrivia_of_ne hb hcs, dropTrivia_of_ne hb hds]
          exact .refl
    | @pair cs ds hrest =>
      simp only [List.length_cons] at hlen
      rw [dropTrivia_blank rfl, dropTrivia_blank rfl, dropTrivia_blank rfl]
      exact .pair (ih _ (by omega) hrest rfl)
    | single hc hr hrest =>
      rw [List.length_cons] at hlen
      rw [dropTrivia_blank (isBlank_newline hc), dropTrivia_blank rfl]
      exact .single hc hr (ih _ (by omega) hrest rfl)

theorem takeImportant_alike (h : Alike cs ds) :
    SameLexeme cs ds (takeImportant cs) (takeImportant ds) := by
  have htrivia := dropTrivia_inStep h
  have halike := htrivia.alike h
  have hname := takeName_alike halike
  rw [takeImportant, takeImportant]
  rw [startsName_alike halike, hname.value]
  split
  · exact ⟨rfl, htrivia.trans hname.inStep⟩
  · exact ⟨rfl, .refl⟩

theorem startsUnicodeRange_alike (h : Alike cs ds) :
    startsUnicodeRange ds = startsUnicodeRange cs := by
  cases h.heads with
  | nil => rfl
  | newline hc => rcases isNewline_cases hc with rfl | rfl | rfl <;> rfl
  | @char c cs ds _ hrest =>
    by_cases hplus : c = '+'
    · subst hplus
      cases hrest.heads with
      | nil => rfl
      | char _ _ => rfl
      | newline hc => rcases isNewline_cases hc with rfl | rfl | rfl <;> rfl
    · simp [startsUnicodeRange, hplus]

theorem dropPlus_alike (h : Alike cs ds) (hrange : startsUnicodeRange cs = true) :
    Alike (cs.drop 1) (ds.drop 1) ∧ InStep (cs.drop 1) (ds.drop 1) cs ds := by
  cases h.heads with
  | nil => cases hrange
  | char hc hrest => exact ⟨hrest, .char hc .refl⟩
  | newline hc => rcases isNewline_cases hc with rfl | rfl | rfl <;> cases hrange

def endRange (first : List Char) : List Char → List Char × List Char
  | '-' :: c :: rest =>
    if isHexDigit c && !first.contains '?' then
      let second := takeUpTo isHexDigit 6 (c :: rest)
      (first ++ '-' :: second.1, second.2)
    else (first, '-' :: c :: rest)
  | rest => (first, rest)

theorem takeUnicodeRange_eq (cs : List Char) :
    takeUnicodeRange cs =
      endRange (takeUpTo isRangeChar 6 cs).1 (takeUpTo isRangeChar 6 cs).2 := by
  rw [takeUnicodeRange]
  dsimp only
  split
  · next heq => rw [heq, endRange, ← heq]
  · next hne =>
    rw [endRange]
    exact hne

theorem endRange_alike (first : List Char) (h : Alike cs ds) :
    SameRead cs ds (endRange first cs) (endRange first ds) := by
  cases h.heads with
  | nil => exact .nothing _
  | newline hc => rcases isNewline_cases hc with rfl | rfl | rfl <;> exact .nothing _
  | @char c cs ds hc hrest =>
    by_cases hhyphen : c = '-'
    · subst hhyphen
      cases hrest.heads with
      | nil => exact .nothing _
      | newline hc =>
        rcases isNewline_cases hc with rfl | rfl | rfl <;> exact .nothing _
      | char hn hlast =>
        have hdigits := takeUpTo_alike breakFree_isHexDigit 6 hrest
        rw [endRange, endRange]
        split
        · refine ⟨?_, .char hc hdigits.inStep⟩
          dsimp only
          rw [hdigits.value]
        · exact .nothing _
    · have hcs (es : List Char) : endRange first (c :: es) = (first, c :: es) := by
        simp [endRange, hhyphen]
      rw [hcs, hcs]
      exact .nothing _

theorem takeUnicodeRange_alike (h : Alike cs ds) :
    SameRead cs ds (takeUnicodeRange cs) (takeUnicodeRange ds) := by
  have hfirst := takeUpTo_alike breakFree_isRangeChar 6 h
  have hend := endRange_alike (takeUpTo isRangeChar 6 cs).1 (hfirst.alike h)
  rw [takeUnicodeRange_eq, takeUnicodeRange_eq, hfirst.value]
  exact ⟨hend.value, hfirst.inStep.trans hend.inStep⟩

/-! ### The next lexeme -/

theorem continuesName_alike (h : Alike cs ds) : continuesName ds = continuesName cs := by
  cases h.heads with
  | nil => rfl
  | newline hc => rcases isNewline_cases hc with rfl | rfl | rfl <;> rfl
  | @char c cs ds _ hrest =>
    by_cases hback : c = '\\'
    · subst hback
      exact escapes_alike hrest
    · simp [continuesName]

theorem takeHash_alike (h : Alike cs ds) : SameLexeme cs ds (takeHash cs) (takeHash ds) := by
  have hname := takeName_alike h
  rw [takeHash, takeHash, continuesName_alike h]
  split
  · refine ⟨?_, hname.inStep⟩
    dsimp only [Lexeme.unifyNewlines]
    rw [hname.value, startsName_alike h]
  · exact ⟨rfl, .refl⟩

/-- A mark of several characters is told by its own text, which has no line break. -/
theorem takeMark?_eq_some {m : Mark} {rest : List Char} (h : takeMark? cs = some (m, rest)) :
    cs = m.text.toList ++ rest ∧ (∀ es, takeMark? (m.text.toList ++ es) = some (m, es)) ∧
      ∀ x ∈ m.text.toList, isNewline x = false := by
  unfold takeMark? at h
  split at h
  · cases h
    exact ⟨rfl, fun _ => rfl, by simp [Mark.text, isNewline]⟩
  · cases h
    exact ⟨rfl, fun _ => rfl, by simp [Mark.text, isNewline]⟩
  · cases h
    exact ⟨rfl, fun _ => rfl, by simp [Mark.text, isNewline]⟩
  · cases h
    exact ⟨rfl, fun _ => rfl, by simp [Mark.text, isNewline]⟩
  · cases h

/-- A text without line breaks at the front of one text is at the front of the other one. -/
theorem alike_append {start : List Char} (hstart : ∀ x ∈ start, isNewline x = false)
    (h : Alike (start ++ cs) ds) : ∃ es, ds = start ++ es ∧ InStep cs es (start ++ cs) ds := by
  induction start generalizing ds with
  | nil => exact ⟨ds, rfl, .refl⟩
  | cons x start ih =>
    have hx := hstart x List.mem_cons_self
    cases h.heads with
    | char _ hrest =>
      obtain ⟨es, rfl, hstep⟩ := ih (fun y hy => hstart y (List.mem_cons_of_mem x hy)) hrest
      exact ⟨es, rfl, .char hx hstep⟩
    | newline hn =>
      rw [hx] at hn
      cases hn

theorem append_alike {start : List Char} (hstart : ∀ x ∈ start, isNewline x = false)
    (h : Alike cs (start ++ ds)) : ∃ es, cs = start ++ es := by
  induction start generalizing cs with
  | nil => exact ⟨cs, rfl⟩
  | cons x start ih =>
    have hx := hstart x List.mem_cons_self
    cases h.heads with
    | char _ hrest =>
      obtain ⟨es, rfl⟩ := ih (fun y hy => hstart y (List.mem_cons_of_mem x hy)) hrest
      exact ⟨es, rfl⟩
    | newline _ => cases hx

theorem takeMark?_alike (h : Alike cs ds) :
    (takeMark? cs = none ∧ takeMark? ds = none) ∨
      ∃ m rest rest', takeMark? cs = some (m, rest) ∧ takeMark? ds = some (m, rest') ∧
        InStep rest rest' cs ds := by
  cases hcs : takeMark? cs with
  | some r =>
    obtain ⟨m, rest⟩ := r
    obtain ⟨rfl, hmark, hfree⟩ := takeMark?_eq_some hcs
    obtain ⟨es, rfl, hstep⟩ := alike_append hfree h
    exact .inr ⟨m, rest, es, rfl, hmark es, hstep⟩
  | none =>
    cases hds : takeMark? ds with
    | none => exact .inl ⟨rfl, rfl⟩
    | some r =>
      -- the mark would be at the front of the first text as well
      obtain ⟨m, rest⟩ := r
      obtain ⟨rfl, hmark, hfree⟩ := takeMark?_eq_some hds
      obtain ⟨es, rfl⟩ := append_alike hfree h
      rw [hmark] at hcs
      cases hcs

theorem takeSpecial_alike (hc : isNewline c = false) (h : Alike cs ds) :
    SameLexeme cs ds (takeSpecial c cs) (takeSpecial c ds) := by
  rw [takeSpecial, takeSpecial, startsName_alike h]
  split
  · exact ⟨rfl, dropBlanks_inStep h⟩
  · split
    · have hstring := takeString_alike hc h
      have hvalue := hstring.value
      have hstep := hstring.inStep
      generalize takeString c cs = r at hvalue hstep ⊢
      generalize takeString c ds = r' at hvalue hstep ⊢
      obtain ⟨value, rest⟩ := r
      obtain ⟨value', rest'⟩ := r'
      cases hvalue
      cases value <;> exact ⟨rfl, hstep⟩
    · split
      · exact takeHash_alike h
      · split
        · exact takeImportant_alike h
        · split
          · have hname := takeName_alike h
            refine ⟨?_, hname.inStep⟩
            dsimp only [Lexeme.unifyNewlines]
            rw [hname.value]
          · split <;> exact ⟨rfl, .refl⟩

theorem next?_newline (h : isNewline c = true) :
    next? (c :: cs) = some (.whitespace, (c :: cs).dropWhile isBlank) := by
  rw [List.dropWhile_cons_of_pos (isBlank_newline h)]
  rcases isNewline_cases h with rfl | rfl | rfl <;> rfl

theorem next?_comment (cs : List Char) :
    next? ('/' :: '*' :: cs) =
      some (.comment (String.ofList (takeComment cs).1), (takeComment cs).2) :=
  rfl

/-- **The next lexeme is the same in whatever form lines are broken.** -/
theorem next?_alike (h : Alike cs ds) :
    (cs = [] ∧ ds = []) ∨
      ∃ r r', next? cs = some r ∧ next? ds = some r' ∧ SameLexeme cs ds r r' := by
  cases h.heads with
  | nil => exact .inl ⟨rfl, rfl⟩
  | newline hc =>
    exact .inr ⟨_, _, next?_newline hc, next?_newline rfl, rfl, dropBlanks_inStep h⟩
  | @char c cs ds hc hrest =>
    refine .inr ?_
    obtain ⟨es, fs, rfl, rfl, rfl, hbody⟩ | ⟨hcs, hds⟩ := comment_alike hc hrest
    · obtain ⟨htext, hstep⟩ := takeComment_alike hbody
      refine ⟨_, _, next?_comment es, next?_comment fs, ?_, .char rfl (.char rfl hstep)⟩
      rw [htext.eq_unifyBreaks]
      simp [Lexeme.unifyNewlines, unifyNewlines]
    · rw [next?, next?, startsNumber_alike h, startsUnicodeRange_alike hrest, startsName_alike h]
      · split
        · exact ⟨_, _, rfl, rfl, takeNumeric_alike h⟩
        · split
          · next hrange =>
            obtain ⟨hdrop, hdropped⟩ := dropPlus_alike hrest hrange.2
            have hread := takeUnicodeRange_alike hdrop
            refine ⟨_, _, rfl, rfl, ?_, .char hc (hdropped.trans hread.inStep)⟩
            dsimp only [Lexeme.unifyNewlines]
            rw [hread.value]
          · obtain ⟨hm, hm'⟩ | ⟨m, rest, rest', hm, hm', hstep⟩ := takeMark?_alike h
            · rw [hm, hm']
              dsimp only
              split
              · exact ⟨_, _, rfl, rfl, takeNamed_alike h⟩
              · exact ⟨_, _, rfl, rfl, (takeSpecial_alike hc hrest).char hc⟩
            · rw [hm, hm']
              exact ⟨_, _, rfl, rfl, rfl, hstep⟩
      · rintro es rfl rfl
        exact hds rfl rfl
      · rintro es rfl rfl
        exact hcs rfl rfl

end Scan

/-! ### Lines and columns -/

/-- The two positions are in the same line and column. -/
def Location.SamePlace (loc loc' : Location) : Prop :=
  loc'.line = loc.line ∧ loc'.column = loc.column

variable {loc loc' : Location} {cs ds rest rest' : List Char}

theorem Location.walk_zero (loc : Location) (cs : List Char) : loc.walk cs 0 = loc := by
  cases cs <;> rfl

theorem Location.walk_cons {n : Nat} (loc : Location) (c : Char) (cs : List Char)
    (h : n ≤ cs.length) :
    loc.walk (c :: cs) ((c :: cs).length - n) = (loc.step c cs.head?).walk cs (cs.length - n) := by
  rw [List.length_cons, Nat.succ_sub h, Location.walk]

theorem Location.SamePlace.step_char {c : Char} {next next' : Option Char}
    (hc : isNewline c = false) (h : loc.SamePlace loc') :
    (loc.step c next).SamePlace (loc'.step c next') := by
  have hends (next : Option Char) : endsLine c next = false := by
    simp only [isNewline, Bool.or_eq_false_iff, decide_eq_false_iff_not] at hc
    simp [endsLine, hc]
  rw [Location.step, Location.step, hends, hends]
  exact ⟨h.1, congrArg (· + 1) h.2⟩

theorem Location.SamePlace.step_newline {c : Char} {next next' : Option Char}
    (hc : isNewline c = true) (hr : c = '\r' → next ≠ some '\n') (h : loc.SamePlace loc') :
    (loc.step c next).SamePlace (loc'.step '\n' next') := by
  have hends : endsLine c next = true := by
    rcases Scan.isNewline_cases hc with rfl | rfl | rfl
    · rfl
    · simpa [endsLine] using hr rfl
    · rfl
  have hends' : endsLine '\n' next' = true := rfl
  rw [Location.step, Location.step, hends, hends']
  exact ⟨congrArg (· + 1) h.1, rfl⟩

theorem Scan.InStep.walk (h : Scan.InStep rest rest' cs ds) (hloc : loc.SamePlace loc') :
    (loc.walk cs (cs.length - rest.length)).SamePlace
      (loc'.walk ds (ds.length - rest'.length)) := by
  induction h generalizing loc loc' with
  | refl =>
    rw [Nat.sub_self, Nat.sub_self, Location.walk_zero, Location.walk_zero]
    exact hloc
  | char hc h ih =>
    rw [Location.walk_cons _ _ _ h.length_le.1, Location.walk_cons _ _ _ h.length_le.2]
    exact ih (hloc.step_char hc)
  | @pair cs ds h ih =>
    -- the carriage return moves on in its line, which the line feed then ends
    rw [Location.walk_cons _ _ _ (Nat.le_succ_of_le h.length_le.1),
      Location.walk_cons _ _ _ h.length_le.1, Location.walk_cons _ _ _ h.length_le.2]
    exact ih ⟨congrArg (· + 1) hloc.1, rfl⟩
  | single hc hr h ih =>
    rw [Location.walk_cons _ _ _ h.length_le.1, Location.walk_cons _ _ _ h.length_le.2]
    exact ih (hloc.step_newline hc hr)

/-! ### Whole texts -/

/-- The second token says what the first one does, but for the line breaks of a comment, and stands
in the same line and column. -/
structure Token.SameBut (t t' : Token) : Prop where
  lexeme : t'.lexeme = t.lexeme.unifyNewlines
  place : t.loc.SamePlace t'.loc

theorem scanFrom_eq (loc : Location) {cs rest : List Char} {l : Lexeme}
    (h : Scan.next? cs = some (l, rest)) :
    scanFrom loc cs = ⟨l, loc⟩ :: scanFrom (loc.walk cs (cs.length - rest.length)) rest := by
  rw [scanFrom]
  split
  · next heq =>
    rw [h] at heq
    cases heq
  · next heq =>
    rw [h] at heq
    cases heq
    rfl

theorem scanFrom_alike (h : Scan.Alike cs ds) (hloc : loc.SamePlace loc') :
    List.Forall₂ Token.SameBut (scanFrom loc cs) (scanFrom loc' ds) := by
  induction hlen : cs.length using Nat.strongRecOn generalizing cs ds loc loc' with
  | ind len ih =>
    obtain ⟨rfl, rfl⟩ | ⟨⟨l, rest⟩, ⟨l', rest'⟩, hcs, hds, hread⟩ := Scan.next?_alike h
    · rw [scanFrom, scanFrom]
      exact .nil
    · rw [scanFrom_eq loc hcs, scanFrom_eq loc' hds]
      exact .cons ⟨hread.value, hloc⟩
        (ih _ (hlen ▸ Scan.next?_lt hcs) (hread.alike h) (hread.inStep.walk hloc) rfl)

theorem alike_unifyNewlines (text : String) :
    Scan.Alike text.toList (unifyNewlines text).toList := by
  rw [unifyNewlines, String.toList_ofList]
  exact Scan.alike_unifyBreaks _

/-- **The forms of a line break are interchangeable.**  A text whose line breaks are all written as
line feeds is scanned into the same lexemes in the same lines and columns; only the texts of
comments have the new line breaks. -/
theorem scan_unifyNewlines (text : String) :
    List.Forall₂ Token.SameBut (scan text) (scan (unifyNewlines text)) :=
  scanFrom_alike (alike_unifyNewlines text) ⟨rfl, rfl⟩

theorem endOf_unifyNewlines (text : String) :
    (endOf text).SamePlace (endOf (unifyNewlines text)) :=
  (alike_unifyNewlines text).walk ⟨rfl, rfl⟩

end Css2
