import Css2.Proofs.Reader.Call

/-!
# Declarations and their neighbours

What is wrong with a declaration in a list is its own affair: tokens in front of a semicolon and
those behind it are read as if they were two lists (`Grammar.declarations_semicolon`), and a reader
takes every list to its end without an error (`Reader.call_declarationList`).

That is so if the semicolon is not inside of brackets.  A declaration that is read well moves over
whole pairs of brackets and never over a semicolon, and a malformed one is skipped with a list of
the marks that are still to come; either way the brackets count alike (`Stretch.closersAfter`), so
that both come to a stop at the semicolon.  And they stop there as they do at the end of the text,
because no production takes a semicolon (`Grammar.listedDeclaration_followed`).
-/

namespace Css2

namespace Grammar

/-! ### Open brackets -/

/-- The marks that are still to come behind some tokens, innermost first, if `closers` were to come
in front of them. -/
def closersAfter (closers : List Mark) (ts : List Token) : List Mark :=
  ts.foldl (fun closers t => pushCloser closers t.lexeme) closers

/-- Behind the tokens no bracket is open that they have opened. -/
def Balanced (ts : List Token) : Prop :=
  closersAfter [] ts = []

instance : DecidablePred Balanced :=
  fun ts => inferInstanceAs (Decidable (closersAfter [] ts = []))

theorem closersAfter_cons (closers : List Mark) (t : Token) (ts : List Token) :
    closersAfter closers (t :: ts) = closersAfter (pushCloser closers t.lexeme) ts :=
  rfl

theorem pushCloser_of_closerOf? {l : Lexeme} {m : Mark} (h : closerOf? l = some m)
    (closers : List Mark) : pushCloser closers l = m :: closers := by
  unfold pushCloser
  rw [h]

theorem pushCloser_of_neither {l : Lexeme} {closers : List Mark} (ho : closerOf? l = none)
    (hc : ∀ m ∈ closers, l.isMark m = false) : pushCloser closers l = closers := by
  unfold pushCloser
  rw [ho]
  cases closers with
  | nil => rfl
  | cons m outer =>
    dsimp only
    rw [hc m List.mem_cons_self]
    rfl

theorem pushCloser_closer {m : Mark} (hm : isCloser m = true) (closers : List Mark) :
    pushCloser (m :: closers) (.mark m) = closers := by
  cases m <;> first | rfl | cases hm

/-- **Over a stretch the open brackets stay the same.** -/
theorem Stretch.closersAfter {ts us : List Token} (h : Stretch ts us) {closers : List Mark}
    (hc : ∀ m ∈ closers, isCloser m = true) :
    Grammar.closersAfter closers ts = Grammar.closersAfter closers us := by
  induction h generalizing closers with
  | refl => rfl
  | plain hp _ ih =>
    rw [closersAfter_cons, pushCloser_of_neither (closerOf?_of_isPlain hp)
      fun m hm => isMark_of_isPlain hp (hc m hm)]
    exact ih hc
  | @pair t m loc ts vs us hm hb _ _ ih1 ih2 =>
    have hcloser := isCloser_closerOf? hm
    rw [closersAfter_cons, pushCloser_of_closerOf? hm, ih1, closersAfter_cons,
      pushCloser_closer hcloser]
    · exact ih2 hc
    · intro k hk
      rcases List.mem_cons.1 hk with rfl | hk
      · exact hcloser
      · exact hc k hk

theorem Balanced.stretch {ts us : List Token} (h : Balanced ts) (hs : Stretch ts us) :
    Balanced us := by
  rw [Balanced, ← hs.closersAfter (by simp)]
  exact h

theorem Balanced.skipTrivia {ts : List Token} (h : Balanced ts) :
    Balanced (Grammar.skipTrivia ts) :=
  h.stretch (skipTrivia_stretch ts)

theorem Balanced.of_semicolon {t : Token} {ts : List Token} (h : Balanced (t :: ts))
    (ht : t.lexeme.isMark .semicolon = true) : Balanced ts := by
  obtain ⟨l, loc⟩ := t
  cases l with
  | mark m => cases m <;> first | exact h | cases ht
  | _ => cases ht

/-! ### A semicolon for the end -/

section

variable {loc : Location} {more : List Token}

/-- Where the first list ends, the second goes on with a semicolon at `loc`, and then with
`more`. -/
def Followed (loc : Location) (more ts us : List Token) : Prop :=
  us = ts ++ ⟨.mark .semicolon, loc⟩ :: more

theorem skipTrivia_followed (ts : List Token) :
    skipTrivia (ts ++ ⟨.mark .semicolon, loc⟩ :: more)
      = skipTrivia ts ++ ⟨.mark .semicolon, loc⟩ :: more := by
  induction ts with
  | nil => rfl
  | cons t ts ih =>
    rw [List.cons_append]
    cases ht : t.lexeme.isTrivia with
    | true => rw [skipTrivia_cons _ ht, skipTrivia_cons _ ht, ih]
    | false => rw [skipTrivia_cons_self _ ht, skipTrivia_cons_self _ ht, List.cons_append]

theorem expect_followed {m : Mark} (hm : m ≠ .semicolon) (ts : List Token) :
    Agree (Followed loc more) (expect m ts)
      (expect m (ts ++ ⟨.mark .semicolon, loc⟩ :: more)) := by
  cases ts with
  | nil =>
    rw [List.nil_append, expect, if_neg (Ne.symm hm)]
    exact .error
  | cons t ts =>
    obtain ⟨l, loc'⟩ := t
    cases l with
    | mark k =>
      rw [List.cons_append, expect, expect]
      split
      · exact .ok rfl
      · exact .error
    | _ => exact .error

theorem ident_followed (what : Expectation) (ts : List Token) :
    Agree (SameRead (Followed loc more)) (ident what ts)
      (ident what (ts ++ ⟨.mark .semicolon, loc⟩ :: more)) := by
  cases ts with
  | nil => exact .error
  | cons t ts =>
    obtain ⟨l, loc'⟩ := t
    cases l with
    | ident name => exact .ok ⟨rfl⟩
    | _ => exact .error

theorem sign_followed (ts : List Token) :
    sign (ts ++ ⟨.mark .semicolon, loc⟩ :: more)
      = ((sign ts).1, (sign ts).2 ++ ⟨.mark .semicolon, loc⟩ :: more) := by
  cases ts with
  | nil => rfl
  | cons t ts =>
    obtain ⟨l, loc'⟩ := t
    cases l with
    | delim c =>
      rw [List.cons_append, sign, sign]
      split
      · rfl
      · split <;> rfl
    | _ => rfl

theorem next?_followed (ts : List Token) :
    next? (ts ++ ⟨.mark .semicolon, loc⟩ :: more)
      = (next? ts).map fun r => (r.1, r.2 ++ ⟨.mark .semicolon, loc⟩ :: more) := by
  rw [next?, next?, skipTrivia_followed]
  cases skipTrivia ts with
  | nil => rfl
  | cons t us =>
    rw [List.cons_append]
    dsimp only
    rw [skipTrivia_followed]
    split
    · rfl
    · split
      · rfl
      · split <;> rfl

theorem value_followed_of {n : Nesting} {t : Token} {rest : List Token}
    (ih : ∀ deeper us, us.length ≤ rest.length →
      Agree (SameRead (Followed loc more)) (terms deeper us)
        (terms deeper (us ++ ⟨.mark .semicolon, loc⟩ :: more))) :
    Agree (SameRead (Followed loc more)) (value n t rest)
      (value n t (rest ++ ⟨.mark .semicolon, loc⟩ :: more)) := by
  rw [value, value]
  split
  · refine (enter_alike n rest _).bind ?_
    rintro deeper _ - rfl
    rw [skipTrivia_followed]
    refine (ih deeper _ (skipTrivia_le rest)).bind_read ?_
    rintro args after _ - rfl
    dsimp only
    rw [skipTrivia_followed]
    exact (expect_followed (m := .closeParen) (by decide) _).bind fun _ _ _ h => .ok ⟨h⟩
  · split
    · exact .ok ⟨rfl⟩
    · exact .error

/-- **Values end at a semicolon as they do at the end of the text.** -/
theorem terms_followed {n : Nesting} (ts : List Token) :
    Agree (SameRead (Followed loc more)) (terms n ts)
      (terms n (ts ++ ⟨.mark .semicolon, loc⟩ :: more)) := by
  induction hlen : ts.length using Nat.strongRecOn generalizing n ts with
  | ind len ih =>
    have hle := sign_le ts
    rw [terms_eq, terms_eq, sign_followed]
    cases hs : sign ts with
    | mk s us =>
      rw [hs] at hle
      cases us with
      | nil => exact .error
      | cons t rest =>
        simp only [List.length_cons] at hle
        rw [List.cons_append]
        refine (value_followed_of fun deeper us hus => ih _ (by omega) us rfl).bind_read ?_
        rintro v after _ hv rfl
        have hval := value_le hv
        dsimp only
        split
        · exact .error
        · rw [next?_followed, skipTrivia_followed]
          cases hnext : next? after with
          | none => exact .ok ⟨rfl⟩
          | some r =>
            obtain ⟨sep, following⟩ := r
            have hfollowing := next?_le hnext
            exact (ih _ (by omega) following rfl).bind_read fun vs final final' _ h => .ok ⟨h⟩

theorem declaration_followed {n : Nesting} (ts : List Token) :
    Agree (SameRead (Followed loc more)) (declaration n ts)
      (declaration n (ts ++ ⟨.mark .semicolon, loc⟩ :: more)) := by
  refine (ident_followed _ ts).bind_read ?_
  rintro property us _ - rfl
  dsimp only
  rw [skipTrivia_followed]
  refine (expect_followed (m := .colon) (by decide) _).bind ?_
  rintro vs _ - rfl
  rw [skipTrivia_followed]
  refine (terms_followed _).bind_read ?_
  rintro v ws _ - rfl
  cases ws with
  | nil => exact .ok ⟨rfl⟩
  | cons t tail =>
    obtain ⟨l, loc'⟩ := t
    cases l with
    | important => exact .ok ⟨skipTrivia_followed tail⟩
    | _ => exact .ok ⟨rfl⟩

/-- **A declaration in a list ends at a semicolon as it does at the end of the text.** -/
theorem listedDeclaration_followed {n : Nesting} (ts : List Token) :
    Agree (SameRead (Followed loc more)) (listedDeclaration n ts)
      (listedDeclaration n (ts ++ ⟨.mark .semicolon, loc⟩ :: more)) := by
  refine (declaration_followed ts).bind_read ?_
  rintro d rest _ - rfl
  have hends : endsDeclaration (rest ++ ⟨.mark .semicolon, loc⟩ :: more)
      = endsDeclaration rest := by
    cases rest <;> rfl
  dsimp only
  rw [hends]
  split
  · exact .ok ⟨rfl⟩
  · exact .error

/-! ### Malformed declarations -/

/-- Skipping comes to the same semicolon with and without the tokens behind, or else to the one that
stands for the end. -/
theorem skipRest_semicolon {closers : List Mark} {ts : List Token}
    (h : closersAfter closers ts = []) :
    (Balanced (skipRest false closers ts) ∧
      skipRest false closers (ts ++ ⟨.mark .semicolon, loc⟩ :: more)
        = skipRest false closers ts ++ ⟨.mark .semicolon, loc⟩ :: more) ∨
      skipRest false closers ts = [] ∧
        skipRest false closers (ts ++ ⟨.mark .semicolon, loc⟩ :: more) = more := by
  induction ts generalizing closers with
  | nil =>
    obtain rfl : closers = [] := h
    exact .inr ⟨rfl, rfl⟩
  | cons t ts ih =>
    rw [List.cons_append, skipRest, skipRest]
    simp only [Bool.and_false, Bool.false_and, Bool.false_eq_true, if_false]
    by_cases hsemi : (closers.isEmpty && t.lexeme.isMark .semicolon) = true
    · rw [if_pos hsemi, if_pos hsemi]
      rw [Bool.and_eq_true, List.isEmpty_iff] at hsemi
      obtain ⟨rfl, hsemi⟩ := hsemi
      exact .inl ⟨Balanced.of_semicolon h hsemi, rfl⟩
    · rw [if_neg hsemi, if_neg hsemi]
      exact ih h

theorem skipDeclaration_semicolon {t : Token} {ts : List Token} (h : Balanced (t :: ts)) :
    (Balanced (skipDeclaration false t ts) ∧
      skipDeclaration false t (ts ++ ⟨.mark .semicolon, loc⟩ :: more)
        = skipDeclaration false t ts ++ ⟨.mark .semicolon, loc⟩ :: more) ∨
      skipDeclaration false t ts = [] ∧
        skipDeclaration false t (ts ++ ⟨.mark .semicolon, loc⟩ :: more) = more := by
  rw [skipDeclaration, skipDeclaration]
  by_cases ht : t.lexeme.isMark .semicolon = true
  · rw [if_pos ht, if_pos ht]
    exact .inl ⟨h.of_semicolon ht, rfl⟩
  · rw [if_neg ht, if_neg ht]
    exact skipRest_semicolon h

/-! ### Lists -/

theorem declarations_rest (n : Nesting) (ts : List Token) :
    (declarations n false ts).rest = [] := by
  fun_induction declarations n false ts with
  | case1 => rfl
  | case2 _ _ _ _ hclose => cases hclose
  | case3 _ _ _ _ _ _ ih => exact ih
  | case4 _ _ _ _ _ _ _ _ _ _ ih => exact ih
  | case5 _ _ _ _ _ _ _ _ _ ih => exact ih

/-- **Declarations in front of a semicolon and those behind it are read apart.** -/
theorem declarations_semicolon {n : Nesting} {ts : List Token} (h : Balanced ts) (loc : Location)
    (more : List Token) :
    (declarations n false (ts ++ ⟨.mark .semicolon, loc⟩ :: more)).value
      = (declarations n false ts).value ++ (declarations n false more).value := by
  fun_induction declarations n false ts with
  | case1 ts hs =>
    rw [declarations_eq, skipTrivia_followed, hs]
    rfl
  | case2 ts t rest hs hclose => cases hclose
  | case3 ts t rest hs hclose ht ih =>
    have hb : Balanced (t :: rest) := hs ▸ h.skipTrivia
    rw [declarations_eq, skipTrivia_followed, hs]
    dsimp only [List.cons_append]
    rw [if_neg hclose, if_pos ht]
    exact ih (hb.of_semicolon ht)
  | case4 ts t rest hs hclose ht d after hd _ ih =>
    have hb : Balanced (t :: rest) := hs ▸ h.skipTrivia
    have hread := @listedDeclaration_followed loc more n (t :: rest)
    rw [hd, List.cons_append] at hread
    rw [declarations_eq, skipTrivia_followed, hs]
    dsimp only [List.cons_append]
    rw [if_neg hclose, if_neg ht]
    generalize listedDeclaration n (t :: (rest ++ _)) = result at hread ⊢
    obtain ⟨⟨rfl⟩⟩ := hread
    exact congrArg (d :: ·) (ih (hb.stretch (listedDeclaration_stretch hd)))
  | case5 ts t rest hs hclose ht e hd _ ih =>
    have hb : Balanced (t :: rest) := hs ▸ h.skipTrivia
    have hread := @listedDeclaration_followed loc more n (t :: rest)
    rw [hd, List.cons_append] at hread
    rw [declarations_eq, skipTrivia_followed, hs]
    dsimp only [List.cons_append]
    rw [if_neg hclose, if_neg ht]
    generalize listedDeclaration n (t :: (rest ++ _)) = result at hread ⊢
    cases hread
    dsimp only
    obtain ⟨hskip, heq⟩ | ⟨hend, heq⟩ := @skipDeclaration_semicolon loc more t rest hb
    · rw [heq]
      exact ih hskip
    · -- the malformed declaration ends at the semicolon itself, or at the end of the text
      have hnone : (declarations n false (skipDeclaration false t rest)).value = [] := by
        rw [hend, declarations_eq]
        rfl
      rw [heq]
      exact (congrArg (· ++ _) hnone).symm

end

end Grammar

namespace Reader

theorem call_declarationList_eq (options : ParseOptions) (stop : Location) (ts : List Token) :
    ∃ r, (ofStream (.ofTokens ts stop) options).call .declarationList
        = some (.ok (.declarations
            (Grammar.declarations ⟨options.maxNesting, 0⟩ false ts).value), r) ∧
      r.unread = [] := by
  obtain ⟨r, h, -, -, hp⟩ := call_eq .declarationList (ofStream (.ofTokens ts stop) options) rfl
  refine ⟨r, h, ?_⟩
  rw [show r.unread = r.parser.tokens from rfl, hp]
  exact Grammar.declarations_rest _ _

/-- **Malformed declarations do not affect their neighbours.**  Whatever the tokens are, and however
many brackets may be open, a reader of declarations reads all tokens and gives back no error.  If
the brackets in front of a semicolon are balanced then it gives back the declarations in front of
the semicolon and then those behind it. -/
theorem call_declarationList (options : ParseOptions) :
    (∀ ts stop, ∃ ds r, (ofStream (.ofTokens ts stop) options).call .declarationList
        = some (.ok (.declarations ds), r) ∧ r.unread = []) ∧
      ∀ as bs loc, Grammar.Balanced as → ∃ ds es,
        (∀ stop, ∃ r, (ofStream (.ofTokens as stop) options).call .declarationList
          = some (.ok (.declarations ds), r)) ∧
        (∀ stop, ∃ r, (ofStream (.ofTokens bs stop) options).call .declarationList
          = some (.ok (.declarations es), r)) ∧
        ∀ stop, ∃ r, (ofStream (.ofTokens (as ++ ⟨.mark .semicolon, loc⟩ :: bs) stop) options).call
            .declarationList
          = some (.ok (.declarations (ds ++ es)), r) := by
  refine ⟨fun ts stop => ⟨_, call_declarationList_eq options stop ts⟩, ?_⟩
  intro as bs loc hbalanced
  have hcall (ts : List Token) (stop : Location) :=
    (call_declarationList_eq options stop ts).imp fun _ => And.left
  refine ⟨_, _, hcall as, hcall bs, ?_⟩
  rw [← Grammar.declarations_semicolon hbalanced]
  exact hcall _

/-- In `x f(;); color: red` one semicolon is inside of brackets, and the list in front of the other
one is malformed. -/
theorem call_declarationList_function :
    let as : List Token := [⟨.ident "x", ⟨1, 1, 0⟩⟩, ⟨.whitespace, ⟨1, 2, 1⟩⟩,
      ⟨.function "f", ⟨1, 3, 2⟩⟩, ⟨.mark .semicolon, ⟨1, 5, 4⟩⟩, ⟨.mark .closeParen, ⟨1, 6, 5⟩⟩]
    let bs : List Token := [⟨.whitespace, ⟨1, 8, 7⟩⟩, ⟨.ident "color", ⟨1, 9, 8⟩⟩,
      ⟨.mark .colon, ⟨1, 14, 13⟩⟩, ⟨.whitespace, ⟨1, 15, 14⟩⟩, ⟨.ident "red", ⟨1, 16, 15⟩⟩]
    Grammar.Balanced as ∧ ∃ ds es,
      (∀ stop, ∃ r, (ofStream (.ofTokens as stop) {}).call .declarationList
        = some (.ok (.declarations ds), r)) ∧
      (∀ stop, ∃ r, (ofStream (.ofTokens bs stop) {}).call .declarationList
        = some (.ok (.declarations es), r)) ∧
      ∀ stop, ∃ r, (ofStream (.ofTokens (as ++ ⟨.mark .semicolon, ⟨1, 7, 6⟩⟩ :: bs) stop) {}).call
          .declarationList
        = some (.ok (.declarations (ds ++ es)), r) :=
  ⟨by decide, (call_declarationList {}).2 _ _ _ (by decide)⟩

end Reader

end Css2
