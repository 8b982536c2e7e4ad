import Mathlib.Data.List.Basic
import Mathlib.Data.List.TakeWhile
import Css2.Proofs.Reader.Neighbours

/-!
# A declaration alone and in a list

A text can be read as exactly one declaration, or as a list in which malformed declarations are
skipped.  The two read the same declaration, but they end in different ways: one that stands alone
may have a single semicolon behind it and then only trivia, while a list goes on behind every
semicolon.  `Declaration.parse_eq_ok_iff` says for which texts this makes no difference: a text is
one declaration exactly if its list is that declaration, nothing in it is malformed, and no
semicolon is in front of the declaration or is the second one behind it.
-/

namespace Css2

namespace Grammar

/-! ### Semicolons outside of brackets -/

/-- There is a semicolon between `fore` and `rear`, and it is outside of the brackets that `fore`
opens. -/
def SemicolonBetween (ts fore rear : List Token) : Prop :=
  Balanced fore ∧ ∃ loc, ts = fore ++ ⟨.mark .semicolon, loc⟩ :: rear

/-- Outside of brackets there is at most one semicolon, and what stands in front of it is read as
the declaration `d`. -/
def EndsOnce (n : Nesting) (d : Declaration) (ts : List Token) : Prop :=
  ∀ fore rear, SemicolonBetween ts fore rear →
    (declarations n false fore).value = [d] ∧
      ∀ fore' rear', SemicolonBetween ts fore' rear' → fore' = fore

theorem closersAfter_append (closers : List Mark) (ts us : List Token) :
    closersAfter closers (ts ++ us) = closersAfter (closersAfter closers ts) us :=
  List.foldl_append

theorem Balanced.append {ts us : List Token} (h : Balanced ts) (h' : Balanced us) :
    Balanced (ts ++ us) := by
  rw [Balanced, closersAfter_append, h]
  exact h'

/-- What a stretch goes over at the front of a list, it goes over at the end of the text too. -/
theorem Stretch.cut {ts us : List Token} (h : Stretch ts us) :
    ∃ ps, ts = ps ++ us ∧ ∀ vs, Stretch (ps ++ vs) vs := by
  induction h with
  | refl ts => exact ⟨[], rfl, .refl⟩
  | @plain t ts us hp _ ih =>
    obtain ⟨ps, rfl, hps⟩ := ih
    exact ⟨t :: ps, rfl, fun vs => .plain hp (hps vs)⟩
  | @pair t m loc ts vs us hm hb _ _ ih1 ih2 =>
    obtain ⟨ps, rfl, hps⟩ := ih1
    obtain ⟨qs, rfl, hqs⟩ := ih2
    refine ⟨t :: (ps ++ ⟨.mark m, loc⟩ :: qs), by simp, fun ws => ?_⟩
    have hin := hps (⟨.mark m, loc⟩ :: (qs ++ ws))
    rw [List.cons_append, List.append_assoc]
    exact .pair hm hb hin (hqs ws)

/-- **A stretch has no semicolon in it, and leaves no bracket open.** -/
theorem Stretch.exists_balanced {ts us : List Token} (h : Stretch ts us) :
    ∃ ps, ts = ps ++ us ∧ Balanced ps ∧ ∀ t ∈ ps, t.lexeme.isMark .semicolon = false := by
  obtain ⟨ps, rfl, hcut⟩ := h.cut
  have hend : Stretch ps [] := by simpa using hcut []
  obtain ⟨qs, hqs, hstop⟩ := hend.exists_append
  rw [List.append_nil] at hqs
  subst hqs
  refine ⟨ps, rfl, hend.closersAfter (by simp), fun t ht => ?_⟩
  have := hstop t ht
  rw [isStop, Bool.or_eq_false_iff] at this
  exact this.1

/-- Tokens without a semicolon are cut off by a semicolon in one way only. -/
theorem SemicolonBetween.fore_eq {ps fore rear tail : List Token} {loc : Location}
    (h : SemicolonBetween (ps ++ ⟨.mark .semicolon, loc⟩ :: tail) fore rear)
    (hps : ∀ t ∈ ps, t.lexeme.isMark .semicolon = false)
    (htail : ∀ t ∈ tail, t.lexeme.isMark .semicolon = false) : fore = ps ∧ rear = tail := by
  obtain ⟨-, loc', h⟩ := h
  have hnot {us : List Token} (hus : ∀ t ∈ us, t.lexeme.isMark .semicolon = false) :
      (⟨.mark .semicolon, loc'⟩ : Token) ∉ us := fun hmem => absurd (hus _ hmem) (by simp)
  obtain ⟨hfore, -, hrear⟩ := (List.append_cons_inj_of_notMem (hnot hps) (hnot htail)).1 h
  exact ⟨hfore.symm, hrear.symm⟩

/-! ### Trivia -/

theorem skipTrivia_eq_nil_iff {ts : List Token} :
    skipTrivia ts = [] ↔ ∀ t ∈ ts, t.lexeme.isTrivia = true :=
  List.dropWhile_eq_nil_iff

theorem declarations_of_trivia {n : Nesting} {ts : List Token} (h : skipTrivia ts = []) :
    declarations n false ts = ⟨[], [], []⟩ := by
  rw [declarations_eq, h]

theorem exists_trivia (ts : List Token) :
    ∃ ps, ts = ps ++ skipTrivia ts ∧ skipTrivia ps = [] ∧ Balanced ps := by
  have hps : skipTrivia (ts.takeWhile fun t => t.lexeme.isTrivia) = [] :=
    skipTrivia_eq_nil_iff.2 fun _ => List.mem_takeWhile_imp
  refine ⟨_, List.takeWhile_append_dropWhile.symm, hps, ?_⟩
  have hstretch := skipTrivia_stretch (ts.takeWhile fun t => t.lexeme.isTrivia)
  rw [hps] at hstretch
  exact hstretch.closersAfter (by simp)

theorem terms_bare {n : Nesting} {ts rest : List Token} {v : List Term}
    (h : terms n ts = .ok (v, rest)) : startsWith Lexeme.isTrivia rest = false := by
  induction hlen : ts.length using Nat.strongRecOn generalizing ts v with
  | ind len ih =>
    have hsign := sign_le ts
    rw [terms_eq] at h
    split at h
    · cases h
    · next s t after hs =>
      rw [hs, List.length_cons] at hsign
      obtain ⟨⟨v', after'⟩, hv, h⟩ := bind_eq_ok h
      have hval := value_le hv
      dsimp only at h
      split at h
      · cases h
      · split at h
        · cases h
          exact startsWith_skipTrivia _
        · next sep following hn =>
          obtain ⟨⟨more, final⟩, hm, h⟩ := bind_eq_ok h
          have hnext := next?_le hn
          cases h
          exact ih _ (by omega) hm rfl

theorem declaration_bare {n : Nesting} {ts rest : List Token} {d : Declaration}
    (h : declaration n ts = .ok (d, rest)) : startsWith Lexeme.isTrivia rest = false := by
  rw [declaration] at h
  obtain ⟨⟨property, us⟩, -, h⟩ := bind_eq_ok h
  obtain ⟨vs, -, h⟩ := bind_eq_ok h
  obtain ⟨⟨value, ws⟩, ht, h⟩ := bind_eq_ok h
  dsimp only at h
  split at h
  · cases h
    exact startsWith_skipTrivia _
  · cases h
    exact terms_bare ht

/-! ### The two ways to end -/

/-- What may stand behind a declaration that stands alone: nothing, or a semicolon and trivia. -/
inductive EndsAlone : List Token → Prop
  | nothing : EndsAlone []
  | semicolon {loc : Location} {tail : List Token} : skipTrivia tail = [] →
      EndsAlone (⟨.mark .semicolon, loc⟩ :: tail)

/-- The tokens are one declaration and its end. -/
def Alone (n : Nesting) (d : Declaration) (ts : List Token) : Prop :=
  ∃ rest, declaration n (skipTrivia ts) = .ok (d, rest) ∧ EndsAlone rest

theorem EndsAlone.endsDeclaration {rest : List Token} (h : EndsAlone rest) :
    endsDeclaration rest = true := by
  cases h <;> rfl

theorem listedDeclaration_eq_ok_iff {n : Nesting} {ts rest : List Token} {d : Declaration} :
    listedDeclaration n ts = .ok (d, rest) ↔
      declaration n ts = .ok (d, rest) ∧ endsDeclaration rest = true := by
  rw [listedDeclaration]
  constructor
  · intro h
    obtain ⟨⟨d', us⟩, hd, h⟩ := bind_eq_ok h
    dsimp only at h
    split at h
    · next hends =>
      cases h
      exact ⟨hd, hends⟩
    · cases h
  · rintro ⟨hd, hends⟩
    rw [hd]
    exact if_pos hends

theorem declarations_of_declaration {n : Nesting} {ts rest : List Token} {d : Declaration}
    (h : declaration n (skipTrivia ts) = .ok (d, rest)) (hends : endsDeclaration rest = true) :
    declarations n false ts = ⟨d :: (declarations n false rest).value,
      (declarations n false rest).skipped, (declarations n false rest).rest⟩ := by
  have hlist := listedDeclaration_eq_ok_iff.2 ⟨h, hends⟩
  rw [declarations_eq]
  cases hs : skipTrivia ts with
  | nil =>
    rw [hs] at h
    cases h
  | cons t us =>
    rw [hs] at h hlist
    dsimp only
    rw [hlist]
    -- a declaration begins with its name, so the token is no semicolon
    obtain ⟨⟨name, vs⟩, hident, -⟩ := bind_eq_ok h
    obtain ⟨loc, heq⟩ := ident_eq_ok hident
    cases heq
    rfl

theorem EndsAlone.declarations {n : Nesting} {rest : List Token} (h : EndsAlone rest) :
    declarations n false rest = ⟨[], [], []⟩ := by
  cases h with
  | nothing => exact declarations_of_trivia rfl
  | semicolon htail =>
    rw [declarations_eq]
    exact declarations_of_trivia htail

theorem Alone.declarations {n : Nesting} {ts : List Token} {d : Declaration} (h : Alone n d ts) :
    declarations n false ts = ⟨[d], [], []⟩ := by
  obtain ⟨rest, hd, hends⟩ := h
  rw [declarations_of_declaration hd hends.endsDeclaration, hends.declarations]

/-- A declaration that stands alone has at most one semicolon behind it, and none in front. -/
theorem Alone.endsOnce {n : Nesting} {ts : List Token} {d : Declaration} (h : Alone n d ts) :
    EndsOnce n d ts := by
  have hvalue : (Grammar.declarations n false ts).value = [d] := by rw [h.declarations]
  obtain ⟨rest, hd, hends⟩ := h
  obtain ⟨ps, rfl, hps, hnone⟩ :=
    ((skipTrivia_stretch ts).trans (declaration_stretch hd)).exists_balanced
  cases hends with
  | nothing =>
    rintro fore rear ⟨-, loc, heq⟩
    have hmem : (⟨.mark .semicolon, loc⟩ : Token) ∈ ps ++ [] := by simp [heq]
    rw [List.append_nil] at hmem
    exact absurd (hnone _ hmem) (by simp)
  | @semicolon loc tail htail =>
    have htail' : ∀ t ∈ tail, t.lexeme.isMark .semicolon = false := fun t ht =>
      isMark_semicolon_of_isPlain (isPlain_of_isTrivia (skipTrivia_eq_nil_iff.1 htail t ht))
    rw [declarations_semicolon hps, declarations_of_trivia htail, List.append_nil] at hvalue
    intro fore rear hbetween
    obtain ⟨rfl, rfl⟩ := hbetween.fore_eq hnone htail'
    exact ⟨hvalue, fun fore' rear' h' => (h'.fore_eq hnone htail').1⟩

theorem semicolon_of_declarations_nil {n : Nesting} {ts us : List Token} {t : Token}
    (hvalue : (declarations n false ts).value = [])
    (hskipped : (declarations n false ts).skipped = [])
    (hs : skipTrivia ts = t :: us) : t.lexeme.isMark .semicolon = true := by
  rw [declarations_eq, hs] at hvalue hskipped
  dsimp only at hvalue hskipped
  by_contra hsemi
  rw [if_neg (by simp), if_neg hsemi] at hvalue hskipped
  cases hd : listedDeclaration n (t :: us) with
  | ok x =>
    rw [hd] at hvalue
    cases hvalue
  | error e =>
    rw [hd] at hskipped
    cases hskipped

/-- Behind the only semicolon of a list there is nothing but trivia, if nothing is declared
there. -/
theorem EndsOnce.skipTrivia_eq_nil {n : Nesting} {d : Declaration} {ps tail : List Token}
    {loc : Location} (h : EndsOnce n d (ps ++ ⟨.mark .semicolon, loc⟩ :: tail)) (hps : Balanced ps)
    (hvalue : (declarations n false tail).value = [])
    (hskipped : (declarations n false tail).skipped = []) : skipTrivia tail = [] := by
  obtain ⟨qs, hqs, -, hbalanced⟩ := exists_trivia tail
  cases hs : skipTrivia tail with
  | nil => rfl
  | cons t us =>
    obtain ⟨l, loc'⟩ := t
    obtain rfl : l = .mark .semicolon :=
      isMark_iff.1 (semicolon_of_declarations_nil hvalue hskipped hs)
    rw [hs] at hqs
    -- the second semicolon
    have hsecond : SemicolonBetween (ps ++ ⟨.mark .semicolon, loc⟩ :: tail)
        (ps ++ ⟨.mark .semicolon, loc⟩ :: qs) us := by
      refine ⟨hps.append ?_, loc', by rw [hqs]; simp⟩
      exact hbalanced
    have hsame := (h ps tail ⟨hps, loc, rfl⟩).2 _ _ hsecond
    simp at hsame

theorem EndsOnce.not_semicolon {n : Nesting} {d : Declaration} {ts us : List Token} {t : Token}
    (h : EndsOnce n d ts) (hs : skipTrivia ts = t :: us) : t.lexeme.isMark .semicolon = false := by
  obtain ⟨ps, hps, hblank, hbalanced⟩ := exists_trivia ts
  cases hsemi : t.lexeme.isMark .semicolon with
  | false => rfl
  | true =>
    obtain ⟨l, loc⟩ := t
    obtain rfl : l = .mark .semicolon := isMark_iff.1 hsemi
    rw [hs] at hps
    have hfirst := (h ps us ⟨hbalanced, loc, hps⟩).1
    rw [declarations_of_trivia hblank] at hfirst
    cases hfirst

/-- A list without a semicolon in front and with nothing malformed in it begins with its first
declaration. -/
theorem exists_declaration {n : Nesting} {ts : List Token} {d : Declaration}
    {ds : List Declaration} (hvalue : (declarations n false ts).value = d :: ds)
    (hskipped : (declarations n false ts).skipped = [])
    (hfirst : ∀ t us, skipTrivia ts = t :: us → t.lexeme.isMark .semicolon = false) :
    ∃ rest, declaration n (skipTrivia ts) = .ok (d, rest) ∧
      (declarations n false rest).value = ds ∧ (declarations n false rest).skipped = [] := by
  rw [declarations_eq] at hvalue hskipped
  cases hs : skipTrivia ts with
  | nil =>
    rw [hs] at hvalue
    cases hvalue
  | cons t us =>
    rw [hs] at hvalue hskipped
    dsimp only at hvalue hskipped
    rw [if_neg (by simp), if_neg (by simp [hfirst t us hs])] at hvalue hskipped
    cases hd : listedDeclaration n (t :: us) with
    | error e =>
      rw [hd] at hskipped
      cases hskipped
    | ok x =>
      obtain ⟨d', rest⟩ := x
      rw [hd] at hvalue hskipped
      obtain ⟨rfl, hmore⟩ := List.cons.inj hvalue
      exact ⟨rest, (listedDeclaration_eq_ok_iff.1 hd).1, hmore, hskipped⟩

/-- **One declaration in a list stands alone** if nothing is malformed and no semicolon is in front
of it or is the second one behind it. -/
theorem alone_of_declarations {n : Nesting} {ts : List Token} {d : Declaration}
    (hvalue : (declarations n false ts).value = [d])
    (hskipped : (declarations n false ts).skipped = []) (honce : EndsOnce n d ts) :
    Alone n d ts := by
  obtain ⟨rest, hread, hnone, hmore⟩ :=
    exists_declaration hvalue hskipped fun _ _ hs => honce.not_semicolon hs
  refine ⟨rest, hread, ?_⟩
  cases rest with
  | nil => exact .nothing
  | cons t tail =>
    have hbare : skipTrivia (t :: tail) = t :: tail := skipTrivia_eq_self (declaration_bare hread)
    obtain ⟨l, loc⟩ := t
    obtain rfl : l = .mark .semicolon :=
      isMark_iff.1 (semicolon_of_declarations_nil hnone hmore hbare)
    obtain ⟨ps, rfl, hps, -⟩ :=
      ((skipTrivia_stretch ts).trans (declaration_stretch hread)).exists_balanced
    have htail : declarations n false (⟨.mark .semicolon, loc⟩ :: tail)
        = declarations n false tail := by
      rw [declarations_eq, hbare]
      rfl
    rw [htail] at hnone hmore
    exact .semicolon (honce.skipTrivia_eq_nil hps hnone hmore)

/-- A declaration stands alone exactly if it is a list with one declaration, nothing malformed, and
at most one semicolon, behind the declaration. -/
theorem alone_iff {n : Nesting} {ts : List Token} {d : Declaration} :
    Alone n d ts ↔ (declarations n false ts).value = [d] ∧
      (declarations n false ts).skipped = [] ∧ EndsOnce n d ts := by
  constructor
  · intro h
    rw [h.declarations]
    exact ⟨rfl, rfl, h.endsOnce⟩
  · rintro ⟨hvalue, hskipped, honce⟩
    exact alone_of_declarations hvalue hskipped honce

end Grammar

/-! ### Texts -/

theorem Grammar.endsAlone_iff {rest : List Token}
    (h : startsWith Lexeme.isTrivia rest = false) :
    EndsAlone rest ↔ skipTrivia (match expect .semicolon rest with
      | .ok tail => tail
      | .error _ => rest) = [] := by
  constructor
  · intro hends
    cases hends with
    | nothing => rfl
    | semicolon htail => exact htail
  · intro hend
    cases he : expect .semicolon rest with
    | ok tail =>
      rw [he] at hend
      obtain ⟨loc, rfl⟩ := expect_eq_ok he
      exact .semicolon hend
    | error e =>
      rw [he] at hend
      dsimp only at hend
      rw [skipTrivia_eq_self h] at hend
      subst hend
      exact .nothing

theorem Parser.expectEnd_eq_ok_iff {p : Parser} :
    p.expectEnd.1 = .ok () ↔ Grammar.skipTrivia p.tokens = [] := by
  unfold expectEnd
  dsimp only
  split <;> simp [*]

theorem check_bind_eq_ok_iff {ε α : Type} {check : Except ε Unit} {a b : α} :
    (check >>= fun _ => pure a) = .ok b ↔ check = .ok () ∧ a = b := by
  cases check with
  | error e => simp [bind, Except.bind]
  | ok u => simp [bind, Except.bind, pure, Except.pure]

theorem Declaration.parse_eq_ok_iff_alone {text : String} {d : Declaration} :
    Declaration.parse text = .ok d ↔
      Grammar.Alone (Parser.ofText text {}).nesting d (scan text) := by
  rw [parse, Parser.declaration, Parser.construct, Grammar.Alone]
  show _ ↔ ∃ rest, Grammar.declaration _ (Grammar.skipTrivia (Parser.ofText text {}).tokens)
    = .ok (d, rest) ∧ Grammar.EndsAlone rest
  cases hd : Grammar.declaration (Parser.ofText text {}).nesting
      (Grammar.skipTrivia (Parser.ofText text {}).tokens) with
  | error e =>
    constructor
    · intro h
      cases h
    · rintro ⟨rest, h, -⟩
      cases h
  | ok x =>
    obtain ⟨d', rest⟩ := x
    refine Iff.trans check_bind_eq_ok_iff ?_
    rw [Parser.expectEnd_eq_ok_iff]
    refine Iff.trans (and_congr_left' (Grammar.endsAlone_iff (Grammar.declaration_bare hd)).symm) ?_
    constructor
    · rintro ⟨hends, rfl⟩
      exact ⟨rest, rfl, hends⟩
    · rintro ⟨_, h, hends⟩
      cases h
      exact ⟨hends, rfl⟩

/-- **One declaration is read alike alone and in a list.** -/
theorem Declaration.parse_eq_ok_iff (text : String) (d : Declaration) :
    Declaration.parse text = .ok d ↔
      Declaration.parseList text = [d] ∧
        (Parser.ofText text {}).declarations.2.diagnostics = [] ∧
        Grammar.EndsOnce (Parser.ofText text {}).nesting d (scan text) := by
  have hnotes : (Parser.ofText text {}).declarations.2.diagnostics = [] ↔
      (Grammar.declarations (Parser.ofText text {}).nesting false (scan text)).skipped = [] :=
    List.map_eq_nil_iff
  rw [parse_eq_ok_iff_alone, hnotes]
  exact Grammar.alone_iff

end Css2
