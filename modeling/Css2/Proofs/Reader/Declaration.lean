import Css2.Proofs.Reader.Value
import Css2.Reader.Declaration

/-!
# Readers of declarations

A reader reads declarations as the grammar does, on their own (`Reader.reads_declaration`) and in
lists (`Reader.does_declarations`).  In a list each malformed declaration costs an attempt: the
reader goes back to where it begins, notes the failure and skips it from there.  Every declaration
that is read has been handed on before the next one is looked at.
-/

namespace Css2

namespace Reader

variable {r : Reader}

/-! ### One declaration -/

theorem reads_declaration (r : Reader) :
    Reads declaration r (Grammar.declaration r.nesting r.unread) := by
  unfold Grammar.declaration
  refine .bind (reads_ident _ r) fun property r₁ hm₁ _ => .skipTrivia fun r₂ hm₂ hu₂ => ?_
  dsimp only
  rw [← hu₂]
  refine .bind_rest (reads_expect _ r₂) fun r₃ hm₃ _ => .skipTrivia fun r₄ hm₄ hu₄ => ?_
  rw [← hm₁.nesting_eq, ← hm₂.nesting_eq, ← hm₃.nesting_eq, ← hm₄.nesting_eq, ← hu₄]
  refine .bind (reads_terms r₄) fun value r₅ _ _ => ?_
  cases hu : r₅.unread with
  | nil => exact .nextIs (b := false) (by rw [hu]; rfl) (.pure _ hu)
  | cons t rest =>
    obtain ⟨l, loc⟩ := t
    cases l with
    | important =>
      refine .nextIs (b := true) (by rw [hu]; rfl) ?_
      exact .bump hu fun r₆ _ hu₆ => .skipTrivia fun r₇ _ hu₇ => .pure _ (by rw [hu₇, hu₆])
    | _ => exact .nextIs (b := false) (by rw [hu]; rfl) (.pure _ hu)

theorem reads_listedDeclaration (r : Reader) :
    Reads listedDeclaration r (Grammar.listedDeclaration r.nesting r.unread) := by
  unfold Grammar.listedDeclaration
  refine .bind (reads_declaration r) fun d r₁ _ _ => .peek ?_
  cases hu : r₁.unread with
  | nil => exact .pure _ hu
  | cons t rest =>
    dsimp only [List.head?_cons]
    split
    · next h =>
      rw [if_pos (show Grammar.endsDeclaration (t :: rest) = true from h)]
      exact .pure _ hu
    · next h =>
      rw [if_neg (show ¬ Grammar.endsDeclaration (t :: rest) = true from h)]
      exact reads_unexpected_of hu _

/-! ### Lists of declarations -/

theorem passes_skipMalformed (inBlock : Bool) (closers : List Mark) (r : Reader) :
    Passes (skipMalformed inBlock closers true) r
      (.ok (Grammar.skipRest inBlock closers r.unread)) := by
  induction hts : r.unread generalizing r closers with
  | nil =>
    rw [skipMalformed.eq_1]
    refine .peek ?_
    rw [hts]
    exact .pure _ hts
  | cons t rest ih =>
    rw [skipMalformed.eq_1, Grammar.skipRest]
    refine .peek ?_
    rw [hts]
    dsimp only [List.head?_cons]
    rw [Bool.and_true]
    split
    · exact .bump hts fun r₁ _ hu₁ => .pure _ hu₁
    · split
      · exact .pure _ hts
      · exact .bump hts fun r₁ _ hu₁ => ih _ r₁ hu₁

/-- Skipping begins with a token that closes nothing, though it may look so. -/
theorem passes_skipMalformed_first (inBlock : Bool) {t : Token} {rest : List Token}
    (hu : r.unread = t :: rest) :
    Passes (skipMalformed inBlock [] false) r (.ok (Grammar.skipDeclaration inBlock t rest)) := by
  rw [skipMalformed.eq_1, Grammar.skipDeclaration]
  refine .peek ?_
  rw [hu]
  simp only [List.head?_cons, List.isEmpty_nil, Bool.true_and, Bool.and_false, Bool.false_and,
    Bool.false_eq_true, if_false]
  split
  · exact .bump hu fun r₁ _ hu₁ => .pure _ hu₁
  · refine .bump hu fun r₁ _ hu₁ => ?_
    rw [← hu₁]
    exact passes_skipMalformed inBlock _ r₁

/-- **A reader reads lists of declarations as the grammar does**, and hands on those that it has
read. -/
theorem does_declarations {sink : Declaration → Production Unit} {tell : Declaration → List Event}
    (hsink : ∀ d r, Does (sink d) r { result := .ok ((), r.unread), events := tell d })
    (inBlock : Bool) (r : Reader) :
    Does (declarations inBlock sink) r
      ((Grammar.declarations r.nesting inBlock r.unread).trace
        ((Grammar.declarations r.nesting inBlock r.unread).value.flatMap tell)) := by
  induction hn : r.unread.length using Nat.strongRecOn generalizing r with
  | ind n ih =>
    subst hn
    rw [declarations.eq_1, Grammar.declarations_eq]
    refine .skipTrivia fun r₁ hn₁ hs₁ hu₁ => .peek ?_
    have hle := Grammar.skipTrivia_le r.unread
    rw [← hu₁] at hle
    rw [← hu₁, ← hn₁]
    cases hu : r₁.unread with
    | nil => exact (Reads.pure _ hu).does
    | cons t rest =>
      rw [hu, List.length_cons] at hle
      -- read, skipped or empty: each of them leaves a shorter list of declarations
      have hmore {us : List Token} (hus : us.length ≤ rest.length) (r' : Reader)
          (hn : r'.nesting = r₁.nesting) (hu : r'.unread = us) :
          Does (declarations inBlock sink) r' ((Grammar.declarations r₁.nesting inBlock us).trace
            ((Grammar.declarations r₁.nesting inBlock us).value.flatMap tell)) := by
        subst hu
        rw [← hn]
        exact ih _ (by omega) r' rfl
      dsimp only [List.head?_cons]
      split
      · exact .bump hu fun r₂ _ _ hu₂ => (Reads.pure _ hu₂).does
      · split
        · exact .bump hu fun r₂ hn₂ _ hu₂ => hmore (Nat.le_refl _) r₂ hn₂ hu₂
        · have hread := (reads_listedDeclaration r₁).does.tried
          rw [hu] at hread
          split
          · next d after hd =>
            rw [hd] at hread
            have hlt := Grammar.listedDeclaration_lt hd
            rw [List.length_cons] at hlt
            have hfound (r₂ : Reader) (hn₂ : r₂.nesting = r₁.nesting) (hu₂ : r₂.unread = after) :
                Does (do sink d; let more ← declarations inBlock sink; return d :: more) r₂
                  (let more := Grammar.declarations r₁.nesting inBlock after
                   { result := .ok (d :: more.value, more.rest)
                     events := tell d ++ more.value.flatMap tell
                     skipped := more.skipped }) := by
              refine Does.congr ((hsink d r₂).seq rfl fun r₃ hn₃ _ hu₃ =>
                (hmore (Nat.le_of_lt_succ hlt) r₃ (hn₃.trans hn₂) (hu₃.trans hu₂)).seq rfl
                  fun r₄ _ _ hu₄ => (Reads.pure _ hu₄).does) ?_
              simp [Trace.after, Lenient.trace]
            refine Does.congr (hread.seq rfl fun r₂ hn₂ _ hu₂ => hfound r₂ hn₂ hu₂) ?_
            simp [Trace.after, Trace.tried, Lenient.trace]
          · next e he =>
            rw [he] at hread
            have hskip := Grammar.skipDeclaration_le inBlock t rest
            refine Does.congr (hread.seq rfl fun r₂ hn₂ _ hu₂ => .step
              (passes_skipMalformed_first inBlock hu₂) fun r₃ hn₃ _ hu₃ =>
                hmore hskip r₃ (hn₃.trans hn₂) hu₃) ?_
            simp [Trace.after, Trace.tried, Lenient.trace]

/-! ### Blocks -/

/-- The trace of declarations that are reported between the events `first` and `last`. -/
def groupTrace (first last : Event) (l : Lenient (List Declaration)) : Trace Unit :=
  { result := .ok ((), l.rest)
    events := first :: (l.value.map Event.property ++ [last])
    skipped := l.skipped }

/-- The trace of a block that is reported between the events `first` and `last`. -/
def blockTrace (first last : Event) (n : Nesting) (ts : List Token) : Trace Unit :=
  match Grammar.block n ts with
  | .error e => { result := .error e }
  | .ok l => groupTrace first last l

theorem does_group (first last : Event) (r : Reader) :
    Does (do
      emit first
      let _ ← declarations true fun d => emit (.property d)
      emit last) r (groupTrace first last (Grammar.declarations r.nesting true r.unread)) := by
  have hlist (r' : Reader) (hn : r'.nesting = r.nesting) (hu : r'.unread = r.unread) :
      Does (do let _ ← declarations true fun d => emit (.property d); emit last) r'
        (let l := Grammar.declarations r.nesting true r.unread
         { result := .ok ((), l.rest)
           events := l.value.map Event.property ++ [last]
           skipped := l.skipped }) := by
    have hread := does_declarations (fun d r => does_emit (.property d) r) true r'
    rw [hn, hu, ← List.map_eq_flatMap] at hread
    refine Does.congr (hread.seq rfl fun r₂ _ _ hu₂ => hu₂ ▸ does_emit last r₂) ?_
    simp [Trace.after, Lenient.trace]
  refine Does.congr ((does_emit first r).seq rfl fun r₁ hn₁ _ hu₁ => hlist r₁ hn₁ hu₁) ?_
  simp [Trace.after, groupTrace]

/-- **A reader reads blocks as the grammar does.** -/
theorem does_block (first last : Event) (r : Reader) :
    Does (block first last) r (blockTrace first last r.nesting r.unread) := by
  rw [blockTrace, Grammar.block]
  have hexpect := reads_expect .openBrace r
  cases he : Grammar.expect .openBrace r.unread with
  | error e =>
    rw [he] at hexpect
    exact hexpect.does.fail rfl
  | ok us =>
    rw [he] at hexpect
    refine .step hexpect fun r₁ hn₁ _ hu₁ => ?_
    have h := Does.nested (x := fun n => groupTrace first last (Grammar.declarations n true us))
      (hu₁ ▸ does_group first last r₁.deeper)
    rw [hn₁, hu₁] at h
    refine h.congr ?_
    dsimp only [bind, Except.bind]
    cases r.nesting.enter us <;> rfl

end Reader

end Css2
