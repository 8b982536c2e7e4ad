import Css2.Proofs.Cursor.Tiles
import Css2.Proofs.Token.ReadBack

/-!
# What is written is the first token

Where `Scan.next?` takes what is written off the front of a list and leaves what follows it, a
cursor over the whole text does so too, and its second token begins where that begins
(`Lexeme.isFirst_of_next?`).  So a name that is written to stand alone is the first token of every
text that goes on with something else (`Lexeme.isFirst_ident`), and a string that is written is the
first token of every text that goes on in any way (`Lexeme.isFirst_string`).
-/

namespace Css2

open Location

/-- The first token of `written ++ rest` is the lexeme, and it covers what is written and nothing
else: the scanner stops where `rest` begins, and there the next token begins if there is one. -/
def Lexeme.IsFirst (l : Lexeme) (written rest : String) : Prop :=
  ∃ ts stop, tokenize (written ++ rest) = some (⟨l, start⟩ :: ts, stop) ∧
    Cursor.next? (.ofText (written ++ rest)) =
      some (some l, { text := (written ++ rest).toList.toArray, position := written.length }) ∧
    ts.head?.map Token.loc =
      if rest = "" then none
      else some ((Table.ofText (written ++ rest)).locate written.length)

/-! ### The first token of a text -/

theorem Location.Table.locate_zero (text : String) : (Table.ofText text).locate 0 = start := by
  rw [locate_eq_place (Nat.zero_le _) (by decide), ← ofIndex_eq_place (Nat.zero_le _)]
  cases text.toList <;> rfl

/-- A cursor before a text takes what `Scan.next?` takes off it. -/
theorem Cursor.next?_ofText {text : String} {l : Lexeme} {rest : List Char}
    (h : Scan.next? text.toList = some (l, rest)) :
    next? (.ofText text) = some (some l, facing text.toList.toArray rest) := by
  have hself : text.toList <:+ text.toList.toArray.toList := List.suffix_rfl
  rw [ofText_eq]
  cases hcs : text.toList with
  | nil =>
    rw [hcs] at h
    cases h
  | cons c cs =>
    rw [hcs] at h hself
    obtain ⟨l', rest', hnext, htakes⟩ := takes_next? hself
    rw [h] at hnext
    obtain ⟨rfl, rfl⟩ := Prod.mk.inj (Option.some.inj hnext)
    exact htakes.run

theorem Scan.head?_cuts (cs : List Char) :
    (cuts cs).head?.map Prod.snd = if cs = [] then none else some cs := by
  by_cases hcs : cs = []
  · rw [if_pos hcs, hcs, cuts_nil]
    rfl
  · obtain ⟨l, more, hcuts⟩ := exists_cuts_eq hcs
    rw [if_neg hcs, hcuts]
    rfl

/-- The first token is what `Scan.next?` takes off the text, and the second one begins where the
rest does. -/
theorem tokenize_of_next? {text : String} {l : Lexeme} {rest : List Char}
    (h : Scan.next? text.toList = some (l, rest)) :
    ∃ ts stop, tokenize text = some (⟨l, start⟩ :: ts, stop) ∧
      ts.head?.map Token.loc =
        if rest = [] then none
        else some ((Table.ofText text).locate (text.length - rest.length)) := by
  refine ⟨(Scan.cuts rest).map fun p =>
      ⟨p.1, (Table.ofText text).locate (text.length - p.2.length)⟩,
    { text := text.toList.toArray, position := text.length }, ?_, ?_⟩
  · rw [tokenize_eq, Scan.cuts_eq h, List.map_cons, String.length_toList, Nat.sub_self,
      Table.locate_zero]
  · have hloc : (Token.loc ∘ fun p : Lexeme × List Char =>
        Token.mk p.1 ((Table.ofText text).locate (text.length - p.2.length))) =
        (fun cs => (Table.ofText text).locate (text.length - cs.length)) ∘ Prod.snd := rfl
    rw [List.head?_map, Option.map_map, hloc, ← Option.map_map, Scan.head?_cuts]
    split <;> rfl

namespace Lexeme

variable {written rest : String} {l : Lexeme}

/-- **What is taken off the front of a list is the first token of the text.** -/
theorem isFirst_of_next? (h : Scan.next? (written.toList ++ rest.toList) = some (l, rest.toList)) :
    l.IsFirst written rest := by
  have hposition : (written ++ rest).length - rest.toList.length = written.length := by
    rw [String.length_toList, String.length_append, Nat.add_sub_cancel]
  rw [← String.toList_append] at h
  obtain ⟨ts, stop, htokens, hloc⟩ := tokenize_of_next? h
  refine ⟨ts, stop, htokens, ?_, ?_⟩
  · rw [Cursor.next?_ofText h, Cursor.facing, List.size_toArray, String.length_toList, hposition]
  · rw [hloc, hposition]
    simp only [String.toList_eq_nil_iff]

/-! ### Names -/

/-- **A written name scans back**, whatever is in it, if it is not empty and the null character is
not in it.  What follows it does not begin with a character of a name, a backslash, an opening
parenthesis, a plus sign or a greater-than sign.  The first token is the name, and it covers what
was written to the last character. -/
theorem isFirst_ident {name rest : String} (hname : name ≠ "") (hnull : '\x00' ∉ name.toList)
    (hrest : ∀ c, rest.toList.head? = some c →
      isNameChar c = false ∧ c ≠ '\\' ∧ c ≠ '(' ∧ c ≠ '+' ∧ c ≠ '>') :
    (Lexeme.ident name).IsFirst (identText name) rest := by
  have hends : Scan.endsIdent rest.toList = true := by
    cases hcs : rest.toList with
    | nil => rfl
    | cons c cs =>
      obtain ⟨hchar, hbackslash, -, hplus, hgreater⟩ := hrest c (by rw [hcs]; rfl)
      simp [Scan.endsIdent, Scan.endsName, hchar, hbackslash, hplus, hgreater]
  have hparen : rest.toList.head? ≠ some '(' := fun h => (hrest '(' h).2.2.1 rfl
  refine isFirst_of_next? ?_
  rw [identText, String.toList_ofList]
  exact Scan.next?_ident ⟨hname, hnull⟩ hends hparen

/-- A name of a hyphen, a digit, a line break and a blank, with a blank behind it. -/
theorem isFirst_ident_escapes :
    ("-1\n " ≠ "" ∧ '\x00' ∉ "-1\n ".toList ∧ ∀ c, " b".toList.head? = some c →
        isNameChar c = false ∧ c ≠ '\\' ∧ c ≠ '(' ∧ c ≠ '+' ∧ c ≠ '>') ∧
      identText "-1\n " = "-\\31 \\a \\ " ∧
        (Lexeme.ident "-1\n ").IsFirst "-\\31 \\a \\ " " b" := by
  have hname : "-1\n " ≠ "" := by decide
  have hnull : '\x00' ∉ "-1\n ".toList := by decide
  have hrest : ∀ c, " b".toList.head? = some c →
      isNameChar c = false ∧ c ≠ '\\' ∧ c ≠ '(' ∧ c ≠ '+' ∧ c ≠ '>' := by
    intro c hc
    obtain rfl : ' ' = c := Option.some.inj hc
    decide
  have hwritten : identText "-1\n " = "-\\31 \\a \\ " := by decide +kernel
  have hfirst := isFirst_ident hname hnull hrest
  rw [hwritten] at hfirst
  exact ⟨⟨hname, hnull, hrest⟩, hwritten, hfirst⟩

/-! ### Strings -/

/-- **A written string scans back**, whatever is in it and whatever follows it.  The first token is
the string, and it covers what was written, from the one quote to the other. -/
theorem isFirst_string (value rest : String) :
    (Lexeme.string value).IsFirst (stringText value) rest := by
  refine isFirst_of_next? ?_
  rw [stringText, String.toList_ofList]
  exact Scan.next?_string value rest.toList

/-- The blank that ends the code of a line break keeps the digit behind it out of the code. -/
example : stringText "\n1\"" = "\"\\a 1\\\"\"" := by decide +kernel

end Lexeme

end Css2
