import Css2.Proofs.Sheet.Origin

/-!
# Printing and parsing

Writing a sheet that was read and reading it again gives the same sheet (`Sheet.parse_text`).
There are four things that no text can say, and the sheet must have none of them: a null character
in a name, for an escape never stands for one; a number that is not finite; a number with a sign of
its own, which reads back as part of the number; and an address at the limit of nesting, for it is
written as a function.
-/

namespace Css2

/-- What holds of all the parts of a sheet holds of the parts of its declarations. -/
theorem Declaration.plain_of_sheet {s : Sheet} {t : Statement} {d : Declaration} {k : Nat}
    (ht : t ∈ s.statements) (hd : d ∈ t.declarations) (hnames : NullFree s.names)
    (hnumbers : ∀ u ∈ s.terms, ∀ q, u.value = .number q → q.value.isFinite = true ∧ u.sign = none)
    (hfits : t.depth + Term.levelsAll d.value ≤ k) : d.Plain (k - t.depth) := by
  have hd' : NullFree d.names := by
    have hall := (nullFree_append.1 (nullFree_flatMap.1 hnames t ht)).2
    exact nullFree_flatMap.1 hall d hd
  have hterms : ∀ u ∈ d.terms, u ∈ s.terms := fun u hu =>
    List.mem_flatMap.2 ⟨t, ht, List.mem_flatMap.2 ⟨d, hd, hu⟩⟩
  refine ⟨hd' _ List.mem_cons_self, ?_, ?_, ?_⟩
  · intro u hu name hname
    exact hd' name (List.mem_cons_of_mem _ (List.mem_flatMap.2 ⟨u, hu, hname⟩))
  · exact fun u hu => hnumbers u (hterms u hu)
  · omega

/-- **Printing a sheet that was read and parsing the text gives the same sheet**, provided that no
name has a null character, every number is finite and has no sign of its own, and the functions are
not nested too deeply when every address counts as one. -/
theorem Sheet.parse_text {css : String} {s : Sheet} (h : Sheet.parse css = .ok s)
    (hnames : NullFree s.names)
    (hfinite : ∀ t ∈ s.terms, ∀ q, t.value = .number q → q.value.isFinite = true)
    (hunsigned : ∀ t ∈ s.terms, ∀ q, t.value = .number q → t.sign = none)
    (hfits : ∀ t ∈ s.statements, ∀ d ∈ t.declarations,
      t.depth + Term.levelsAll d.value ≤ ({} : ParseOptions).maxNesting) :
    Sheet.parse s.text = .ok s := by
  unfold Sheet.parse Sheet.parseWith Sheet.parseTokens at h
  dsimp only at h
  split at h
  · next hresult =>
    obtain ⟨ss, hrun, hordered, hread⟩ :=
      Parser.statements_readable hresult (Scanned.scan css)
    obtain rfl : s = ⟨ss⟩ := by
      cases h
      rw [Parser.sheet]
      dsimp only
      rw [Sheet.ofEvents_document]
      exact hrun (Builder.empty.step .startDocument) (Builder.idle_discard _)
    refine Sheet.parse_text_of_readable (fun t ht => hread t ht ?_ fun d hd => ?_) hordered
    · exact (nullFree_append.1 (nullFree_flatMap.1 hnames t ht)).1
    · exact Declaration.plain_of_sheet ht hd hnames
        (fun u hu q hq => ⟨hfinite u hu q hq, hunsigned u hu q hq⟩) (hfits t ht d hd)
  · cases h

/-- An import and a ruleset with a negative quantity and an unquoted address. -/
theorem Sheet.parse_text_address :
    ∃ s, Sheet.parse "@import'a'b;c>d\x7be:-1.5em/url(f)\x7d" = .ok s ∧
      s.names = ["b", "c", "d", "e"] ∧ Sheet.parse s.text = .ok s := by
  have h : Sheet.parse "@import'a'b;c>d\x7be:-1.5em/url(f)\x7d"
      = .ok ⟨[.importSheet "a" ["b"],
          .ruleset ⟨⟨[⟨[⟨some "c", [], .first⟩, ⟨some "d", [], .child⟩]⟩]⟩,
            [⟨"e", [⟨.number ⟨(Decimal.mk true 15 (-1)).toFloat, .em⟩, none, some .slash⟩,
              ⟨.uri "f", none, none⟩], false⟩]⟩]⟩ := by
    with_unfolding_all rfl
  refine ⟨_, h, rfl, Sheet.parse_text h ?_ ?_ ?_ ?_⟩
  · show ∀ name ∈ ["b", "c", "d", "e"], '\x00' ∉ name.toList
    decide
  · intro t ht q hq
    rcases List.mem_cons.1 ht with rfl | ht
    · cases hq
      with_unfolding_all rfl
    · rw [List.mem_singleton.1 ht] at hq
      cases hq
  · intro t ht q hq
    rcases List.mem_cons.1 ht with rfl | ht
    · rfl
    · rw [List.mem_singleton.1 ht]
  · decide

end Css2
