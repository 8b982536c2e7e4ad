import Css2.Proofs.Selector.Acceptance
import Css2.Proofs.Selector.Origin

/-!
# Selectors round trip

What is printed of a selector is read as this selector again, by a reader that was given the text
and nothing else (`Reader.call_selector_text`).  The one thing that no text can say is the null
character in a name: a backslash makes it part of a name, but its escape is read as the replacement
character (`Reader.not_call_selector_text`).
-/

namespace Css2

namespace Reader

/-- **Printing a selector that was read and reading the text gives the same selector**, provided
that no name has a null character: whatever followed the selector, its text is all that there is to
read. -/
theorem call_selector_text {text : String} {options : ParseOptions} {s : Selector} {r : Reader}
    (h : (ofStream (TokenStream.ofText text) options).call .selector
      = some (.ok (.selector s), r)) (hnames : NullFree s.names) (options' : ParseOptions) :
    ∃ r', (ofStream (TokenStream.ofText s.text) options').call .selector
      = some (.ok (.selector s), r') ∧ r'.unread = [] := by
  have hread : Grammar.selector (Grammar.skipTrivia (scan text)) = .ok (s, r.unread) :=
    call_selector_iff_grammar.1 ⟨r, h, rfl⟩
  have hreadable : s.Readable :=
    Grammar.selector_readable hread (Scanned.scan text).skipTrivia hnames
  have hback : Grammar.selector (scan s.text) = .ok (s, []) :=
    Grammar.selector_text_end hreadable (tokensOf_scan s.text)
  obtain ⟨t, us, hts, ht⟩ := Grammar.startsLink_of_selector hback
  refine call_selector_iff_grammar.2 ?_
  rw [hts, Grammar.skipTrivia_of_startsLink ht, ← hts]
  exact hback

/-- The text of a selector in which names and strings need escapes, in front of a block. -/
theorem call_selector_text_escapes :
    ∃ s r, (ofStream (TokenStream.ofText "#\\31 a[b='\x22']>.c\\.d \x7b") {}).call .selector
        = some (.ok (.selector s), r) ∧ s.names = ["1a", "b", "c.d"] ∧
      ∃ r', (ofStream (TokenStream.ofText s.text) {}).call .selector
        = some (.ok (.selector s), r') ∧ r'.unread = [] := by
  have h : Grammar.selector (Grammar.skipTrivia (scan "#\\31 a[b='\x22']>.c\\.d \x7b")) = .ok
      (⟨[⟨[⟨none, [.id "1a", .attributes [⟨"b", .equals, some "\x22"⟩]], .first⟩,
        ⟨none, [.className "c.d"], .child⟩]⟩]⟩, [⟨.mark .openBrace, ⟨1, 21, 20⟩⟩]) := by
    with_unfolding_all rfl
  obtain ⟨r, hr, -⟩ := call_selector_iff_grammar.2 h
  refine ⟨_, r, hr, rfl, call_selector_text hr ?_ {}⟩
  show ∀ name ∈ ["1a", "b", "c.d"], '\x00' ∉ name.toList
  decide

/-- **A null character in a name is lost**: the name that a backslash and the null character make is
written as an escape, which is read as the replacement character. -/
theorem not_call_selector_text :
    ¬ ∀ (text : String) (options : ParseOptions) (s : Selector) (r : Reader),
      (ofStream (TokenStream.ofText text) options).call .selector
          = some (.ok (.selector s), r) →
        ∃ r', (ofStream (TokenStream.ofText s.text) options).call .selector
          = some (.ok (.selector s), r') := by
  intro h
  have hread : Grammar.selector (Grammar.skipTrivia (scan "\\\x00"))
      = .ok (⟨[⟨[⟨some "\x00", [], .first⟩]⟩]⟩, []) := by
    with_unfolding_all rfl
  have hback : Grammar.selector (Grammar.skipTrivia (scan "\\0 "))
      = .ok (⟨[⟨[⟨some "\ufffd", [], .first⟩]⟩]⟩, []) := by
    with_unfolding_all rfl
  obtain ⟨r, hr, -⟩ := call_selector_iff_grammar.2 hread
  obtain ⟨r', hr'⟩ := h "\\\x00" {} _ r hr
  have hsame := call_selector_iff_grammar.1 ⟨r', hr', rfl⟩
  rw [show Selector.text _ = "\\0 " from rfl] at hsame
  have hnames : ["\ufffd"] = ["\x00"] :=
    congrArg (fun x : Selector × List Token => x.1.names) (Except.ok.inj (hback.symm.trans hsame))
  exact absurd hnames (by decide)

end Reader

end Css2
