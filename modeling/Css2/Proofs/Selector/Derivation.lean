import Css2.Proofs.Selector.ReadBack

/-!
# Derivations of selectors

How a list of lexemes makes up a selector, written down with everything that the grammar leaves
open: the trivia between two lexemes, the kind of lexeme that an attribute is compared with, the way
in which two links are joined.  A derivation has the lexemes that it is read from
(`Derivation.Group.lexemes`) and the selector that they mean (`Derivation.Group.selector`).

No list of lexemes has two derivations, not even one that goes on behind the selector
(`Derivation.decodes_group`).  White space may be a combinator, stand around one, or stand at the
end of a chain, and what comes behind it tells which; so each construct is told from what follows
it by the first lexeme, or the first one that is no trivia, of what follows.
-/

namespace Css2

namespace Derivation

/-! ### Conditions -/

/-- Trivia that may stand between two lexemes. -/
@[ext] structure Padding where
  lexemes : List Lexeme
  isTrivia : ∀ l ∈ lexemes, l.isTrivia = true

inductive Comparator where
  | equals
  | includes
  | dashMatch

def Comparator.lexeme : Comparator → Lexeme
  | equals => .delim '='
  | includes => .mark .includes
  | dashMatch => .mark .dashMatch

def Comparator.test : Comparator → AttributeTest
  | equals => .equals
  | includes => .includes
  | dashMatch => .dashMatch

inductive Operand where
  | ident (value : String)
  | string (value : String)

def Operand.lexeme : Operand → Lexeme
  | ident value => .ident value
  | string value => .string value

def Operand.value : Operand → String
  | ident value => value
  | string value => value

/-- The comparison of an attribute: `[ '=' | INCLUDES | DASHMATCH ] S* [ IDENT | STRING ] S*`. -/
structure Comparison where
  comparator : Comparator
  before : Padding
  operand : Operand
  after : Padding

def Comparison.lexemes (c : Comparison) : List Lexeme :=
  c.comparator.lexeme :: (c.before.lexemes ++ c.operand.lexeme :: c.after.lexemes)

/-- A test of an attribute: `'[' S* IDENT S* comparison? ']'`. -/
structure Predicate where
  before : Padding
  name : String
  after : Padding
  comparison : Option Comparison

def Predicate.lexemes (p : Predicate) : List Lexeme :=
  .mark .openBracket :: (p.before.lexemes ++ .ident p.name ::
    (p.after.lexemes ++ (p.comparison.elim [] Comparison.lexemes ++ [.mark .closeBracket])))

def Predicate.sel (p : Predicate) : AttributeSel :=
  match p.comparison with
  | none => ⟨p.name, .present, none⟩
  | some c => ⟨p.name, c.comparator.test, some c.operand.value⟩

/-- A name behind a colon: `':' [ IDENT | FUNCTION S* IDENT S* ')' ]`. -/
inductive PseudoName where
  | plain (name : String)
  | applied (name : String) (before : Padding) (argument : String) (after : Padding)

def PseudoName.lexemes : PseudoName → List Lexeme
  | plain name => [.mark .colon, .ident name]
  | applied name before argument after =>
    .mark .colon :: .function name :: (before.lexemes ++ .ident argument ::
      (after.lexemes ++ [.mark .closeParen]))

/-- The pseudo-class or pseudo-element that is meant. -/
def PseudoName.pseudo : PseudoName → Pseudo
  | plain name => ⟨name, none⟩
  | applied name _ argument _ => ⟨name, some argument⟩

/-- A part of a link behind the name of the element. -/
inductive Part where
  | id (name : String)
  | className (name : String)
  | predicate (p : Predicate)
  | pseudo (p : PseudoName)

def Part.lexemes : Part → List Lexeme
  | id name => [.hash name true]
  | className name => [.delim '.', .ident name]
  | predicate p => p.lexemes
  | pseudo p => p.lexemes

/-- The conditions that parts mean.  Tests of attributes that follow one upon the other are one
condition. -/
def conditions : List Part → List Condition
  | [] => []
  | .id name :: ps => .id name :: conditions ps
  | .className name :: ps => .className name :: conditions ps
  | .pseudo p :: ps => .pseudo p.pseudo :: conditions ps
  | .predicate p :: ps =>
    match conditions ps with
    | .attributes tests :: cs => .attributes (p.sel :: tests) :: cs
    | cs => .attributes [p.sel] :: cs

/-! ### Links, chains and groups -/

inductive Element where
  | named (name : String)
  | any

def Element.lexeme : Element → Lexeme
  | named name => .ident name
  | any => .delim '*'

def Element.name? : Element → Option String
  | named name => some name
  | any => none

/-- A link without its combinator: `element part* | part+`. -/
structure Simple where
  element : Option Element
  parts : List Part
  nonempty : element = none → parts ≠ []

def Simple.lexemes (s : Simple) : List Lexeme :=
  (s.element.map Element.lexeme).toList ++ s.parts.flatMap Part.lexemes

def Simple.link (s : Simple) (combinator : Combinator) : Link :=
  ⟨s.element.bind Element.name?, conditions s.parts, combinator⟩

/-- What joins a link to the one before it: `S* [ '>' | '+' ] S*`, or trivia with white space. -/
inductive Joint where
  | child (before after : Padding)
  | adjacent (before after : Padding)
  | descendant (blank : Padding) (spaced : .whitespace ∈ blank.lexemes)

def Joint.lexemes : Joint → List Lexeme
  | child before after => before.lexemes ++ .delim '>' :: after.lexemes
  | adjacent before after => before.lexemes ++ .delim '+' :: after.lexemes
  | descendant blank _ => blank.lexemes

def Joint.combinator : Joint → Combinator
  | child _ _ => .child
  | adjacent _ _ => .adjacent
  | descendant _ _ => .descendant

structure Joined where
  joint : Joint
  simple : Simple

def Joined.lexemes (j : Joined) : List Lexeme :=
  j.joint.lexemes ++ j.simple.lexemes

def Joined.link (j : Joined) : Link :=
  j.simple.link j.joint.combinator

/-- A chain: `simple [ joint simple ]*`. -/
structure Chain where
  first : Simple
  more : List Joined

def Chain.lexemes (c : Chain) : List Lexeme :=
  c.first.lexemes ++ c.more.flatMap Joined.lexemes

def Chain.chain (c : Chain) : Css2.Chain :=
  ⟨c.first.link .first :: c.more.map Joined.link⟩

/-- A chain behind a comma: `S* ',' S* chain`. -/
structure Listed where
  before : Padding
  after : Padding
  chain : Chain

def Listed.lexemes (l : Listed) : List Lexeme :=
  l.before.lexemes ++ .mark .comma :: (l.after.lexemes ++ l.chain.lexemes)

/-- A selector: `chain [ S* ',' S* chain ]*`. -/
structure Group where
  first : Chain
  more : List Listed

def Group.lexemes (g : Group) : List Lexeme :=
  g.first.lexemes ++ g.more.flatMap Listed.lexemes

def Group.selector (g : Group) : Selector :=
  ⟨g.first.chain :: g.more.map fun l => l.chain.chain⟩

/-! ### What may follow -/

/-- The lexemes do not begin with trivia. -/
def Solid (ls : List Lexeme) : Prop :=
  ∀ l ∈ ls.head?, l.isTrivia = false

def front (ls : List Lexeme) : Option Lexeme :=
  (ls.dropWhile Lexeme.isTrivia).head?

def startsPart : Lexeme → Bool
  | .hash _ _ => true
  | .delim c => c = '.'
  | .mark .openBracket | .mark .colon => true
  | _ => false

/-- No further part follows. -/
def EndsParts (ls : List Lexeme) : Prop :=
  ∀ l ∈ ls.head?, startsPart l = false

def StartsLink (ls : List Lexeme) : Prop :=
  ∃ l ∈ ls.head?, Grammar.startsLink l = true

def EndsChain (ls : List Lexeme) : Prop :=
  front ls = none ∨ front ls = some (.mark .comma) ∨ front ls = some (.mark .openBrace)

def EndsGroup (ls : List Lexeme) : Prop :=
  front ls = none ∨ front ls = some (.mark .openBrace)

theorem EndsGroup.endsChain {ls : List Lexeme} (h : EndsGroup ls) : EndsChain ls :=
  h.imp_right .inr

theorem solid_cons {l : Lexeme} (h : l.isTrivia = false) (ls : List Lexeme) : Solid (l :: ls) := by
  rintro _ ⟨⟩
  exact h

theorem front_cons {l : Lexeme} (h : l.isTrivia = false) (ls : List Lexeme) :
    front (l :: ls) = some l := by
  rw [front, List.dropWhile_cons_of_neg (by simp [h])]
  rfl

theorem Solid.front_eq {ls : List Lexeme} (h : Solid ls) : front ls = ls.head? := by
  cases ls with
  | nil => rfl
  | cons l ls => exact front_cons (h l rfl) ls

theorem Padding.front_append (p : Padding) (ls : List Lexeme) :
    front (p.lexemes ++ ls) = front ls := by
  rw [front, List.dropWhile_append_of_pos p.isTrivia, front]

theorem StartsLink.solid {ls : List Lexeme} (h : StartsLink ls) : Solid ls := by
  obtain ⟨l, hl, hlink⟩ := h
  intro k hk
  obtain rfl := Option.mem_unique hl hk
  exact (Grammar.startsLink_ne hlink).1

theorem StartsLink.cons {l : Lexeme} (h : Grammar.startsLink l = true) (ls : List Lexeme) :
    StartsLink (l :: ls) :=
  ⟨l, rfl, h⟩

theorem StartsLink.append {ls : List Lexeme} (h : StartsLink ls) (ks : List Lexeme) :
    StartsLink (ls ++ ks) := by
  obtain ⟨l, hl, hlink⟩ := h
  cases ls with
  | nil => cases hl
  | cons k ls => exact ⟨l, hl, hlink⟩

/-! ### Decoding -/

section Decodes

variable {α : Type} {f : α → List Lexeme} {P Q : List Lexeme → Prop}

/-- The lexemes of a construct tell which one it is and where it ends, if what follows them has the
given property. -/
def Decodes (f : α → List Lexeme) (P : List Lexeme → Prop) : Prop :=
  ∀ ⦃a b : α⦄ ⦃xs ys : List Lexeme⦄, P xs → P ys → f a ++ xs = f b ++ ys → a = b ∧ xs = ys

/-- **Constructs one after another are told apart** if what follows the last of them does not begin
with another one. -/
theorem Decodes.flatMap (h : Decodes f P) (hend : ∀ xs, Q xs → P xs)
    (hnext : ∀ a xs, P (f a ++ xs)) (hstop : ∀ a xs, ¬Q (f a ++ xs)) :
    Decodes (List.flatMap f) Q := by
  intro as bs xs ys hx hy heq
  have hP : ∀ (cs : List α) (zs : List Lexeme), Q zs → P (cs.flatMap f ++ zs) := by
    intro cs zs hz
    cases cs with
    | nil => exact hend zs hz
    | cons c cs =>
      rw [List.flatMap_cons, List.append_assoc]
      exact hnext c _
  induction as generalizing bs with
  | nil =>
    cases bs with
    | nil => exact ⟨rfl, heq⟩
    | cons b bs =>
      rw [List.flatMap_nil, List.nil_append, List.flatMap_cons, List.append_assoc] at heq
      exact absurd (heq ▸ hx) (hstop b _)
  | cons a as ih =>
    cases bs with
    | nil =>
      rw [List.flatMap_nil, List.nil_append, List.flatMap_cons, List.append_assoc] at heq
      exact absurd (heq ▸ hy) (hstop a _)
    | cons b bs =>
      rw [List.flatMap_cons, List.flatMap_cons, List.append_assoc, List.append_assoc] at heq
      obtain ⟨hfirst, hmore⟩ := h (hP as xs hx) (hP bs ys hy) heq
      obtain ⟨hothers, hrest⟩ := ih hmore
      exact ⟨by rw [hfirst, hothers], hrest⟩

end Decodes

theorem decodes_padding : Decodes Padding.lexemes Solid := by
  have htake : ∀ (p : Padding) (xs : List Lexeme), Solid xs →
      (p.lexemes ++ xs).takeWhile Lexeme.isTrivia = p.lexemes := by
    intro p xs hx
    have hnone : xs.takeWhile Lexeme.isTrivia = [] := by
      cases xs with
      | nil => rfl
      | cons l xs => exact List.takeWhile_cons_of_neg (by simp [hx l rfl])
    rw [List.takeWhile_append_of_pos p.isTrivia, hnone, List.append_nil]
  intro p q xs ys hx hy heq
  have hlexemes : p.lexemes = q.lexemes := by
    rw [← htake p xs hx, heq, htake q ys hy]
  rw [hlexemes] at heq
  exact ⟨Padding.ext hlexemes, List.append_cancel_left heq⟩

theorem Comparator.lexeme_injective {c d : Comparator} (h : c.lexeme = d.lexeme) : c = d := by
  cases c <;> cases d <;> first | rfl | cases h

theorem Comparator.isTrivia_lexeme (c : Comparator) : c.lexeme.isTrivia = false := by
  cases c <;> rfl

theorem Operand.lexeme_injective {o o' : Operand} (h : o.lexeme = o'.lexeme) : o = o' := by
  cases o <;> cases o' <;> cases h <;> rfl

theorem Operand.isTrivia_lexeme (o : Operand) : o.lexeme.isTrivia = false := by
  cases o <;> rfl

theorem decodes_comparison : Decodes Comparison.lexemes Solid := by
  intro c d xs ys hx hy heq
  obtain ⟨comparator, before, operand, after⟩ := c
  obtain ⟨comparator', before', operand', after'⟩ := d
  simp only [Comparison.lexemes, List.cons_append, List.append_assoc, List.cons.injEq] at heq
  obtain ⟨hcomparator, heq⟩ := heq
  obtain ⟨hbefore, heq⟩ := decodes_padding (solid_cons operand.isTrivia_lexeme _)
    (solid_cons operand'.isTrivia_lexeme _) heq
  obtain ⟨hoperand, heq⟩ := List.cons.inj heq
  obtain ⟨hafter, heq⟩ := decodes_padding hx hy heq
  rw [Comparator.lexeme_injective hcomparator, hbefore, Operand.lexeme_injective hoperand, hafter]
  exact ⟨rfl, heq⟩

/-- Behind the name of an attribute there is a comparison or the closing bracket. -/
theorem decodes_comparison? :
    Decodes (fun c : Option Comparison => c.elim [] Comparison.lexemes)
      fun xs => xs.head? = some (.mark .closeBracket) := by
  have hsolid : ∀ xs : List Lexeme, xs.head? = some (.mark .closeBracket) → Solid xs := by
    intro xs hx l hl
    obtain rfl := Option.some.inj (hx.symm.trans hl)
    rfl
  have hclose : ∀ (c : Comparison) (xs ys : List Lexeme),
      ys.head? = some (.mark .closeBracket) → c.lexemes ++ xs ≠ ys := by
    rintro c xs _ hy rfl
    obtain ⟨comparator, _⟩ := c
    cases comparator <;> cases hy
  intro c d xs ys hx hy heq
  cases c with
  | none =>
    cases d with
    | none => exact ⟨rfl, heq⟩
    | some d => exact absurd heq.symm (hclose d ys xs hx)
  | some c =>
    cases d with
    | none => exact absurd heq (hclose c xs ys hy)
    | some d =>
      obtain ⟨hcomparison, hrest⟩ := decodes_comparison (hsolid xs hx) (hsolid ys hy) heq
      exact ⟨congrArg some hcomparison, hrest⟩

theorem Predicate.solid_comparison? (c : Option Comparison) (xs : List Lexeme) :
    Solid (c.elim [] Comparison.lexemes ++ .mark .closeBracket :: xs) := by
  cases c with
  | none => exact solid_cons rfl _
  | some c => exact solid_cons c.comparator.isTrivia_lexeme _

theorem decodes_predicate : Decodes Predicate.lexemes fun _ => True := by
  intro p q xs ys _ _ heq
  obtain ⟨before, name, after, comparison⟩ := p
  obtain ⟨before', name', after', comparison'⟩ := q
  simp only [Predicate.lexemes, List.cons_append, List.append_assoc, List.cons.injEq, true_and,
    List.nil_append] at heq
  obtain ⟨hbefore, heq⟩ := decodes_padding (solid_cons rfl _) (solid_cons rfl _) heq
  obtain ⟨hname, heq⟩ := List.cons.inj heq
  obtain ⟨hafter, heq⟩ := decodes_padding (Predicate.solid_comparison? _ _)
    (Predicate.solid_comparison? _ _) heq
  obtain ⟨hcomparison, heq⟩ := decodes_comparison? rfl rfl heq
  rw [hbefore, Lexeme.ident.inj hname, hafter, hcomparison]
  exact ⟨rfl, (List.cons.inj heq).2⟩

theorem decodes_pseudoName : Decodes PseudoName.lexemes fun _ => True := by
  intro p q xs ys _ _ heq
  cases p with
  | plain name =>
    cases q with
    | plain name' =>
      cases heq
      exact ⟨rfl, rfl⟩
    | applied => cases heq
  | applied name before argument after =>
    cases q with
    | plain => cases heq
    | applied name' before' argument' after' =>
      simp only [PseudoName.lexemes, List.cons_append, List.nil_append, List.append_assoc,
        List.cons.injEq, true_and] at heq
      obtain ⟨hname, heq⟩ := heq
      obtain ⟨hbefore, heq⟩ := decodes_padding (solid_cons rfl _) (solid_cons rfl _) heq
      obtain ⟨hargument, heq⟩ := List.cons.inj heq
      obtain ⟨hafter, heq⟩ := decodes_padding (solid_cons rfl _) (solid_cons rfl _) heq
      rw [Lexeme.function.inj hname, hbefore, Lexeme.ident.inj hargument, hafter]
      exact ⟨rfl, (List.cons.inj heq).2⟩

theorem Part.exists_lexemes (p : Part) :
    ∃ l ls, p.lexemes = l :: ls ∧ startsPart l = true := by
  cases p with
  | id name => exact ⟨_, _, rfl, rfl⟩
  | className name => exact ⟨_, _, rfl, rfl⟩
  | predicate p => exact ⟨_, _, rfl, rfl⟩
  | pseudo p => cases p <;> exact ⟨_, _, rfl, rfl⟩

theorem decodes_part : Decodes Part.lexemes fun _ => True := by
  intro p q xs ys hx hy heq
  cases p with
  | id name =>
    cases q with
    | id name' => cases heq; exact ⟨rfl, rfl⟩
    | className => cases heq
    | predicate => cases heq
    | pseudo q => cases q <;> cases heq
  | className name =>
    cases q with
    | id => cases heq
    | className name' => cases heq; exact ⟨rfl, rfl⟩
    | predicate => cases heq
    | pseudo q => cases q <;> cases heq
  | predicate p =>
    cases q with
    | id => cases heq
    | className => cases heq
    | predicate q =>
      obtain ⟨hpredicate, hrest⟩ := decodes_predicate hx hy heq
      exact ⟨congrArg Part.predicate hpredicate, hrest⟩
    | pseudo q => cases q <;> cases heq
  | pseudo p =>
    cases q with
    | id => cases p <;> cases heq
    | className => cases p <;> cases heq
    | predicate => cases p <;> cases heq
    | pseudo q =>
      obtain ⟨hpseudo, hrest⟩ := decodes_pseudoName hx hy heq
      exact ⟨congrArg Part.pseudo hpseudo, hrest⟩

theorem Part.not_endsParts (p : Part) (xs : List Lexeme) : ¬EndsParts (p.lexemes ++ xs) := by
  intro h
  obtain ⟨l, ls, hl, hstart⟩ := p.exists_lexemes
  rw [hl] at h
  rw [h l rfl] at hstart
  cases hstart

theorem decodes_parts : Decodes (List.flatMap Part.lexemes) EndsParts :=
  decodes_part.flatMap (fun _ _ => trivial) (fun _ _ => trivial) Part.not_endsParts

/-! ### Decoding links, chains and groups -/

theorem startsLink_of_startsPart {l : Lexeme} (h : startsPart l = true) :
    Grammar.startsLink l = true := by
  cases l with
  | hash name isIdent => rfl
  | delim c => simpa [Grammar.startsLink] using Or.inr (of_decide_eq_true h)
  | mark m => cases m <;> first | rfl | cases h
  | _ => cases h

theorem Element.startsLink_lexeme (e : Element) : Grammar.startsLink e.lexeme = true := by
  cases e <;> rfl

theorem Element.startsPart_lexeme (e : Element) : startsPart e.lexeme = false := by
  cases e <;> rfl

theorem Element.lexeme_injective {e e' : Element} (h : e.lexeme = e'.lexeme) : e = e' := by
  cases e <;> cases e' <;> cases h <;> rfl

theorem Simple.startsLink (s : Simple) : StartsLink s.lexemes := by
  obtain ⟨element, parts, hne⟩ := s
  cases element with
  | some e => exact .cons e.startsLink_lexeme _
  | none =>
    cases parts with
    | nil => exact absurd rfl (hne rfl)
    | cons p ps =>
      obtain ⟨l, ls, hl, hstart⟩ := p.exists_lexemes
      refine ⟨l, ?_, startsLink_of_startsPart hstart⟩
      simp [lexemes, hl]

theorem Simple.element_ne_parts {e : Element} {p : Part} {xs ys : List Lexeme} :
    e.lexeme :: xs ≠ p.lexemes ++ ys := by
  intro heq
  obtain ⟨l, ls, hl, hstart⟩ := p.exists_lexemes
  rw [hl] at heq
  rw [← (List.cons.inj heq).1, e.startsPart_lexeme] at hstart
  cases hstart

theorem decodes_simple : Decodes Simple.lexemes EndsParts := by
  intro s t xs ys hx hy heq
  obtain ⟨element, parts, hne⟩ := s
  obtain ⟨element', parts', hne'⟩ := t
  simp only [Simple.lexemes, List.append_assoc] at heq
  cases element with
  | some e =>
    cases element' with
    | some e' =>
      obtain ⟨helement, hmore⟩ := List.cons.inj heq
      obtain ⟨hparts, hrest⟩ := decodes_parts hx hy hmore
      simp only [Element.lexeme_injective helement, hparts]
      exact ⟨trivial, hrest⟩
    | none =>
      cases parts' with
      | nil => exact absurd rfl (hne' rfl)
      | cons p ps =>
        simp only [List.flatMap_cons, List.append_assoc] at heq
        exact absurd heq Simple.element_ne_parts
  | none =>
    cases element' with
    | some e' =>
      cases parts with
      | nil => exact absurd rfl (hne rfl)
      | cons p ps =>
        simp only [List.flatMap_cons, List.append_assoc] at heq
        exact absurd heq.symm Simple.element_ne_parts
    | none =>
      obtain ⟨hparts, hrest⟩ := decodes_parts hx hy heq
      simp only [hparts]
      exact ⟨trivial, hrest⟩

theorem decodes_sign {before after before' after' : Padding} {c c' : Char} {xs ys : List Lexeme}
    (hx : StartsLink xs) (hy : StartsLink ys)
    (heq : (before.lexemes ++ .delim c :: after.lexemes) ++ xs
      = (before'.lexemes ++ .delim c' :: after'.lexemes) ++ ys) :
    before = before' ∧ c = c' ∧ after = after' ∧ xs = ys := by
  simp only [List.append_assoc] at heq
  obtain ⟨hbefore, heq⟩ := decodes_padding (solid_cons rfl _) (solid_cons rfl _) heq
  obtain ⟨hsign, heq⟩ := List.cons.inj heq
  obtain ⟨hafter, hrest⟩ := decodes_padding hx.solid hy.solid heq
  exact ⟨hbefore, Lexeme.delim.inj hsign, hafter, hrest⟩

theorem padding_ne_sign {blank before after : Padding} {c : Char} {xs ys : List Lexeme}
    (hc : Grammar.startsLink (.delim c) = false) (hx : StartsLink xs) :
    blank.lexemes ++ xs ≠ (before.lexemes ++ .delim c :: after.lexemes) ++ ys := by
  intro heq
  simp only [List.append_assoc] at heq
  obtain ⟨-, rfl⟩ := decodes_padding hx.solid (solid_cons rfl _) heq
  obtain ⟨l, hl, hlink⟩ := hx
  obtain rfl := Option.some.inj hl
  rw [hc] at hlink
  cases hlink

theorem decodes_joint : Decodes Joint.lexemes StartsLink := by
  intro j k xs ys hx hy heq
  cases j with
  | child before after =>
    cases k with
    | child before' after' =>
      obtain ⟨hbefore, -, hafter, hrest⟩ := decodes_sign hx hy heq
      rw [hbefore, hafter]
      exact ⟨rfl, hrest⟩
    | adjacent before' after' => exact absurd (decodes_sign hx hy heq).2.1 (by decide)
    | descendant blank spaced => exact absurd heq.symm (padding_ne_sign rfl hy)
  | adjacent before after =>
    cases k with
    | child before' after' => exact absurd (decodes_sign hx hy heq).2.1 (by decide)
    | adjacent before' after' =>
      obtain ⟨hbefore, -, hafter, hrest⟩ := decodes_sign hx hy heq
      rw [hbefore, hafter]
      exact ⟨rfl, hrest⟩
    | descendant blank spaced => exact absurd heq.symm (padding_ne_sign rfl hy)
  | descendant blank spaced =>
    cases k with
    | child before' after' => exact absurd heq (padding_ne_sign rfl hx)
    | adjacent before' after' => exact absurd heq (padding_ne_sign rfl hx)
    | descendant blank' spaced' =>
      obtain ⟨hblank, hrest⟩ := decodes_padding hx.solid hy.solid heq
      simp only [hblank]
      exact ⟨trivial, hrest⟩

theorem decodes_joined : Decodes Joined.lexemes EndsParts := by
  intro j k xs ys hx hy heq
  obtain ⟨joint, simple⟩ := j
  obtain ⟨joint', simple'⟩ := k
  simp only [Joined.lexemes, List.append_assoc] at heq
  obtain ⟨hjoint, heq⟩ := decodes_joint (simple.startsLink.append xs)
    (simple'.startsLink.append ys) heq
  obtain ⟨hsimple, heq⟩ := decodes_simple hx hy heq
  rw [hjoint, hsimple]
  exact ⟨rfl, heq⟩

/-- A joint begins with trivia or with its combinator, and behind the trivia no chain ends. -/
theorem Joined.front_append (j : Joined) (xs : List Lexeme) :
    ∃ l, front (j.lexemes ++ xs) = some l ∧ l.isMark .comma = false ∧
      l.isMark .openBrace = false := by
  obtain ⟨joint, simple⟩ := j
  rw [Joined.lexemes, List.append_assoc]
  cases joint with
  | child before after =>
    refine ⟨.delim '>', ?_, rfl, rfl⟩
    rw [Joint.lexemes, List.append_assoc, before.front_append]
    exact front_cons rfl _
  | adjacent before after =>
    refine ⟨.delim '+', ?_, rfl, rfl⟩
    rw [Joint.lexemes, List.append_assoc, before.front_append]
    exact front_cons rfl _
  | descendant blank spaced =>
    have hstart := simple.startsLink.append xs
    obtain ⟨l, hl, hlink⟩ := hstart
    refine ⟨l, ?_, (Grammar.startsLink_ne hlink).2.2.2⟩
    rw [Joint.lexemes, blank.front_append, (simple.startsLink.append xs).solid.front_eq]
    exact hl

theorem Joined.not_endsChain (j : Joined) (xs : List Lexeme) : ¬EndsChain (j.lexemes ++ xs) := by
  obtain ⟨l, hl, hcomma, hbrace⟩ := j.front_append xs
  rw [EndsChain, hl]
  rintro (h | h | h)
  · cases h
  · rw [Option.some.inj h] at hcomma
    cases hcomma
  · rw [Option.some.inj h] at hbrace
    cases hbrace

theorem endsParts_of_isTrivia {l : Lexeme} (h : l.isTrivia = true) (ls : List Lexeme) :
    EndsParts (l :: ls) := by
  rintro _ ⟨⟩
  cases l <;> first | rfl | cases h

theorem Padding.endsParts_append (p : Padding) {ls : List Lexeme} (h : EndsParts ls) :
    EndsParts (p.lexemes ++ ls) := by
  cases hp : p.lexemes with
  | nil => exact h
  | cons l ps => exact endsParts_of_isTrivia (p.isTrivia l (hp ▸ List.mem_cons_self)) _

theorem Joined.endsParts (j : Joined) (xs : List Lexeme) : EndsParts (j.lexemes ++ xs) := by
  have hdelim : ∀ {c : Char} (ls : List Lexeme), c ≠ '.' → EndsParts (.delim c :: ls) := by
    rintro c ls hc _ ⟨⟩
    exact decide_eq_false hc
  obtain ⟨joint, simple⟩ := j
  rw [Joined.lexemes, List.append_assoc]
  cases joint with
  | child before after =>
    rw [Joint.lexemes, List.append_assoc]
    exact before.endsParts_append (hdelim _ (by decide))
  | adjacent before after =>
    rw [Joint.lexemes, List.append_assoc]
    exact before.endsParts_append (hdelim _ (by decide))
  | descendant blank spaced =>
    rw [Joint.lexemes]
    cases hb : blank.lexemes with
    | nil =>
      rw [hb] at spaced
      cases spaced
    | cons l ls => exact endsParts_of_isTrivia (blank.isTrivia l (hb ▸ List.mem_cons_self)) _

theorem EndsChain.endsParts {ls : List Lexeme} (h : EndsChain ls) : EndsParts ls := by
  cases ls with
  | nil => rintro _ ⟨⟩
  | cons l ls =>
    cases hl : l.isTrivia with
    | true => exact endsParts_of_isTrivia hl ls
    | false =>
      rw [EndsChain, front_cons hl] at h
      rintro _ ⟨⟩
      rcases h with h | h | h
      · cases h
      · rw [Option.some.inj h]
        rfl
      · rw [Option.some.inj h]
        rfl

theorem decodes_chain : Decodes Chain.lexemes EndsChain := by
  have hmore : Decodes (List.flatMap Joined.lexemes) EndsChain :=
    decodes_joined.flatMap (fun _ => EndsChain.endsParts) Joined.endsParts Joined.not_endsChain
  have hends : ∀ (js : List Joined) {xs : List Lexeme}, EndsChain xs →
      EndsParts (js.flatMap Joined.lexemes ++ xs) := by
    intro js xs hx
    cases js with
    | nil => exact hx.endsParts
    | cons j js =>
      rw [List.flatMap_cons, List.append_assoc]
      exact j.endsParts _
  intro c d xs ys hx hy heq
  obtain ⟨first, more⟩ := c
  obtain ⟨first', more'⟩ := d
  simp only [Chain.lexemes, List.append_assoc] at heq
  obtain ⟨hfirst, heq⟩ := decodes_simple (hends more hx) (hends more' hy) heq
  obtain ⟨hothers, heq⟩ := hmore hx hy heq
  rw [hfirst, hothers]
  exact ⟨rfl, heq⟩

theorem Chain.startsLink (c : Chain) : StartsLink c.lexemes :=
  c.first.startsLink.append _

theorem Listed.front_append (l : Listed) (xs : List Lexeme) :
    front (l.lexemes ++ xs) = some (.mark .comma) := by
  rw [Listed.lexemes, List.append_assoc, l.before.front_append]
  exact front_cons rfl _

theorem decodes_listed : Decodes Listed.lexemes EndsChain := by
  intro l m xs ys hx hy heq
  obtain ⟨before, after, chain⟩ := l
  obtain ⟨before', after', chain'⟩ := m
  simp only [Listed.lexemes, List.append_assoc, List.cons_append] at heq
  obtain ⟨hbefore, heq⟩ := decodes_padding (solid_cons rfl _) (solid_cons rfl _) heq
  obtain ⟨hafter, heq⟩ := decodes_padding (chain.startsLink.append xs).solid
    (chain'.startsLink.append ys).solid (List.cons.inj heq).2
  obtain ⟨hchain, heq⟩ := decodes_chain hx hy heq
  rw [hbefore, hafter, hchain]
  exact ⟨rfl, heq⟩

/-- **The lexemes of a selector tell its derivation**, and where it ends. -/
theorem decodes_group : Decodes Group.lexemes EndsGroup := by
  have hmore : Decodes (List.flatMap Listed.lexemes) EndsGroup := by
    refine decodes_listed.flatMap (fun _ => EndsGroup.endsChain) (fun l xs => ?_) fun l xs h => ?_
    · exact .inr (.inl (l.front_append xs))
    · rw [EndsGroup, l.front_append] at h
      rcases h with h | h <;> cases h
  have hends : ∀ (ls : List Listed) {xs : List Lexeme}, EndsGroup xs →
      EndsChain (ls.flatMap Listed.lexemes ++ xs) := by
    intro ls xs hx
    cases ls with
    | nil => exact hx.endsChain
    | cons l ls =>
      rw [List.flatMap_cons, List.append_assoc]
      exact .inr (.inl (l.front_append _))
  intro g h xs ys hx hy heq
  obtain ⟨first, more⟩ := g
  obtain ⟨first', more'⟩ := h
  simp only [Group.lexemes, List.append_assoc] at heq
  obtain ⟨hfirst, heq⟩ := decodes_chain (hends more hx) (hends more' hy) heq
  obtain ⟨hothers, heq⟩ := hmore hx hy heq
  rw [hfirst, hothers]
  exact ⟨rfl, heq⟩

end Derivation

end Css2
