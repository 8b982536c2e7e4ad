import Css2.Proofs.Style.Footprint

/-!
# Lengths that are relative to the font

`Declaration.absolute` makes the `em` and `ex` lengths of a declaration absolute, for a font of a
given size.  A declaration reads as its absolute form does, and the absolute form reads the same
whatever the size of the font is, percentages of the height of lines apart
(`Declaration.settings?_absolute`).  For the size of the font itself the lengths are relative to
the font of the parent.
-/

namespace Css2

/-! ### Making lengths absolute -/

/-- The number with a length relative to a font of the size `em` made absolute. -/
def Quantity.absolute (em : Float) (n : Quantity) : Quantity :=
  match n.unit with
  | .em => ⟨n.value * em, .px⟩
  | .ex => ⟨n.value * em * 0.5, .px⟩
  | _ => n

/-- The term with a length relative to a font of the size `em` made absolute. -/
def Term.absolute (em : Float) (t : Term) : Term :=
  match t.value with
  | .number n => { t with value := .number (n.absolute em) }
  | _ => t

/-- The declaration with lengths relative to a font of the size `em` made absolute. -/
def Declaration.absolute (em : Float) (d : Declaration) : Declaration :=
  { d with value := d.value.map (Term.absolute em) }

namespace Term

variable (em : Float) (t : Term)

theorem ident?_absolute : (t.absolute em).ident? = t.ident? := by
  obtain ⟨v, sign, separator⟩ := t
  cases v <;> rfl

theorem number?_absolute : (t.absolute em).number? = t.number?.map (Quantity.absolute em) := by
  obtain ⟨v, sign, separator⟩ := t
  cases v <;> rfl

theorem separator_absolute : (t.absolute em).separator = t.separator := by
  obtain ⟨v, sign, separator⟩ := t
  cases v <;> rfl

theorem isIdent_absolute (keyword : String) :
    (t.absolute em).isIdent keyword = t.isIdent keyword := by
  rw [isIdent, isIdent, ident?_absolute]

end Term

/-- A length relative to the font is no plain number, and neither is what it is made of. -/
theorem Quantity.unit_absolute_eq_none (em : Float) (n : Quantity) :
    (n.absolute em).unit = .none ↔ n.unit = .none := by
  obtain ⟨v, unit⟩ := n
  cases unit <;> simp [Quantity.absolute]

theorem Quantity.absolute_of_unit {em : Float} {n : Quantity} (h : n.unit = .none) :
    n.absolute em = n := by
  obtain ⟨v, unit⟩ := n
  cases h
  rfl

/-! ### Terms -/

section Terms

variable (em em' : Float) (t : Term)

theorem readLength_absolute : readLength em' (t.absolute em) = readLength em t := by
  rw [readLength, readLength, Term.number?_absolute]
  cases t.number? with
  | none => rfl
  | some n =>
    obtain ⟨v, unit⟩ := n
    cases unit <;> rfl

theorem readNonNegative_absolute :
    readNonNegative em' (t.absolute em) = readNonNegative em t := by
  rw [readNonNegative, readNonNegative, readLength_absolute]

theorem readExtent_absolute : readExtent em' (t.absolute em) = readExtent em t := by
  rw [readExtent, readExtent, Term.isIdent_absolute, readLength_absolute]

theorem readSize_absolute : readSize em' (t.absolute em) = readSize em t := by
  rw [readSize, readSize, Term.isIdent_absolute, readNonNegative_absolute]

theorem readLimit_absolute : readLimit em' (t.absolute em) = readLimit em t := by
  rw [readLimit, readLimit, Term.isIdent_absolute, readNonNegative_absolute]

theorem readBorderWidth_absolute :
    readBorderWidth em' (t.absolute em) = readBorderWidth em t := by
  rw [readBorderWidth, readBorderWidth, Term.ident?_absolute, readNonNegative_absolute]

theorem readKeyword_absolute {α : Type} [Keyword α] :
    (readKeyword (t.absolute em) : Option α) = readKeyword t := by
  rw [readKeyword, readKeyword, Term.ident?_absolute]

theorem readPaint_absolute : readPaint (t.absolute em) = readPaint t := by
  obtain ⟨v, sign, separator⟩ := t
  cases v <;> rfl

theorem readColor_absolute : readColor (t.absolute em) = readColor t := by
  rw [readColor, readColor, readPaint_absolute]

/-- A percentage is taken of the size of the font, so that has to be the same. -/
theorem readLineHeight_absolute : readLineHeight em (t.absolute em) = readLineHeight em t := by
  rw [readLineHeight, readLineHeight, Term.isIdent_absolute, readNonNegative_absolute,
    Term.number?_absolute]
  cases t.number? with
  | none => rfl
  | some n =>
    by_cases hunit : n.unit = .none
    · simp only [Option.map_some, Quantity.absolute_of_unit hunit]
    · simp only [Option.map_some, if_neg (mt (Quantity.unit_absolute_eq_none em n).1 hunit),
        if_neg hunit]

theorem readLevel_absolute : readLevel (t.absolute em) = readLevel t := by
  rw [readLevel, readLevel, Term.isIdent_absolute, Term.number?_absolute]
  cases t.number? with
  | none => rfl
  | some n =>
    by_cases hunit : n.unit = .none
    · simp only [Option.map_some, Quantity.absolute_of_unit hunit]
    · simp only [Option.map_some, if_neg (mt (Quantity.unit_absolute_eq_none em n).1 hunit),
        if_neg hunit]

theorem readFontSize_absolute : readFontSize em (t.absolute em) = readFontSize em t := by
  rw [readFontSize, readFontSize, Term.ident?_absolute, readNonNegative_absolute]

theorem readFontWeight_absolute (weight : Nat) :
    readFontWeight weight (t.absolute em) = readFontWeight weight t := by
  rw [readFontWeight, readFontWeight, Term.ident?_absolute, Term.number?_absolute]
  cases t.number? with
  | none => rfl
  | some n =>
    by_cases hunit : n.unit = .none
    · simp only [Option.map_some, Quantity.absolute_of_unit hunit]
    · simp only [Option.map_some, if_neg (mt (Quantity.unit_absolute_eq_none em n).1 hunit),
        if_neg hunit]

theorem fontNames_absolute (name : String) (ts : List Term) :
    fontNames name (ts.map (Term.absolute em)) = fontNames name ts := by
  induction ts generalizing name with
  | nil => rfl
  | cons t ts ih =>
    obtain ⟨v, sign, separator⟩ := t
    cases v <;> simp [fontNames, Term.absolute, ih]

theorem addBorder_absolute (b : BorderValue) :
    BorderValue.add em' b (t.absolute em) = BorderValue.add em b t := by
  rw [BorderValue.add, BorderValue.add, Term.separator_absolute, readBorderWidth_absolute,
    readKeyword_absolute, readPaint_absolute]

end Terms

/-! ### Values -/

section Values

variable (em em' : Float) (value : List Term)

theorem readEdges_absolute {α : Type} {read read' : Term → Option α}
    (h : ∀ t : Term, read' (t.absolute em) = read t) (setting : Side → α → Setting) :
    readEdges read' setting (value.map (Term.absolute em)) = readEdges read setting value := by
  have hmap : (value.map (Term.absolute em)).mapM read' = value.mapM read := by
    rw [List.mapM_map]
    exact congrArg (fun f => value.mapM f) (funext h)
  rw [readEdges, readEdges, hmap]

theorem readBorder_absolute :
    readBorder em' (value.map (Term.absolute em)) = readBorder em value := by
  rw [readBorder, readBorder, List.foldlM_map]
  exact congrArg (fun f => value.foldlM f {}) (funext fun b => funext fun t =>
    addBorder_absolute em em' t b)

theorem findSome?_readPaint_absolute :
    (value.map (Term.absolute em)).findSome? readPaint = value.findSome? readPaint := by
  rw [List.findSome?_map]
  exact congrArg (fun f => value.findSome? f) (funext (readPaint_absolute em))

end Values

namespace Longhand

theorem readTerm_absolute {em em' : Float} {parent : Style} {l : Longhand} (t : Term)
    (hline : l = .lineHeight → em' = em) (hfont : l = .fontSize → em = parent.fontSize) :
    l.readTerm em' parent (t.absolute em) = l.readTerm em parent t := by
  cases l with
  | lineHeight =>
    rw [hline rfl]
    exact readLineHeight_absolute em t
  | fontSize =>
    rw [hfont rfl]
    exact readFontSize_absolute parent.fontSize t
  | fontFamily => exact fontNames_absolute em "" [t]
  | fontWeight => exact readFontWeight_absolute em t parent.fontWeight
  | zIndex => exact readLevel_absolute em t
  | color => exact readColor_absolute em t
  | backgroundColor => exact readPaint_absolute em t
  | borderColor side => exact readPaint_absolute em t
  | borderWidth side => exact readBorderWidth_absolute em em' t
  | padding side => exact readNonNegative_absolute em em' t
  | minWidth => exact readNonNegative_absolute em em' t
  | minHeight => exact readNonNegative_absolute em em' t
  | maxWidth => exact readLimit_absolute em em' t
  | maxHeight => exact readLimit_absolute em em' t
  | width => exact readSize_absolute em em' t
  | height => exact readSize_absolute em em' t
  | offset side => exact readExtent_absolute em em' t
  | margin side => exact readExtent_absolute em em' t
  | textIndent => exact readLength_absolute em em' t
  | _ => exact readKeyword_absolute em t

theorem read_of_ne {em : Float} {parent : Style} {l : Longhand} (h : l ≠ .fontFamily)
    (value : List Term) : l.read em parent value =
      match value with
      | [t] => l.readTerm em parent t
      | _ => none := by
  cases l <;> first | rfl | exact absurd rfl h

theorem read_absolute {em em' : Float} {parent : Style} {l : Longhand} (value : List Term)
    (hline : l = .lineHeight → em' = em) (hfont : l = .fontSize → em = parent.fontSize) :
    l.read em' parent (value.map (Term.absolute em)) = l.read em parent value := by
  by_cases hfamily : l = .fontFamily
  · rw [hfamily]
    exact fontNames_absolute em "" value
  · rw [read_of_ne hfamily, read_of_ne hfamily]
    match value with
    | [] => rfl
    | [t] => exact readTerm_absolute t hline hfont
    | _ :: _ :: _ => rfl

end Longhand

namespace Property

/-- **A value reads as its absolute form**, and that reads the same for every size of the font. -/
theorem read_absolute {em em' : Float} {parent : Style} {p : Property} (value : List Term)
    (hline : p = longhand .lineHeight → em' = em)
    (hfont : p = longhand .fontSize → em = parent.fontSize) :
    p.read em' parent (value.map (Term.absolute em)) = p.read em parent value := by
  cases p with
  | longhand l =>
    rw [read, read, Longhand.read_absolute value (fun h => hline (congrArg _ h)) fun h =>
      hfont (congrArg _ h)]
  | margin => exact readEdges_absolute em value (readExtent_absolute em em') _
  | padding => exact readEdges_absolute em value (readNonNegative_absolute em em') _
  | borderWidth => exact readEdges_absolute em value (readBorderWidth_absolute em em') _
  | borderStyle => exact readEdges_absolute em value (fun t => readKeyword_absolute em t) _
  | borderColor => exact readEdges_absolute em value (readPaint_absolute em) _
  | border => rw [read, read, readBorder_absolute]
  | borderSide side => rw [read, read, readBorder_absolute]
  | background => rw [read, read, findSome?_readPaint_absolute]

end Property

namespace Declaration

theorem isInherit_absolute (em : Float) (d : Declaration) :
    (d.absolute em).isInherit = d.isInherit := by
  rw [isInherit, isInherit, absolute]
  match d.value with
  | [] => rfl
  | [t] => exact Term.isIdent_absolute em t "inherit"
  | _ :: _ :: _ => rfl

theorem settings?_absolute {em em' : Float} {parent : Style} {d : Declaration}
    (hline : d.Names .lineHeight → em' = em) (hfont : d.Names .fontSize → em = parent.fontSize) :
    (d.absolute em).settings? em' parent = d.settings? em parent := by
  rw [settings?, settings?, isInherit_absolute]
  refine Option.bind_congr fun p hp => ?_
  have hnames : ∀ l, p = .longhand l → d.Names l := by
    rintro l rfl
    exact ⟨_, hp, List.mem_singleton.2 rfl⟩
  rw [absolute, Property.read_absolute d.value (fun h => hline (hnames _ h)) fun h =>
    hfont (hnames _ h)]

end Declaration

end Css2
