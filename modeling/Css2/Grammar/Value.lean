import Css2.Grammar.Basic
import Css2.Term.Basic

/-! # The grammar of values

    expr     : term [ operator expr | expr ]?
    operator : [ '/' | ',' ] S*
    term     : [ '+' | '-' ]? [ NUMBER | PERCENTAGE | DIMENSION | function ]
             | STRING | IDENT | URI | UNICODERANGE | HASH
    function : FUNCTION S* expr ')'

A function whose arguments are the channels of a color becomes a color, and `url` with a string
becomes an address.  Each opening parenthesis counts as one level of nesting.  `terms_eq` is the
grammar as an equation.
-/

namespace Css2

/-! ### Functions with a meaning of their own -/

/-- The channel that a term gives, if it is a plain number or a percentage. -/
def Term.channel? (t : Term) : Option UInt8 :=
  match t.number? with
  | some n =>
    let value := if t.sign = some .minus then -n.value else n.value
    if n.unit = .none then some (Rgb.channelOfFloat value false)
    else if n.unit = .percent then some (Rgb.channelOfFloat value true)
    else none
  | none => none

/-- The color of three channels with commas between them. -/
def rgbOfArgs? (args : List Term) : Option Rgb :=
  match args with
  | [r, g, b] =>
    if r.separator = some .comma ∧ g.separator = some .comma then
      match r.channel?, g.channel?, b.channel? with
      | some red, some green, some blue => some ⟨red, green, blue⟩
      | _, _, _ => none
    else none
  | _ => none

/-- The address that the arguments of `url` are. -/
def addressOfArgs? (args : List Term) : Option String :=
  match args with
  | [⟨.string address, none, _⟩] => some address
  | _ => none

def Value.ofFunction (name : String) (args : List Term) : Value :=
  if sameName name "url" then
    ((addressOfArgs? args).map Value.uri).getD (.function name args)
  else if sameName name "rgb" then
    ((rgbOfArgs? args).map Value.rgb).getD (.function name args)
  else .function name args

def Value.takesSign : Value → Bool
  | .number _ => true
  | .function _ _ => true
  | _ => false

namespace Grammar

/-! ### Single tokens of a value -/

def simpleValue? : Lexeme → Option Value
  | .number value _ => some (.number ⟨value, .none⟩)
  | .percentage value => some (.number ⟨value, .percent⟩)
  | .dimension value _ unit => some (.number ⟨value, Measure.ofName unit⟩)
  | .string value => some (.string value)
  | .ident name => some (.ident name)
  | .url value => some (.uri value)
  | .unicodeRange range => some (.unicodeRange range)
  | .hash name _ => some (.hash name)
  | _ => none

def sign : List Token → Option Sign × List Token
  | ⟨.delim c, loc⟩ :: rest =>
    if c = '+' then (some .plus, rest)
    else if c = '-' then (some .minus, rest)
    else (none, ⟨.delim c, loc⟩ :: rest)
  | ts => (none, ts)

theorem sign_le (ts : List Token) : (sign ts).2.length ≤ ts.length := by
  unfold sign
  split
  · split
    · exact Nat.le_succ _
    · split
      · exact Nat.le_succ _
      · exact Nat.le_refl _
  · exact Nat.le_refl _

def startsTerm : Lexeme → Bool
  | .number _ _ | .percentage _ | .dimension _ _ _ | .function _ | .string _ | .ident _ | .url _
  | .unicodeRange _ | .hash _ _ => true
  | .delim c => c = '+' || c = '-'
  | _ => false

/-- What separates a term from the next one, and where the next one starts; nothing if the value
ends. -/
def next? (ts : List Token) : Option (Option Separator × List Token) :=
  match skipTrivia ts with
  | [] => none
  | t :: rest =>
    if t.lexeme.isMark .comma then some (some .comma, skipTrivia rest)
    else if t.lexeme.isDelim '/' then some (some .slash, skipTrivia rest)
    else if startsTerm t.lexeme then some (none, t :: rest)
    else none

theorem next?_le {ts rest : List Token} {sep : Option Separator}
    (h : next? ts = some (sep, rest)) : rest.length ≤ ts.length := by
  have hs := skipTrivia_le ts
  unfold next? at h
  split at h
  · cases h
  · next t r heq =>
    rw [heq] at hs
    have hr := skipTrivia_le r
    simp only [List.length_cons] at hs
    split at h
    · cases h; omega
    · split at h
      · cases h; omega
      · split at h
        · cases h; exact hs
        · cases h

/-! ### Terms -/

/-- What was read, with a rest of at most `m` tokens. -/
abbrev Within (m : Nat) (α : Type) := { r : α × List Token // r.2.length ≤ m }

theorem map_val_ok {m : Nat} {α : Type} (r : Within m α) :
    (Except.ok r : Except Failure (Within m α)).map Subtype.val = .ok r.val :=
  rfl

/-- The value of a term that begins with the token `t`, whose sign is read already.  `args` reads
the arguments of a function among the tokens behind `t`. -/
def valueWithin (n : Nesting) (t : Token) (rest : List Token)
    (args : Nesting → (us : List Token) → us.length ≤ rest.length →
      Except Failure (Within us.length (List Term))) :
    Except Failure (Within rest.length Value) :=
  match t.lexeme with
  | .function name =>
    match n.enter rest with
    | .error e => .error e
    | .ok deeper =>
      match args deeper (skipTrivia rest) (skipTrivia_le rest) with
      | .error e => .error e
      | .ok ⟨(value, after), hafter⟩ =>
        match hclose : expect .closeParen (skipTrivia after) with
        | .error e => .error e
        | .ok close => .ok ⟨(Value.ofFunction name value, close), by
            have h1 := skipTrivia_le rest
            have h2 := skipTrivia_le after
            have h3 := expect_lt hclose
            dsimp only at hafter ⊢
            omega⟩
  | l =>
    match simpleValue? l with
    | some v => .ok ⟨(v, rest), Nat.le_refl _⟩
    | none => .error ⟨.notATerm l, some t.loc⟩

/-- The terms at the front of a list.  The rest is never longer than what was given, which is why
the recursion ends. -/
def termsWithin (n : Nesting) (ts : List Token) : Except Failure (Within ts.length (List Term)) :=
  match hs : sign ts with
  | (_, []) => .error ⟨.endOfInput, none⟩
  | (s, t :: rest) =>
    have hrest : rest.length < ts.length := by
      have := sign_le ts
      rw [hs] at this
      exact this
    match valueWithin n t rest fun deeper us _ => termsWithin deeper us with
    | .error e => .error e
    | .ok ⟨(v, after), hafter⟩ =>
      if s.isSome && !v.takesSign then .error ⟨.misplacedSign, some t.loc⟩
      else
        match hnext : next? after with
        | none => .ok ⟨([⟨v, s, none⟩], skipTrivia after),
            Nat.le_trans (skipTrivia_le after) (Nat.le_trans hafter (Nat.le_of_lt hrest))⟩
        | some (sep, following) =>
          have hfollowing : following.length < ts.length :=
            Nat.lt_of_le_of_lt (Nat.le_trans (next?_le hnext) hafter) hrest
          match termsWithin n following with
          | .error e => .error e
          | .ok ⟨(more, final), hfinal⟩ =>
            .ok ⟨(⟨v, s, sep⟩ :: more, final),
              Nat.le_trans hfinal (Nat.le_of_lt hfollowing)⟩
termination_by ts.length
decreasing_by
  · omega
  · exact hfollowing

def terms (n : Nesting) (ts : List Token) : Except Failure (List Term × List Token) :=
  (termsWithin n ts).map Subtype.val

/-- Reads the value of a term that begins with the token `t`, whose sign is read already. -/
def value (n : Nesting) (t : Token) (rest : List Token) : Except Failure (Value × List Token) :=
  match t.lexeme with
  | .function name => do
    let deeper ← n.enter rest
    let (args, after) ← terms deeper (skipTrivia rest)
    let close ← expect .closeParen (skipTrivia after)
    .ok (Value.ofFunction name args, close)
  | l =>
    match simpleValue? l with
    | some v => .ok (v, rest)
    | none => .error ⟨.notATerm l, some t.loc⟩

theorem valueWithin_map (n : Nesting) (t : Token) (rest : List Token) :
    (valueWithin n t rest fun deeper us _ => termsWithin deeper us).map Subtype.val
      = value n t rest := by
  unfold valueWithin value terms
  split
  · cases n.enter rest with
    | error e => rfl
    | ok deeper =>
      dsimp only [bind, Except.bind]
      cases termsWithin deeper (skipTrivia rest) with
      | error e => rfl
      | ok r =>
        obtain ⟨⟨args, after⟩, hafter⟩ := r
        dsimp only
        split <;> (next heq => simp [Except.map, heq])
  · split <;> rfl

/-- The grammar of values. -/
theorem terms_eq (n : Nesting) (ts : List Token) :
    terms n ts = (match sign ts with
      | (_, []) => .error ⟨.endOfInput, none⟩
      | (s, t :: rest) => do
        let (v, after) ← value n t rest
        if s.isSome && !v.takesSign then .error ⟨.misplacedSign, some t.loc⟩
        else match next? after with
          | none => .ok ([⟨v, s, none⟩], skipTrivia after)
          | some (sep, following) => do
            let (more, final) ← terms n following
            .ok (⟨v, s, sep⟩ :: more, final)) := by
  unfold terms
  rw [termsWithin]
  split
  · next hs => simp only [hs]; rfl
  · next s t rest hs =>
    simp only [hs]
    rw [← valueWithin_map]
    cases valueWithin n t rest fun deeper us _ => termsWithin deeper us with
    | error e => rfl
    | ok r =>
      obtain ⟨⟨v, after⟩, hafter⟩ := r
      rw [map_val_ok]
      dsimp only [bind, Except.bind]
      by_cases hsign : (s.isSome && !v.takesSign) = true
      · rw [if_pos hsign, if_pos hsign]
        rfl
      · rw [if_neg hsign, if_neg hsign]
        split
        · next heq => rw [heq]; rfl
        · next sep following heq =>
          simp only [heq]
          cases termsWithin n following with
          | error e => rfl
          | ok r => rfl

theorem value_le {n : Nesting} {t : Token} {rest after : List Token} {v : Value}
    (h : value n t rest = .ok (v, after)) : after.length ≤ rest.length := by
  rw [← valueWithin_map] at h
  obtain ⟨⟨_, hafter⟩, _, rfl⟩ := map_eq_ok h
  exact hafter

theorem terms_le {n : Nesting} {ts rest : List Token} {v : List Term}
    (h : terms n ts = .ok (v, rest)) : rest.length ≤ ts.length := by
  obtain ⟨⟨_, hrest⟩, _, rfl⟩ := map_eq_ok h
  exact hrest

theorem terms_lt {n : Nesting} {ts rest : List Token} {v : List Term}
    (h : terms n ts = .ok (v, rest)) : rest.length < ts.length := by
  have hsign := sign_le ts
  rw [terms_eq] at h
  split at h
  · cases h
  · next s t after hs =>
    rw [hs, List.length_cons] at hsign
    obtain ⟨⟨v', after'⟩, hv, h⟩ := bind_eq_ok h
    have hval := value_le hv
    dsimp only at h
    split at h
    · cases h
    · split at h
      · have := skipTrivia_le after'
        cases h
        omega
      · next sep following hn =>
        obtain ⟨⟨more, final⟩, hm, h⟩ := bind_eq_ok h
        have hnext := next?_le hn
        have hmore := terms_le hm
        cases h
        dsimp only
        omega

end Grammar

end Css2
