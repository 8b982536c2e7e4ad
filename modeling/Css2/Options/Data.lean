import Css2.Options.Basic

/-! # Options as data

Options as a document of plain data gives them: a record of fields, or a list of their values in
order.  A field that is missing has its default, a field that is not known is passed over, and a
value of the wrong type makes the whole document invalid.
-/

namespace Css2

-- Powers are those of core, whatever else a file imports.
attribute [local instance (2000)] instPowNat

inductive Datum where
  | null
  | bool (value : Bool)
  | integer (value : Int)
  /-- A number that is not an integer, whose value matters to no option. -/
  | fraction
  | text (value : String)
  | list (items : List Datum)
  | record (fields : List (String × Datum))
  deriving Inhabited

namespace Datum

/-- The greatest natural number that fits into an option. -/
def greatestNat : Int := 2 ^ (64 : Nat) - 1

def toNat? : Datum → Option Nat
  | integer n => if 0 ≤ n ∧ n ≤ greatestNat then some n.toNat else none
  | _ => none

def toBool? : Datum → Option Bool
  | bool b => some b
  | _ => none

def toText? : Datum → Option (Option String)
  | null => some none
  | text s => some (some s)
  | _ => none

/-- The value of a field that may be missing, read by `read`. -/
def field {α : Type} (read : Datum → Option α) (default : α) : Option Datum → Option α
  | none => some default
  | some d => read d

/-- The values of the named fields of a record, or the items of a list that is not too long. -/
def fields? (names : List String) : Datum → Option (List (Option Datum))
  | record fs => some (names.map fun n => List.lookup n fs)
  | list items =>
    if items.length ≤ names.length then some ((List.range names.length).map fun i => items[i]?)
    else none
  | _ => none

end Datum

/-! ### Parsing -/

def ParseOptions.ofDatum? (d : Datum) : Option ParseOptions :=
  match d.fields? ["max_nesting_depth", "forward_compatible"] with
  | some [depth, forward] => do
    let maxNesting ← Datum.field Datum.toNat? 64 depth
    let forwardCompatible ← Datum.field Datum.toBool? true forward
    pure ⟨maxNesting, forwardCompatible⟩
  | _ => none

def ParseOptions.toDatum (o : ParseOptions) : Datum :=
  .record [("max_nesting_depth", .integer o.maxNesting),
    ("forward_compatible", .bool o.forwardCompatible)]

/-! ### Matching -/

def NameMatch.text : NameMatch → String
  | leading => "prefix"
  | exact => "exact"

def NameMatch.ofName? (name : String) : Option NameMatch :=
  [leading, exact].find? fun m => m.text = name

/-- A way to match: its name, or a record of its name without a value. -/
def NameMatch.ofDatum? : Datum → Option NameMatch
  | .text name => ofName? name
  | .record [(name, .null)] => ofName? name
  | _ => none

def MatchOptions.ofDatum? (d : Datum) : Option MatchOptions :=
  match d.fields? ["class_id_match"] with
  | some [names] => do
    let names ← Datum.field NameMatch.ofDatum? .leading names
    pure ⟨names⟩
  | _ => none

def MatchOptions.toDatum (o : MatchOptions) : Datum :=
  .record [("class_id_match", .text o.names.text)]

/-! ### Resolving -/

def ResolveOptions.ofDatum? (d : Datum) : Option ResolveOptions :=
  match d.fields? ["medium", "matching"] with
  | some [medium, matching] => do
    let medium ← Datum.field Datum.toText? none medium
    let matching ← Datum.field MatchOptions.ofDatum? {} matching
    pure ⟨medium, matching⟩
  | _ => none

def ResolveOptions.toDatum (o : ResolveOptions) : Datum :=
  .record [("medium", (o.medium.map Datum.text).getD .null),
    ("matching", o.matching.toDatum)]

end Css2
