import FreeForm.Data
import FreeForm.Options
import FreeForm.Rule
import FreeForm.Span

/-!
# Reading data

A structure is read from a record, or from the list of its fields in order.  Fields that a record
has besides are passed over.  The fields of a record are read in the order of their names, before
a missing one is noticed.
-/

namespace FreeForm

/-- Why data do not stand for a value. -/
inductive DecodeError where
  | missingField (name : String)
  | invalidType (found : Data) (expected : String)
  | invalidValue (found : Data) (expected : String)
  | invalidLength (n : Nat) (expected : String)
  | unknownVariant (name : Text) (expected : List String)

namespace DecodeError

def message : DecodeError → String
  | missingField name => s!"missing field `{name}`"
  | invalidType found expected => s!"invalid type: {found.describe}, expected {expected}"
  | invalidValue found expected => s!"invalid value: {found.describe}, expected {expected}"
  | invalidLength n expected => s!"invalid length {n}, expected {expected}"
  | unknownVariant name expected =>
    "unknown variant `" ++ String.ofList name ++ "`, expected one of "
      ++ ", ".intercalate (expected.map fun s => "`" ++ s ++ "`")

end DecodeError

/-- The outcome of reading data. -/
abbrev Decoded := Except DecodeError

namespace Data

/-- A number of bytes or of levels, which has to fit into 64 bits. -/
def toSize : Data → Decoded Nat
  | int n =>
    if 0 ≤ n ∧ n.toNat < Nat.pow 2 64 then .ok n.toNat
    else .error (.invalidValue (int n) "usize")
  | d => .error (.invalidType d "usize")

def toBool : Data → Decoded Bool
  | bool b => .ok b
  | d => .error (.invalidType d "a boolean")

def toText : Data → Decoded Text
  | text s => .ok s
  | d => .error (.invalidType d "a string")

/-- The field with a name, read by `read`, if there is one. -/
def readField? {α : Type} (read : Data → Decoded α) (fields : List (String × Data))
    (name : String) : Decoded (Option α) :=
  match field? fields name with
  | some d => (read d).map some
  | none => .ok none

/-- The first of some values, read by `read`, if there is one; and the other values. -/
def readNext? {α : Type} (read : Data → Decoded α) : List Data → Decoded (Option α × List Data)
  | [] => .ok (none, [])
  | d :: ds => (read d).map fun x => (some x, ds)

/-- Demands that a list has been read to its end; `n` is its length. -/
def expectEnd (n : Nat) : List Data → Decoded Unit
  | [] => .ok ()
  | _ :: _ => .error (.invalidLength n "fewer elements in array")

/-- A value that has to be there. -/
def demand {α : Type} (e : DecodeError) : Option α → Decoded α
  | some x => .ok x
  | none => .error e

def toSpan : Data → Decoded Span
  | record fields => do
    let stop? ← readField? toSize fields "end"
    let start? ← readField? toSize fields "start"
    let start ← demand (.missingField "start") start?
    let stop ← demand (.missingField "end") stop?
    return ⟨start, stop⟩
  | list ds => do
    let expected := "struct Span with 2 elements"
    let (start?, rest) ← readNext? toSize ds
    let start ← demand (.invalidLength 0 expected) start?
    let (stop?, rest) ← readNext? toSize rest
    let stop ← demand (.invalidLength 1 expected) stop?
    expectEnd ds.length rest
    return ⟨start, stop⟩
  | d => .error (.invalidType d "struct Span")

/-- Options of which those given are set and the others are as usual. -/
def optionsOf (maxNesting? : Option Nat) (requireComplete? : Option Bool)
    (sourceName? : Option Text) : Options :=
  let usual : Options := {}
  ⟨maxNesting?.getD usual.maxNesting, requireComplete?.getD usual.requireComplete,
    (sourceName?.map String.ofList).getD usual.sourceName⟩

def toOptions : Data → Decoded Options
  | record fields => do
    let maxNesting? ← readField? toSize fields "max_nesting"
    let requireComplete? ← readField? toBool fields "require_complete"
    let sourceName? ← readField? toText fields "source_name"
    return optionsOf maxNesting? requireComplete? sourceName?
  | list ds => do
    let (maxNesting?, rest) ← readNext? toSize ds
    let (requireComplete?, rest) ← readNext? toBool rest
    let (sourceName?, rest) ← readNext? toText rest
    expectEnd ds.length rest
    return optionsOf maxNesting? requireComplete? sourceName?
  | d => .error (.invalidType d "struct ParseOptions")

/-- The rule with exactly this name. -/
def ruleNamed (s : Text) : Decoded Rule :=
  demand (.unknownVariant s (Rule.all.map Rule.toString))
    (Rule.all.find? fun r => r.toString.toList = s)

/-- A rule by its exact name, which may also be the only field of a record, without a value. -/
def toRule : Data → Decoded Rule
  | text s => ruleNamed s
  | record [(name, d)] => do
    let r ← ruleNamed name.toList
    match d with
    | null => return r
    | d => .error (.invalidType d "unit")
  | record fields => .error (.invalidValue (record fields) "map with a single key")
  | d => .error (.invalidType d "string or map")

def toRules : Data → Decoded (List Rule)
  | list ds => ds.mapM toRule
  | d => .error (.invalidType d "a sequence")

end Data

end FreeForm
