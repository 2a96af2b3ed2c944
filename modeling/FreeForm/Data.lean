import FreeForm.Decimal.Shortest
import FreeForm.Text.Quoted

/-!
# Self-describing data

The form in which options, spans and results are exchanged with other programs: single values,
lists, and records of named fields.
-/

namespace FreeForm

inductive Data where
  | null
  | bool (b : Bool)
  | int (n : Int)
  | real (x : Float)
  | text (s : Text)
  | list (xs : List Data)
  | record (fields : List (String × Data))
deriving Inhabited

namespace Data

/-- What a value is called in a message that it is not the one expected. -/
def describe : Data → String
  | null => "null"
  | bool b => s!"boolean `{b}`"
  | int n => s!"integer `{n}`"
  | real x => "floating point `" ++ String.ofList (Decimal.ofFloat x) ++ "`"
  | text s => "string " ++ String.ofList s.quoted
  | list _ => "sequence"
  | record _ => "map"

/-- The field with a name; of several the first. -/
def field? (fields : List (String × Data)) (name : String) : Option Data :=
  (fields.find? fun f => f.1 = name).map Prod.snd

end Data

end FreeForm
