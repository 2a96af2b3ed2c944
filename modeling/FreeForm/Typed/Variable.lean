import FreeForm.Typed.Literal

/-!
# Access to variables
-/

namespace FreeForm

/-- An end of an index region. -/
inductive Bound where
  | integer (n : IntegerLiteral)
  | name (x : Identifier)
deriving DecidableEq, Repr

/-- A range of indices, `lower:upper`.  A missing end stands for the end of the dimension. -/
structure IndexRegion where
  lower : Option Bound
  upper : Option Bound
  span : Span
deriving DecidableEq, Repr

inductive ArrayIndex where
  | region (r : IndexRegion)
  | integer (n : IntegerLiteral)
  | name (x : Identifier)
deriving DecidableEq, Repr

structure IndexedArray where
  name : Identifier
  indices : List ArrayIndex
  span : Span
deriving DecidableEq, Repr

inductive VariableRef where
  | indexed (a : IndexedArray)
  | plain (x : Identifier)
deriving DecidableEq, Repr

/-- A variable with a sign in front of it, if any. -/
structure AccessedVariable where
  sign : Option Sign
  target : VariableRef
  span : Span
deriving DecidableEq, Repr

/-- The name of the variable or array. -/
def AccessedVariable.name (v : AccessedVariable) : Text :=
  match v.target with
  | .indexed a => a.name.name
  | .plain x => x.name

end FreeForm
