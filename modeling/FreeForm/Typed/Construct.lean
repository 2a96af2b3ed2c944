import FreeForm.Typed.Chain

/-!
# Statements, and constructs of every kind

`Construct` has one case for each family of rules: whatever rule a tree belongs to, the tree
stands for a construct.
-/

namespace FreeForm

structure Assignment where
  target : AccessedVariable
  value : Expr
  span : Span
deriving DecidableEq, Repr

structure SubroutineCall where
  name : Identifier
  /-- Nothing without parentheses, an empty list between empty ones. -/
  arguments : Option (List Expr)
  span : Span
deriving DecidableEq, Repr

/-- The typed form of a tree. -/
inductive Construct where
  | identifier (x : Identifier)
  | sign (s : Spanned Sign)
  /-- A kind suffix on its own. -/
  | precision (k : Spanned Text)
  /-- A bare run of digits. -/
  | digits (d : Spanned Text)
  | integer (n : IntegerLiteral)
  | float (x : FloatLiteral)
  | number (n : Number)
  | string (s : StringLiteral)
  | boolean (b : Boolean)
  | arithmeticOperator (o : Spanned ArithmeticOperator)
  | relationalOperator (o : Spanned RelationalOperator)
  | logicalOperator (o : Spanned LogicalOperator)
  /-- The word `.not.` -/
  | logicalPrefix (s : Span)
  | bound (b : Bound)
  | indexRegion (r : IndexRegion)
  | arrayIndex (i : ArrayIndex)
  | indexedArray (a : IndexedArray)
  | accessedVariable (v : AccessedVariable)
  | arrayItems (i : Spanned ArrayItems)
  | inPlaceArray (a : InPlaceArray)
  | functionCall (c : FunctionCall)
  | expr (e : Expr)
  | arguments (es : Spanned (List Expr))
  | arithmeticStatement (c : ArithmeticStatement)
  | relationalStatement (c : RelationalStatement)
  | logicalStatement (c : LogicalStatement)
  | assignment (a : Assignment)
  /-- The word `call`. -/
  | callKeyword (s : Span)
  | subroutineCall (c : SubroutineCall)
deriving DecidableEq, Repr

end FreeForm
