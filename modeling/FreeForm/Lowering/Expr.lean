import FreeForm.Lowering.Variable
import FreeForm.Typed.Expr

/-!
# Lowering of expressions

The rules that only wrap an expression leave nothing in its typed form.  A call takes its arguments
from its first child of the rule for arguments, and has none without such a child.
-/

namespace FreeForm

mutual

def Expr.ofTree (source : Source) : Tree → Lowered Expr
  | ⟨r, s, ts⟩ =>
    let t : Tree := ⟨r, s, ts⟩
    match r with
    | .valueReturningCode | .atomicValue | .argument => Expr.ofFirst source t ts
    | .functionCall => do
      let name ← Identifier.ofTree source (← t.required source .name)
      return .call name (← Expr.argumentsIn source ts) s
    | .inPlaceArray => .array <$> InPlaceArray.ofTree source t
    | .number => (.literal ∘ .number) <$> Number.ofTree source t
    | .string => (.literal ∘ .string) <$> StringLiteral.ofTree source t
    | .boolean => (.literal ∘ .boolean) <$> Boolean.ofTree source t
    | .accessedVariable => .access <$> AccessedVariable.ofTree source t
    | _ => .error (t.unexpected source "an expression")

/-- Lowers the first of the children of `t`. -/
def Expr.ofFirst (source : Source) (t : Tree) : List Tree → Lowered Expr
  | [] => .error (t.unexpected source "an expression")
  | u :: _ => Expr.ofTree source u

/-- Lowers the arguments that the first child of the rule for arguments lists. -/
def Expr.argumentsIn (source : Source) : List Tree → Lowered (List Expr)
  | [] => .ok []
  | ⟨r, _, us⟩ :: ts =>
    if r = .arguments then Expr.ofArguments source us else Expr.argumentsIn source ts

/-- Lowers each child that is an argument. -/
def Expr.ofArguments (source : Source) : List Tree → Lowered (List Expr)
  | [] => .ok []
  | t :: ts =>
    if t.rule = .argument then do
      let e ← Expr.ofTree source t
      return e :: (← Expr.ofArguments source ts)
    else Expr.ofArguments source ts

end

/-- Lowers a tree of the rule for arguments. -/
def argumentsOfTree (source : Source) (t : Tree) : Lowered (List Expr) := do
  t.expect source .arguments
  Expr.ofArguments source t.children

def FunctionCall.ofTree (source : Source) (t : Tree) : Lowered FunctionCall := do
  t.expect source .functionCall
  let name ← Identifier.ofTree source (← t.required source .name)
  return ⟨name, ← Expr.argumentsIn source t.children, t.span⟩

end FreeForm
