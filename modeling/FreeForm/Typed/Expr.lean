import FreeForm.Typed.Variable

/-!
# Expressions

An expression is one value: a call, an array constructor, a literal or a variable.  Operators join
expressions to chains, which are no expressions themselves.
-/

namespace FreeForm

inductive Expr where
  | call (name : Identifier) (arguments : List Expr) (span : Span)
  | array (a : InPlaceArray)
  | literal (l : Literal)
  | access (v : AccessedVariable)
deriving Repr

/-- A call of a function. -/
structure FunctionCall where
  name : Identifier
  arguments : List Expr
  span : Span
deriving Repr

/-- A call as an expression. -/
def FunctionCall.toExpr (c : FunctionCall) : Expr := .call c.name c.arguments c.span

namespace Expr

mutual

/-- Expressions are equal if they are built alike from equal parts. -/
def decEq : (d e : Expr) → Decidable (d = e)
  | call x ds s, call y es t =>
    if h : x = y ∧ s = t then
      match decEqList ds es with
      | isTrue k => isTrue (by rw [h.1, h.2, k])
      | isFalse k => isFalse (by simp [k])
    else isFalse (by simp only [call.injEq]; grind)
  | array a, array b => decidable_of_iff (a = b) (by simp)
  | literal a, literal b => decidable_of_iff (a = b) (by simp)
  | access a, access b => decidable_of_iff (a = b) (by simp)
  | call .., array _ | call .., literal _ | call .., access _
  | array _, call .. | array _, literal _ | array _, access _
  | literal _, call .. | literal _, array _ | literal _, access _
  | access _, call .. | access _, array _ | access _, literal _ => isFalse (by simp)

/-- The same for lists of expressions. -/
def decEqList : (ds es : List Expr) → Decidable (ds = es)
  | [], [] => isTrue rfl
  | [], _ :: _ | _ :: _, [] => isFalse (by simp)
  | d :: ds, e :: es =>
    match decEq d e, decEqList ds es with
    | isTrue h, isTrue k => isTrue (by rw [h, k])
    | isFalse h, _ => isFalse (by simp [h])
    | _, isFalse k => isFalse (by simp [k])

end

instance : DecidableEq Expr := decEq

/-- The span of an expression. -/
def span : Expr → Span
  | call _ _ s => s
  | array a => a.span
  | literal l => l.span
  | access v => v.span

mutual

/-- How deeply calls nest; 0 for anything that is not a call. -/
def callDepth : Expr → Nat
  | call _ es _ => 1 + deepestCall es
  | array _ | literal _ | access _ => 0

/-- The largest depth of calls among some expressions. -/
def deepestCall : List Expr → Nat
  | [] => 0
  | e :: es => max (callDepth e) (deepestCall es)

end

end Expr

deriving instance DecidableEq for FunctionCall

end FreeForm
