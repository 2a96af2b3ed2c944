import FreeForm.Typed.Expr

/-!
# Chains of operators

A chain lists operands and the operators between them as they were written.  It is flat: no
operator binds more strongly than its neighbours in the chain.  The three kinds of operators make
chains on three levels, each with the chains of the level below as its operands.
-/

namespace FreeForm

inductive ArithmeticOperator where
  | add | subtract | multiply | divide | power
deriving DecidableEq, Repr

inductive RelationalOperator where
  | equal | notEqual | less | greater | lessEqual | greaterEqual
deriving DecidableEq, Repr

inductive LogicalOperator where
  | and | or | eqv | neqv
deriving DecidableEq, Repr

/-- An operand, then pairs of an operator and an operand. -/
structure Chain (ω α : Type) where
  first : α
  rest : List (Spanned ω × α)
  span : Span
deriving DecidableEq, Repr

namespace Chain

variable {ω α : Type}

/-- The operators in order. -/
def operators (c : Chain ω α) : List ω := c.rest.map fun x => x.1.value

/-- The operands in order. -/
def operands (c : Chain ω α) : List α := c.first :: c.rest.map Prod.snd

/-- Whether the chain is just an operand. -/
def isSingle (c : Chain ω α) : Bool := c.rest.isEmpty

end Chain

abbrev ArithmeticStatement := Chain ArithmeticOperator Expr

abbrev RelationalStatement := Chain RelationalOperator ArithmeticStatement

abbrev LogicalStatement := Chain LogicalOperator RelationalStatement

end FreeForm
