import FreeForm.Lowering.Expr
import FreeForm.Typed.Chain

/-!
# Lowering of chains

The children of a chain have to be operands and operators in turn, and the first and the last of
them operands.  `Chain.ofTree` is the same for all three levels of chains.
-/

namespace FreeForm

def ArithmeticOperator.ofRule? : Rule → Option ArithmeticOperator
  | .power => some .power
  | .multiplication => some .multiply
  | .division => some .divide
  | .addition => some .add
  | .subtraction => some .subtract
  | _ => none

def RelationalOperator.ofRule? : Rule → Option RelationalOperator
  | .equality => some .equal
  | .inequality => some .notEqual
  | .lessEqual => some .lessEqual
  | .greaterEqual => some .greaterEqual
  | .less => some .less
  | .greater => some .greater
  | _ => none

def LogicalOperator.ofRule? : Rule → Option LogicalOperator
  | .logicalAnd => some .and
  | .logicalOr => some .or
  | .logicalEqv => some .eqv
  | .logicalNeqv => some .neqv
  | _ => none

mutual

/-- Lowers an operator: the first child of a tree of the rule `family`, and else the tree itself,
which has to belong to an operator that `ofRule?` knows. -/
def operatorOfTree {ω : Type} (source : Source) (family : Rule) (ofRule? : Rule → Option ω)
    (described : String) : Tree → Lowered (Spanned ω)
  | ⟨r, s, ts⟩ =>
    let t : Tree := ⟨r, s, ts⟩
    if r = family then operatorOfFirst source family ofRule? described t ts
    else match ofRule? r with
      | some o => .ok ⟨o, s⟩
      | none => .error (t.unexpected source described)

/-- Lowers the first of the children of `t` as an operator. -/
def operatorOfFirst {ω : Type} (source : Source) (family : Rule) (ofRule? : Rule → Option ω)
    (described : String) (t : Tree) : List Tree → Lowered (Spanned ω)
  | [] => .error (t.unexpected source "operator")
  | u :: _ => operatorOfTree source family ofRule? described u

end

def ArithmeticOperator.ofTree (source : Source) : Tree → Lowered (Spanned ArithmeticOperator) :=
  operatorOfTree source .arithmeticOperator ofRule? "arithmetic operator"

def RelationalOperator.ofTree (source : Source) : Tree → Lowered (Spanned RelationalOperator) :=
  operatorOfTree source .relationalOperator ofRule? "relational operator"

def LogicalOperator.ofTree (source : Source) : Tree → Lowered (Spanned LogicalOperator) :=
  operatorOfTree source .logicalOperator ofRule? "logical operator"

namespace Chain

variable {ω α : Type}

/-- How the children of a chain are lowered. -/
structure Parts (ω α : Type) where
  operandRule : Rule
  operatorRule : Rule
  operand : Tree → Lowered α
  operator : Tree → Lowered (Spanned ω)

mutual

/-- Lowers what follows an operand of the chain `t`. -/
def afterOperand (source : Source) (p : Parts ω α) (t : Tree) :
    List Tree → Lowered (List (Spanned ω × α))
  | [] => .ok []
  | u :: us =>
    if u.rule = p.operatorRule then do
      let o ← p.operator u
      afterOperator source p t o us
    else if u.rule = p.operandRule then do
      let _ ← p.operand u
      .error (u.unexpected source "an operator between operands")
    else .error (u.unexpected source p.operandRule.toString)

/-- Lowers what follows the operator `o` of the chain `t`. -/
def afterOperator (source : Source) (p : Parts ω α) (t : Tree) (o : Spanned ω) :
    List Tree → Lowered (List (Spanned ω × α))
  | [] => .error (t.unexpected source "an operand after every operator")
  | u :: us =>
    if u.rule = p.operandRule then do
      let x ← p.operand u
      return (o, x) :: (← afterOperand source p t us)
    else .error (u.unexpected source p.operandRule.toString)

end

/-- Lowers the children of a tree as a chain. -/
def ofTree (source : Source) (p : Parts ω α) (t : Tree) : Lowered (Chain ω α) :=
  match t.children with
  | [] => .error (t.unexpected source "an operand after every operator")
  | u :: us =>
    if u.rule = p.operandRule then do
      let x ← p.operand u
      return ⟨x, ← afterOperand source p t us, t.span⟩
    else .error (u.unexpected source p.operandRule.toString)

end Chain

def arithmeticOfTree (source : Source) (t : Tree) : Lowered ArithmeticStatement := do
  t.expect source .arithmeticStatement
  Chain.ofTree source ⟨.valueReturningCode, .arithmeticOperator, Expr.ofTree source,
    ArithmeticOperator.ofTree source⟩ t

def relationalOfTree (source : Source) (t : Tree) : Lowered RelationalStatement := do
  t.expect source .relationalStatement
  Chain.ofTree source ⟨.arithmeticStatement, .relationalOperator, arithmeticOfTree source,
    RelationalOperator.ofTree source⟩ t

def logicalOfTree (source : Source) (t : Tree) : Lowered LogicalStatement := do
  t.expect source .logicalStatement
  Chain.ofTree source ⟨.relationalStatement, .logicalOperator, relationalOfTree source,
    LogicalOperator.ofTree source⟩ t

end FreeForm
