import FreeForm.Lowering.Chain
import FreeForm.Parse
import FreeForm.Typed.Construct

/-!
# Lowering of statements and of any tree

`Construct.ofTree` lowers any tree by its rule; `parseConstruct` does so with the tree that a parse
found.  Errors of both stages name the source by the same name.
-/

namespace FreeForm

def Assignment.ofTree (source : Source) (t : Tree) : Lowered Assignment := do
  t.expect source .assignment
  let target ← AccessedVariable.ofTree source (← t.required source .accessedVariable)
  let value ← Expr.ofTree source (← t.required source .valueReturningCode)
  return ⟨target, value, t.span⟩

/-- The arguments of a call of a subroutine with the given name.  Parentheses leave no node, but a
span ends with its last lexeme: what follows the name can only be parentheses. -/
def SubroutineCall.argumentsIn (source : Source) (t : Tree) (name : Identifier) :
    Lowered (Option (List Expr)) :=
  match t.child? .arguments with
  | some u => some <$> argumentsOfTree source u
  | none => .ok (if name.span.stop < t.span.stop then some [] else none)

def SubroutineCall.ofTree (source : Source) (t : Tree) : Lowered SubroutineCall := do
  t.expect source .subroutineCall
  let name ← Identifier.ofTree source (← t.required source .name)
  let arguments ← argumentsIn source t name
  return ⟨name, arguments, t.span⟩

/-- The typed form of a tree of any rule. -/
def Construct.ofTree (source : Source) (t : Tree) : Lowered Construct :=
  let spanned {α : Type} (x : α) : Spanned α := ⟨x, t.span⟩
  match t.rule with
  | .digits => .ok (.digits (spanned (t.text source.content)))
  | .name => .identifier <$> Identifier.ofTree source t
  | .precisionSpec => (.precision ∘ spanned) <$> kindOfTree source t
  | .integer => .integer <$> IntegerLiteral.ofTree source t
  | .float => .float <$> FloatLiteral.ofTree source t
  | .sign => (.sign ∘ spanned) <$> Sign.ofTree source t
  | .number => .number <$> Number.ofTree source t
  | .string => .string <$> StringLiteral.ofTree source t
  | .booleanValue | .boolean => .boolean <$> Boolean.ofTree source t
  | .power | .multiplication | .division | .addition | .subtraction | .arithmeticOperator =>
    .arithmeticOperator <$> ArithmeticOperator.ofTree source t
  | .equality | .inequality | .lessEqual | .greaterEqual | .less | .greater
  | .relationalOperator => .relationalOperator <$> RelationalOperator.ofTree source t
  | .logicalAnd | .logicalOr | .logicalEqv | .logicalNeqv | .logicalOperator =>
    .logicalOperator <$> LogicalOperator.ofTree source t
  | .logicalNot | .logicalPrefixOperator => .ok (.logicalPrefix t.span)
  | .lowerBound | .upperBound => .bound <$> Bound.ofTree source t
  | .arrayIndexRegion => .indexRegion <$> IndexRegion.ofTree source t
  | .arrayIndex => .arrayIndex <$> ArrayIndex.ofTree source t
  | .indexedArray => .indexedArray <$> IndexedArray.ofTree source t
  | .accessedVariable => .accessedVariable <$> AccessedVariable.ofTree source t
  | .booleans | .strings | .numbers => (.arrayItems ∘ spanned) <$> ArrayItems.ofTree source t
  | .inPlaceArray => .inPlaceArray <$> InPlaceArray.ofTree source t
  | .functionCall => .functionCall <$> FunctionCall.ofTree source t
  | .valueReturningCode | .atomicValue | .argument => .expr <$> Expr.ofTree source t
  | .arithmeticStatement => .arithmeticStatement <$> arithmeticOfTree source t
  | .relationalStatement => .relationalStatement <$> relationalOfTree source t
  | .logicalStatement => .logicalStatement <$> logicalOfTree source t
  | .arguments => (.arguments ∘ spanned) <$> argumentsOfTree source t
  | .assignment => .assignment <$> Assignment.ofTree source t
  | .callKeyword => .ok (.callKeyword t.span)
  | .subroutineCall => .subroutineCall <$> SubroutineCall.ofTree source t

/-- Parses a text and lowers the tree found by `lower`. -/
def parseAs {α : Type} (lower : Source → Tree → Lowered α) (r : Rule) (s : Text)
    (o : Options := {}) : Except ParseError α := do
  let t ← parse s r o
  lower ⟨o.sourceName, s⟩ t

/-- Parses a text from any rule and lowers the tree found. -/
def parseConstruct (s : Text) (r : Rule) (o : Options) : Except ParseError Construct :=
  parseAs Construct.ofTree r s o

def parseExpr (s : Text) : Except ParseError Expr := parseAs Expr.ofTree .valueReturningCode s

def parseSubroutineCall (s : Text) : Except ParseError SubroutineCall :=
  parseAs SubroutineCall.ofTree .subroutineCall s

def parseAssignment (s : Text) : Except ParseError Assignment :=
  parseAs Assignment.ofTree .assignment s

def parseArithmetic (s : Text) : Except ParseError ArithmeticStatement :=
  parseAs arithmeticOfTree .arithmeticStatement s

def parseRelational (s : Text) : Except ParseError RelationalStatement :=
  parseAs relationalOfTree .relationalStatement s

def parseLogical (s : Text) : Except ParseError LogicalStatement :=
  parseAs logicalOfTree .logicalStatement s

end FreeForm
