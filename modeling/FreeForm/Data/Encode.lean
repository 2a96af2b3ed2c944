import FreeForm.Data
import FreeForm.Options
import FreeForm.Tree
import FreeForm.Typed.Construct

/-!
# Writing data

Structures become records.  A case of a type with several cases becomes its name if it holds
nothing, and else a record whose only field has that name.
-/

namespace FreeForm

namespace Data

/-- A fixed text. -/
def ofString (s : String) : Data := .text s.toList

/-- A case that holds a value. -/
def case (name : String) (d : Data) : Data := .record [(name, d)]

/-- A value, or nothing. -/
def ofOption {α : Type} (write : α → Data) : Option α → Data
  | none => .null
  | some x => write x

/-- A list of values. -/
def ofList {α : Type} (write : α → Data) (xs : List α) : Data := .list (xs.map write)

end Data

open Data

def Span.toData (s : Span) : Data := .record [("start", .int s.start), ("end", .int s.stop)]

def Options.toData (o : Options) : Data :=
  .record [("max_nesting", .int o.maxNesting), ("require_complete", .bool o.requireComplete),
    ("source_name", ofString o.sourceName)]

def Rule.toData (r : Rule) : Data := ofString r.toString

mutual

/-- A tree with the text of every node. -/
def Tree.toData (source : Text) : Tree → Data
  | ⟨r, s, ts⟩ => .record [("rule", r.toData), ("span", s.toData), ("text", .text (s.text source)),
      ("children", .list (Tree.forestData source ts))]

/-- Each of some trees. -/
def Tree.forestData (source : Text) : List Tree → List Data
  | [] => []
  | t :: ts => Tree.toData source t :: Tree.forestData source ts

end

/-! ## Literals and variables -/

def Spanned.toData {α : Type} (write : α → Data) (x : Spanned α) : Data :=
  .record [("value", write x.value), ("span", x.span.toData)]

def Sign.toData : Sign → Data
  | .plus => ofString "Plus"
  | .minus => ofString "Minus"

def Identifier.toData (x : Identifier) : Data :=
  .record [("name", .text x.name), ("span", x.span.toData)]

def IntegerLiteral.toData (n : IntegerLiteral) : Data :=
  .record [("digits", .text n.digits), ("precision", ofOption .text n.kind),
    ("span", n.span.toData)]

def FloatLiteral.toData (x : FloatLiteral) : Data :=
  .record [("whole", .text x.whole), ("fraction", .text x.fraction),
    ("precision", ofOption .text x.kind), ("span", x.span.toData)]

def NumberLiteral.toData : NumberLiteral → Data
  | .integer n => case "Integer" n.toData
  | .float x => case "Float" x.toData

def Number.toData (n : Number) : Data :=
  .record [("sign", ofOption Sign.toData n.sign), ("literal", n.literal.toData),
    ("value", .real n.value), ("span", n.span.toData)]

def StringLiteral.toData (s : StringLiteral) : Data :=
  .record [("value", .text s.value), ("quote", .text [s.quote]), ("span", s.span.toData)]

def Boolean.toData (b : Boolean) : Data :=
  .record [("negated", .bool b.negated), ("literal", .bool b.literal), ("span", b.span.toData)]

def Literal.toData : Literal → Data
  | .number n => case "Number" n.toData
  | .string s => case "String" s.toData
  | .boolean b => case "Boolean" b.toData

def ArrayItems.toData : ArrayItems → Data
  | .booleans bs => case "Booleans" (ofList Boolean.toData bs)
  | .strings ss => case "Strings" (ofList StringLiteral.toData ss)
  | .numbers ns => case "Numbers" (ofList Number.toData ns)

def InPlaceArray.toData (a : InPlaceArray) : Data :=
  .record [("items", a.items.toData), ("span", a.span.toData)]

def Bound.toData : Bound → Data
  | .integer n => case "Integer" n.toData
  | .name x => case "Name" x.toData

def IndexRegion.toData (r : IndexRegion) : Data :=
  .record [("lower", ofOption Bound.toData r.lower), ("upper", ofOption Bound.toData r.upper),
    ("span", r.span.toData)]

def ArrayIndex.toData : ArrayIndex → Data
  | .region r => case "Region" r.toData
  | .integer n => case "Integer" n.toData
  | .name x => case "Name" x.toData

def IndexedArray.toData (a : IndexedArray) : Data :=
  .record [("name", a.name.toData), ("indices", ofList ArrayIndex.toData a.indices),
    ("span", a.span.toData)]

def VariableRef.toData : VariableRef → Data
  | .indexed a => case "Indexed" a.toData
  | .plain x => case "Plain" x.toData

def AccessedVariable.toData (v : AccessedVariable) : Data :=
  .record [("sign", ofOption Sign.toData v.sign), ("target", v.target.toData),
    ("span", v.span.toData)]

/-! ## Expressions and chains -/

/-- A call whose arguments have been written. -/
def callData (name : Identifier) (arguments : List Data) (s : Span) : Data :=
  .record [("name", name.toData), ("arguments", .list arguments), ("span", s.toData)]

mutual

def Expr.toData : Expr → Data
  | .call name es s => case "Call" (callData name (Expr.listData es) s)
  | .array a => case "Array" a.toData
  | .literal l => case "Literal" l.toData
  | .access v => case "Variable" v.toData

/-- Each of some expressions. -/
def Expr.listData : List Expr → List Data
  | [] => []
  | e :: es => Expr.toData e :: Expr.listData es

end

def FunctionCall.toData (c : FunctionCall) : Data :=
  callData c.name (Expr.listData c.arguments) c.span

/-- The name of an operator, as the case that it is. -/
def ArithmeticOperator.caseName : ArithmeticOperator → String
  | .add => "Add"
  | .subtract => "Subtract"
  | .multiply => "Multiply"
  | .divide => "Divide"
  | .power => "Power"

/-- The name of an operator, as the case that it is. -/
def RelationalOperator.caseName : RelationalOperator → String
  | .equal => "Equal"
  | .notEqual => "NotEqual"
  | .less => "Less"
  | .greater => "Greater"
  | .lessEqual => "LessEqual"
  | .greaterEqual => "GreaterEqual"

/-- The name of an operator, as the case that it is. -/
def LogicalOperator.caseName : LogicalOperator → String
  | .and => "And"
  | .or => "Or"
  | .eqv => "Eqv"
  | .neqv => "Neqv"

def ArithmeticOperator.toData (o : ArithmeticOperator) : Data := ofString o.caseName

def RelationalOperator.toData (o : RelationalOperator) : Data := ofString o.caseName

def LogicalOperator.toData (o : LogicalOperator) : Data := ofString o.caseName

def Chain.toData {ω α : Type} (operator : ω → Data) (operand : α → Data) (c : Chain ω α) : Data :=
  .record [("first", operand c.first),
    ("rest", ofList (fun x => .list [x.1.toData operator, operand x.2]) c.rest),
    ("span", c.span.toData)]

def arithmeticData : ArithmeticStatement → Data :=
  Chain.toData ArithmeticOperator.toData Expr.toData

def relationalData : RelationalStatement → Data :=
  Chain.toData RelationalOperator.toData arithmeticData

def logicalData : LogicalStatement → Data := Chain.toData LogicalOperator.toData relationalData

/-! ## Statements -/

def Assignment.toData (a : Assignment) : Data :=
  .record [("target", a.target.toData), ("value", a.value.toData), ("span", a.span.toData)]

def SubroutineCall.toData (c : SubroutineCall) : Data :=
  .record [("name", c.name.toData), ("arguments", ofOption (ofList Expr.toData) c.arguments),
    ("span", c.span.toData)]

def Construct.toData : Construct → Data
  | .identifier x => case "Identifier" x.toData
  | .sign s => case "Sign" (s.toData Sign.toData)
  | .precision k => case "Precision" (k.toData .text)
  | .digits d => case "Digits" (d.toData .text)
  | .integer n => case "Integer" n.toData
  | .float x => case "Float" x.toData
  | .number n => case "Number" n.toData
  | .string s => case "String" s.toData
  | .boolean b => case "Boolean" b.toData
  | .arithmeticOperator o => case "ArithmeticOperator" (o.toData ArithmeticOperator.toData)
  | .relationalOperator o => case "RelationalOperator" (o.toData RelationalOperator.toData)
  | .logicalOperator o => case "LogicalOperator" (o.toData LogicalOperator.toData)
  | .logicalPrefix s => case "LogicalPrefix" s.toData
  | .bound b => case "Bound" b.toData
  | .indexRegion r => case "IndexRegion" r.toData
  | .arrayIndex i => case "ArrayIndex" i.toData
  | .indexedArray a => case "IndexedArray" a.toData
  | .accessedVariable v => case "AccessedVariable" v.toData
  | .arrayItems i => case "ArrayItems" (i.toData ArrayItems.toData)
  | .inPlaceArray a => case "InPlaceArray" a.toData
  | .functionCall c => case "FunctionCall" c.toData
  | .expr e => case "Expr" e.toData
  | .arguments es => case "Arguments" (es.toData (ofList Expr.toData))
  | .arithmeticStatement c => case "ArithmeticStatement" (arithmeticData c)
  | .relationalStatement c => case "RelationalStatement" (relationalData c)
  | .logicalStatement c => case "LogicalStatement" (logicalData c)
  | .assignment a => case "Assignment" a.toData
  | .callKeyword s => case "CallKeyword" s.toData
  | .subroutineCall c => case "SubroutineCall" c.toData

end FreeForm
