import FreeForm.Text.Blank

/-!
# Grammar rules

Every rule of the grammar that leaves a node in a syntax tree has a name here, and each of them
can be the start of a parse.  `Rule.all` fixes an order on them; `Rule.ofName?` finds a rule by
its spelling, which `Rule.toString` gives.
-/

namespace FreeForm

/-- The rules of the grammar: lexemes, operators, expressions, statements. -/
inductive Rule where
  | digits | name | precisionSpec | integer | float | sign | number | string | booleanValue
  | boolean | power | multiplication | division | addition | subtraction | arithmeticOperator
  | equality | inequality | lessEqual | greaterEqual | less | greater | relationalOperator
  | logicalAnd | logicalOr | logicalEqv | logicalNeqv | logicalOperator | logicalNot
  | logicalPrefixOperator | lowerBound | upperBound | arrayIndexRegion | arrayIndex | indexedArray
  | accessedVariable | booleans | strings | numbers | inPlaceArray | atomicValue | functionCall
  | valueReturningCode | arithmeticStatement | relationalStatement | logicalStatement | argument
  | arguments | assignment | callKeyword | subroutineCall
deriving DecidableEq, Repr, Inhabited

namespace Rule

/-- Every rule, in the order of the grammar. -/
def all : List Rule :=
  [.digits, .name, .precisionSpec, .integer, .float, .sign, .number, .string, .booleanValue,
   .boolean, .power, .multiplication, .division, .addition, .subtraction, .arithmeticOperator,
   .equality, .inequality, .lessEqual, .greaterEqual, .less, .greater, .relationalOperator,
   .logicalAnd, .logicalOr, .logicalEqv, .logicalNeqv, .logicalOperator, .logicalNot,
   .logicalPrefixOperator, .lowerBound, .upperBound, .arrayIndexRegion, .arrayIndex,
   .indexedArray, .accessedVariable, .booleans, .strings, .numbers, .inPlaceArray, .atomicValue,
   .functionCall, .valueReturningCode, .arithmeticStatement, .relationalStatement,
   .logicalStatement, .argument, .arguments, .assignment, .callKeyword, .subroutineCall]

theorem mem_all (r : Rule) : r ∈ all := by cases r <;> decide

/-- The place of a rule in `all`. -/
def index (r : Rule) : Nat := all.idxOf r

/-- The name of a rule: words in lower case with hyphens between them. -/
protected def toString : Rule → String
  | .digits => "digits"
  | .name => "name"
  | .precisionSpec => "precision-spec"
  | .integer => "integer"
  | .float => "float"
  | .sign => "sign"
  | .number => "number"
  | .string => "string"
  | .booleanValue => "boolean-value"
  | .boolean => "boolean"
  | .power => "power"
  | .multiplication => "multiplication"
  | .division => "division"
  | .addition => "addition"
  | .subtraction => "subtraction"
  | .arithmeticOperator => "arithmetic-operator"
  | .equality => "equality"
  | .inequality => "inequality"
  | .lessEqual => "less-equal"
  | .greaterEqual => "greater-equal"
  | .less => "less"
  | .greater => "greater"
  | .relationalOperator => "relational-operator"
  | .logicalAnd => "logical-and"
  | .logicalOr => "logical-or"
  | .logicalEqv => "logical-eqv"
  | .logicalNeqv => "logical-neqv"
  | .logicalOperator => "logical-operator"
  | .logicalNot => "logical-not"
  | .logicalPrefixOperator => "logical-prefix-operator"
  | .lowerBound => "lower-bound"
  | .upperBound => "upper-bound"
  | .arrayIndexRegion => "array-index-region"
  | .arrayIndex => "array-index"
  | .indexedArray => "indexed-array"
  | .accessedVariable => "accessed-variable"
  | .booleans => "booleans"
  | .strings => "strings"
  | .numbers => "numbers"
  | .inPlaceArray => "in-place-array"
  | .atomicValue => "atomic-value"
  | .functionCall => "function-call"
  | .valueReturningCode => "value-returning-code"
  | .arithmeticStatement => "arithmetic-statement"
  | .relationalStatement => "relational-statement"
  | .logicalStatement => "logical-statement"
  | .argument => "argument"
  | .arguments => "arguments"
  | .assignment => "assignment"
  | .callKeyword => "call-keyword"
  | .subroutineCall => "subroutine-call"

instance : ToString Rule := ⟨Rule.toString⟩

/-- The spelling of a name that is compared with the names of the rules: without white space
around it, with hyphens for underscores, in lower case. -/
def normalName (s : Text) : Text :=
  (s.trim Text.isSpace).map fun c => if c = '_' then '-' else c.toLower

/-- The rule with the given name, in any of the spellings that `normalName` identifies. -/
def ofName? (s : Text) : Option Rule :=
  all.find? fun r => r.toString.toList = normalName s

example : all.all fun r => ofName? r.toString.toList = some r := by decide +kernel

end Rule

end FreeForm
