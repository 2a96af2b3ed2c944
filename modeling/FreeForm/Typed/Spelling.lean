import FreeForm.Rule
import FreeForm.Typed.Construct

/-!
# Canonical spelling

`spell` writes typed syntax down as a text, in one way out of the many in which it could have been
written: operators stand between single blanks, the items of a list are set apart by a comma and a
blank, and there are no other blanks but those inside `(/ ... /)` and behind `.not.` and `call`.

Not all typed syntax can be spelled: a name has to be a name.  `isWellFormed` says what is asked of
the parts.  `parenDepth` is the number of parentheses around the innermost part, and `bare` forgets
where the parts were read.
-/

namespace FreeForm

/-! ## Texts -/

/-- Whether a text is a name: a letter, then letters, digits and underscores. -/
def isName : Text → Bool
  | [] => false
  | c :: s => c.isAlpha && s.all fun d => d.isAlphanum || d = '_'

/-- Whether a text can name the kind of a number. -/
def isKind (s : Text) : Bool := isName s || isDigitRun s

/-- A kind as a suffix. -/
def kindSuffix : Option Text → Text
  | none => []
  | some k => '_' :: k

/-- The texts with a comma and a blank between them. -/
def commaSeparated (ws : List Text) : Text := [',', ' '].intercalate ws

/-- The text in parentheses. -/
def parenthesized (w : Text) : Text := '(' :: (w ++ [')'])

/-- The largest of some numbers, 0 if there are none. -/
def deepest (ns : List Nat) : Nat := ns.foldr max 0

/-! ## Names and literals -/

namespace Identifier

def spell (x : Identifier) : Text := x.name

def isWellFormed (x : Identifier) : Bool := isName x.name

def bare (x : Identifier) : Identifier := { x with span := default }

end Identifier

namespace IntegerLiteral

def spell (n : IntegerLiteral) : Text := n.digits ++ kindSuffix n.kind

def isWellFormed (n : IntegerLiteral) : Bool := isDigitRun n.digits && n.kind.all isKind

def bare (n : IntegerLiteral) : IntegerLiteral := { n with span := default }

end IntegerLiteral

namespace FloatLiteral

def spell (x : FloatLiteral) : Text := x.whole ++ '.' :: (x.fraction ++ kindSuffix x.kind)

def isWellFormed (x : FloatLiteral) : Bool :=
  isDigitRun x.whole && isDigitRun x.fraction && x.kind.all isKind

def bare (x : FloatLiteral) : FloatLiteral := { x with span := default }

end FloatLiteral

namespace NumberLiteral

def spell : NumberLiteral → Text
  | integer n => n.spell
  | float x => x.spell

def isWellFormed : NumberLiteral → Bool
  | integer n => n.isWellFormed
  | float x => x.isWellFormed

def bare : NumberLiteral → NumberLiteral
  | integer n => integer n.bare
  | float x => float x.bare

end NumberLiteral

/-- A sign in front of its operand, or nothing. -/
def signPrefix : Option Sign → Text
  | none => []
  | some .plus => ['+']
  | some .minus => ['-']

namespace Number

def spell (n : Number) : Text := signPrefix n.sign ++ n.literal.spell

def isWellFormed (n : Number) : Bool := n.literal.isWellFormed

def bare (n : Number) : Number := { n with literal := n.literal.bare, span := default }

end Number

namespace StringLiteral

def spell (s : StringLiteral) : Text := s.quote :: (s.value ++ [s.quote])

def isWellFormed (s : StringLiteral) : Bool :=
  (s.quote = '"' || s.quote = '\'') && !s.value.contains s.quote

def bare (s : StringLiteral) : StringLiteral := { s with span := default }

end StringLiteral

/-- The word for a truth value. -/
def truthWord : Bool → Text
  | true => ['.', 't', 'r', 'u', 'e', '.']
  | false => ['.', 'f', 'a', 'l', 's', 'e', '.']

namespace Boolean

def spell (b : Boolean) : Text :=
  if b.negated then ['.', 'n', 'o', 't', '.', ' '] ++ truthWord b.literal else truthWord b.literal

def bare (b : Boolean) : Boolean := { b with span := default }

end Boolean

namespace Literal

def spell : Literal → Text
  | number n => n.spell
  | string s => s.spell
  | boolean b => b.spell

def isWellFormed : Literal → Bool
  | number n => n.isWellFormed
  | string s => s.isWellFormed
  | boolean _ => true

def bare : Literal → Literal
  | number n => number n.bare
  | string s => string s.bare
  | boolean b => boolean b.bare

end Literal

namespace ArrayItems

def spell : ArrayItems → Text
  | booleans bs => commaSeparated (bs.map Boolean.spell)
  | strings ss => commaSeparated (ss.map StringLiteral.spell)
  | numbers ns => commaSeparated (ns.map Number.spell)

/-- There is an item, and the items are well-formed. -/
def isWellFormed : ArrayItems → Bool
  | booleans bs => !bs.isEmpty
  | strings ss => !ss.isEmpty && ss.all StringLiteral.isWellFormed
  | numbers ns => !ns.isEmpty && ns.all Number.isWellFormed

def bare : ArrayItems → ArrayItems
  | booleans bs => booleans (bs.map Boolean.bare)
  | strings ss => strings (ss.map StringLiteral.bare)
  | numbers ns => numbers (ns.map Number.bare)

end ArrayItems

namespace InPlaceArray

def spell (a : InPlaceArray) : Text :=
  parenthesized (['/', ' '] ++ (a.items.spell ++ [' ', '/']))

def isWellFormed (a : InPlaceArray) : Bool := a.items.isWellFormed

def bare (a : InPlaceArray) : InPlaceArray := ⟨a.items.bare, default⟩

end InPlaceArray

/-! ## Variables -/

namespace Bound

def spell : Bound → Text
  | integer n => n.spell
  | name x => x.spell

def isWellFormed : Bound → Bool
  | integer n => n.isWellFormed
  | name x => x.isWellFormed

def bare : Bound → Bound
  | integer n => integer n.bare
  | name x => name x.bare

end Bound

namespace IndexRegion

def spell (r : IndexRegion) : Text :=
  r.lower.elim [] Bound.spell ++ ':' :: r.upper.elim [] Bound.spell

def isWellFormed (r : IndexRegion) : Bool :=
  r.lower.all Bound.isWellFormed && r.upper.all Bound.isWellFormed

def bare (r : IndexRegion) : IndexRegion :=
  ⟨r.lower.map Bound.bare, r.upper.map Bound.bare, default⟩

end IndexRegion

namespace ArrayIndex

def spell : ArrayIndex → Text
  | region r => r.spell
  | integer n => n.spell
  | name x => x.spell

def isWellFormed : ArrayIndex → Bool
  | region r => r.isWellFormed
  | integer n => n.isWellFormed
  | name x => x.isWellFormed

def bare : ArrayIndex → ArrayIndex
  | region r => region r.bare
  | integer n => integer n.bare
  | name x => name x.bare

/-- Whether the index is a region. -/
def isRegion : ArrayIndex → Bool
  | region _ => true
  | integer _ | name _ => false

end ArrayIndex

namespace IndexedArray

def spell (a : IndexedArray) : Text :=
  a.name.spell ++ parenthesized (commaSeparated (a.indices.map ArrayIndex.spell))

/-- There is an index, and the parts are well-formed. -/
def isWellFormed (a : IndexedArray) : Bool :=
  a.name.isWellFormed && !a.indices.isEmpty && a.indices.all ArrayIndex.isWellFormed

def bare (a : IndexedArray) : IndexedArray :=
  ⟨a.name.bare, a.indices.map ArrayIndex.bare, default⟩

end IndexedArray

namespace VariableRef

def spell : VariableRef → Text
  | indexed a => a.spell
  | plain x => x.spell

def isWellFormed : VariableRef → Bool
  | indexed a => a.isWellFormed
  | plain x => x.isWellFormed

/-- Whether the spelling is not the spelling of a call: it has no parentheses, or a region in
them. -/
def isNoCall : VariableRef → Bool
  | indexed a => a.indices.any ArrayIndex.isRegion
  | plain _ => true

def parenDepth : VariableRef → Nat
  | indexed _ => 1
  | plain _ => 0

def bare : VariableRef → VariableRef
  | indexed a => indexed a.bare
  | plain x => plain x.bare

end VariableRef

namespace AccessedVariable

def spell (v : AccessedVariable) : Text := signPrefix v.sign ++ v.target.spell

def isWellFormed (v : AccessedVariable) : Bool := v.target.isWellFormed

/-- Whether the variable can be an expression.  Without a sign it must not be spelled like a
call. -/
def isOperand (v : AccessedVariable) : Bool := v.sign.isSome || v.target.isNoCall

def parenDepth (v : AccessedVariable) : Nat := v.target.parenDepth

def bare (v : AccessedVariable) : AccessedVariable :=
  { v with target := v.target.bare, span := default }

end AccessedVariable

/-! ## Expressions -/

namespace Expr

/-- What holds of a call if it holds of the arguments holds of every expression. -/
theorem induction {P : Expr → Prop} (call : ∀ x es s, (∀ e ∈ es, P e) → P (call x es s))
    (array : ∀ a, P (array a)) (literal : ∀ l, P (literal l)) (access : ∀ v, P (access v)) :
    ∀ e, P e
  | .call x es s => call x es s fun e he =>
    have := List.sizeOf_lt_of_mem he
    induction call array literal access e
  | .array a => array a
  | .literal l => literal l
  | .access v => access v
termination_by e => sizeOf e
decreasing_by simp only [Expr.call.sizeOf_spec]; omega

mutual

def spell : Expr → Text
  | call x es _ => x.spell ++ parenthesized (commaSeparated (spellings es))
  | array a => a.spell
  | literal l => l.spell
  | access v => v.spell

/-- The spellings of some expressions. -/
def spellings : List Expr → List Text
  | [] => []
  | e :: es => spell e :: spellings es

end

mutual

def isWellFormed : Expr → Bool
  | call x es _ => x.isWellFormed && areWellFormed es
  | array a => a.isWellFormed
  | literal l => l.isWellFormed
  | access v => v.isWellFormed && v.isOperand

/-- Whether some expressions are well-formed. -/
def areWellFormed : List Expr → Bool
  | [] => true
  | e :: es => isWellFormed e && areWellFormed es

end

mutual

def parenDepth : Expr → Nat
  | call _ es _ => deepest (parenDepths es) + 1
  | array _ => 1
  | literal _ => 0
  | access v => v.parenDepth

/-- How deeply parentheses nest in each of some expressions. -/
def parenDepths : List Expr → List Nat
  | [] => []
  | e :: es => parenDepth e :: parenDepths es

end

mutual

def bare : Expr → Expr
  | call x es _ => call x.bare (bares es) default
  | array a => array a.bare
  | literal l => literal l.bare
  | access v => access v.bare

/-- Some expressions without their spans. -/
def bares : List Expr → List Expr
  | [] => []
  | e :: es => bare e :: bares es

end

theorem spellings_eq_map (es : List Expr) : spellings es = es.map spell := by
  induction es with
  | nil => rfl
  | cons e es ih => rw [spellings, ih, List.map_cons]

theorem areWellFormed_eq_all (es : List Expr) : areWellFormed es = es.all isWellFormed := by
  induction es with
  | nil => rfl
  | cons e es ih => rw [areWellFormed, ih, List.all_cons]

theorem parenDepths_eq_map (es : List Expr) : parenDepths es = es.map parenDepth := by
  induction es with
  | nil => rfl
  | cons e es ih => rw [parenDepths, ih, List.map_cons]

theorem bares_eq_map (es : List Expr) : bares es = es.map bare := by
  induction es with
  | nil => rfl
  | cons e es ih => rw [bares, ih, List.map_cons]

end Expr

/-! ## Chains -/

namespace ArithmeticOperator

def spell : ArithmeticOperator → Text
  | add => ['+']
  | subtract => ['-']
  | multiply => ['*']
  | divide => ['/']
  | power => ['*', '*']

end ArithmeticOperator

namespace RelationalOperator

/-- An operator by symbols, or by letters between points. -/
def spell : (words : Bool) → RelationalOperator → Text
  | false, equal => ['=', '=']
  | false, notEqual => ['/', '=']
  | false, less => ['<']
  | false, greater => ['>']
  | false, lessEqual => ['<', '=']
  | false, greaterEqual => ['>', '=']
  | true, equal => ['.', 'e', 'q', '.']
  | true, notEqual => ['.', 'n', 'e', '.']
  | true, less => ['.', 'l', 't', '.']
  | true, greater => ['.', 'g', 't', '.']
  | true, lessEqual => ['.', 'l', 'e', '.']
  | true, greaterEqual => ['.', 'g', 'e', '.']

end RelationalOperator

namespace LogicalOperator

def spell : LogicalOperator → Text
  | and => ['.', 'a', 'n', 'd', '.']
  | or => ['.', 'o', 'r', '.']
  | eqv => ['.', 'e', 'q', 'v', '.']
  | neqv => ['.', 'n', 'e', 'q', 'v', '.']

end LogicalOperator

namespace Chain

variable {ω α : Type}

/-- An operand as `operand` spells it, then the operators as `operator` spells them, between
blanks, and the other operands. -/
def spell (operator : ω → Text) (operand : α → Text) (c : Chain ω α) : Text :=
  operand c.first ++
    c.rest.flatMap fun x => ' ' :: (operator x.1.value ++ ' ' :: operand x.2)

def isWellFormed (operand : α → Bool) (c : Chain ω α) : Bool := c.operands.all operand

def parenDepth (operand : α → Nat) (c : Chain ω α) : Nat := deepest (c.operands.map operand)

def bare (operand : α → α) (c : Chain ω α) : Chain ω α :=
  ⟨operand c.first, c.rest.map fun x => (⟨x.1.value, default⟩, operand x.2), default⟩

end Chain

namespace ArithmeticStatement

def spell (c : ArithmeticStatement) : Text := Chain.spell ArithmeticOperator.spell Expr.spell c

def isWellFormed (c : ArithmeticStatement) : Bool := Chain.isWellFormed Expr.isWellFormed c

def parenDepth (c : ArithmeticStatement) : Nat := Chain.parenDepth Expr.parenDepth c

def bare (c : ArithmeticStatement) : ArithmeticStatement := Chain.bare Expr.bare c

end ArithmeticStatement

namespace RelationalStatement

def spell (words : Bool) (c : RelationalStatement) : Text :=
  Chain.spell (RelationalOperator.spell words) ArithmeticStatement.spell c

def isWellFormed (c : RelationalStatement) : Bool :=
  Chain.isWellFormed ArithmeticStatement.isWellFormed c

def parenDepth (c : RelationalStatement) : Nat :=
  Chain.parenDepth ArithmeticStatement.parenDepth c

def bare (c : RelationalStatement) : RelationalStatement := Chain.bare ArithmeticStatement.bare c

end RelationalStatement

namespace LogicalStatement

def spell (words : Bool) (c : LogicalStatement) : Text :=
  Chain.spell LogicalOperator.spell (RelationalStatement.spell words) c

def isWellFormed (c : LogicalStatement) : Bool :=
  Chain.isWellFormed RelationalStatement.isWellFormed c

def parenDepth (c : LogicalStatement) : Nat := Chain.parenDepth RelationalStatement.parenDepth c

def bare (c : LogicalStatement) : LogicalStatement := Chain.bare RelationalStatement.bare c

end LogicalStatement

/-! ## Statements -/

namespace Assignment

def spell (a : Assignment) : Text := a.target.spell ++ [' ', '=', ' '] ++ a.value.spell

def isWellFormed (a : Assignment) : Bool := a.target.isWellFormed && a.value.isWellFormed

def parenDepth (a : Assignment) : Nat := max a.target.parenDepth a.value.parenDepth

def bare (a : Assignment) : Assignment := ⟨a.target.bare, a.value.bare, default⟩

end Assignment

namespace SubroutineCall

/-- The arguments in parentheses, or nothing without parentheses. -/
def spellArguments : Option (List Expr) → Text
  | none => []
  | some es => parenthesized (commaSeparated (es.map Expr.spell))

def spell (c : SubroutineCall) : Text :=
  ['c', 'a', 'l', 'l', ' '] ++ (c.name.spell ++ spellArguments c.arguments)

def isWellFormed (c : SubroutineCall) : Bool :=
  c.name.isWellFormed && c.arguments.all fun es => es.all Expr.isWellFormed

def parenDepth (c : SubroutineCall) : Nat :=
  c.arguments.elim 0 fun es => deepest (es.map Expr.parenDepth) + 1

def bare (c : SubroutineCall) : SubroutineCall :=
  ⟨c.name.bare, c.arguments.map fun es => es.map Expr.bare, default⟩

end SubroutineCall

/-! ## Fragments -/

/-- Typed syntax of the kinds that stand on their own. -/
inductive Fragment where
  | expr (e : Expr)
  | arithmetic (c : ArithmeticStatement)
  | relational (c : RelationalStatement)
  | logical (c : LogicalStatement)
  | assignment (a : Assignment)
  | subroutineCall (c : SubroutineCall)
deriving DecidableEq, Repr

namespace Fragment

/-- The rule that a fragment is read by. -/
def rule : Fragment → Rule
  | expr _ => .valueReturningCode
  | arithmetic _ => .arithmeticStatement
  | relational _ => .relationalStatement
  | logical _ => .logicalStatement
  | assignment _ => .assignment
  | subroutineCall _ => .subroutineCall

def construct : Fragment → Construct
  | expr e => .expr e
  | arithmetic c => .arithmeticStatement c
  | relational c => .relationalStatement c
  | logical c => .logicalStatement c
  | assignment a => .assignment a
  | subroutineCall c => .subroutineCall c

def span : Fragment → Span
  | expr e => e.span
  | arithmetic c => c.span
  | relational c => c.span
  | logical c => c.span
  | assignment a => a.span
  | subroutineCall c => c.span

/-- The text of a fragment.  Relational operators are spelled by words if `words` says so. -/
def spell (words : Bool) : Fragment → Text
  | expr e => e.spell
  | arithmetic c => c.spell
  | relational c => c.spell words
  | logical c => c.spell words
  | assignment a => a.spell
  | subroutineCall c => c.spell

def isWellFormed : Fragment → Bool
  | expr e => e.isWellFormed
  | arithmetic c => c.isWellFormed
  | relational c => c.isWellFormed
  | logical c => c.isWellFormed
  | assignment a => a.isWellFormed
  | subroutineCall c => c.isWellFormed

/-- How deeply parentheses nest in the spelling, outside strings. -/
def parenDepth : Fragment → Nat
  | expr e => e.parenDepth
  | arithmetic c => c.parenDepth
  | relational c => c.parenDepth
  | logical c => c.parenDepth
  | assignment a => a.parenDepth
  | subroutineCall c => c.parenDepth

def bare : Fragment → Fragment
  | expr e => expr e.bare
  | arithmetic c => arithmetic c.bare
  | relational c => relational c.bare
  | logical c => logical c.bare
  | assignment a => assignment a.bare
  | subroutineCall c => subroutineCall c.bare

end Fragment

end FreeForm
