import FreeForm.Lowering.Shape
import FreeForm.Typed.Literal

/-!
# Lowering of names and literals
-/

namespace FreeForm

def Identifier.ofTree (source : Source) (t : Tree) : Lowered Identifier := do
  t.expect source .name
  return ⟨t.text source.content, t.span⟩

/-- The kind that a suffix names, without the underscore. -/
def kindOfTree (source : Source) (t : Tree) : Lowered Text := do
  t.expect source .precisionSpec
  let k ← t.firstChild source "a kind name or digits"
  return k.text source.content

def IntegerLiteral.ofTree (source : Source) (t : Tree) : Lowered IntegerLiteral := do
  t.expect source .integer
  let digits ← t.required source .digits
  let kind ← t.optional .precisionSpec (kindOfTree source)
  return ⟨digits.text source.content, kind, t.span⟩

def FloatLiteral.ofTree (source : Source) (t : Tree) : Lowered FloatLiteral := do
  t.expect source .float
  match t.childrenNamed .digits with
  | whole :: fraction :: _ =>
    let kind ← t.optional .precisionSpec (kindOfTree source)
    return ⟨whole.text source.content, fraction.text source.content, kind, t.span⟩
  | _ => .error (t.unexpected source "digits on both sides of the point")

def Sign.ofTree (source : Source) (t : Tree) : Lowered Sign :=
  match t.text source.content with
  | ['+'] => .ok .plus
  | ['-'] => .ok .minus
  | _ => .error (t.unexpected source "`+` or `-`")

/-- A float if the tree has one, and an integer on demand otherwise. -/
def NumberLiteral.ofTree (source : Source) (t : Tree) : Lowered NumberLiteral :=
  match t.child? .float with
  | some u => (FloatLiteral.ofTree source u).map .float
  | none => do
    let u ← t.required source .integer
    return .integer (← IntegerLiteral.ofTree source u)

def Number.ofTree (source : Source) (t : Tree) : Lowered Number := do
  t.expect source .number
  let sign ← t.optional .sign (Sign.ofTree source)
  let literal ← NumberLiteral.ofTree source t
  if literal.isDecimal then
    return ⟨sign, literal, t.span⟩
  else
    .error (t.invalidLiteral source "number")

/-- The quote and the characters between the quotes of a text. -/
def unquote? (s : Text) : Option (Char × Text) :=
  match s with
  | [] => none
  | q :: r => if (q = '"' ∨ q = '\'') ∧ r.getLast? = some q then some (q, r.dropLast) else none

def StringLiteral.ofTree (source : Source) (t : Tree) : Lowered StringLiteral := do
  t.expect source .string
  match unquote? (t.text source.content) with
  | some (quote, value) => return ⟨value, quote, t.span⟩
  | none => .error (t.invalidLiteral source "string")

/-- The truth value that a text spells, in upper or lower case. -/
def truthValue? (s : Text) : Option Bool :=
  let w := s.map Char.toLower
  if w = ['.', 't', 'r', 'u', 'e', '.'] then some true
  else if w = ['.', 'f', 'a', 'l', 's', 'e', '.'] then some false
  else none

/-- The child of a truth value with a possible negation, or a bare truth value itself; and whether
there is a negation. -/
def Boolean.parts (source : Source) (t : Tree) : Lowered (Bool × Tree) :=
  match t.rule with
  | .booleanValue => .ok (false, t)
  | .boolean => do
    let u ← t.required source .booleanValue
    return ((t.child? .logicalPrefixOperator).isSome, u)
  | _ => .error (t.unexpected source "boolean")

def Boolean.ofTree (source : Source) (t : Tree) : Lowered Boolean := do
  let (negated, u) ← Boolean.parts source t
  match truthValue? (u.text source.content) with
  | some literal => return ⟨negated, literal, t.span⟩
  | none => .error (u.invalidLiteral source "boolean")

def ArrayItems.ofTree (source : Source) (t : Tree) : Lowered ArrayItems :=
  match t.rule with
  | .booleans => .booleans <$> (t.childrenNamed .boolean).mapM (Boolean.ofTree source)
  | .strings => .strings <$> (t.childrenNamed .string).mapM (StringLiteral.ofTree source)
  | .numbers => .numbers <$> (t.childrenNamed .number).mapM (Number.ofTree source)
  | _ => .error (t.unexpected source "booleans, strings or numbers")

def InPlaceArray.ofTree (source : Source) (t : Tree) : Lowered InPlaceArray := do
  t.expect source .inPlaceArray
  let u ← t.firstChild source "a literal list"
  return ⟨← ArrayItems.ofTree source u, t.span⟩

end FreeForm
