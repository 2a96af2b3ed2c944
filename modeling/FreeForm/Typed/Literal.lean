import FreeForm.Span

/-!
# Names and literals

Literals keep what was written: digits as they stand, the kind suffix apart, the quote that was
used.  The value of a number follows from its digits and its sign (`Number.value`).
-/

namespace FreeForm

/-- A value with the span it was read from. -/
structure Spanned (α : Type) where
  value : α
  span : Span
deriving DecidableEq, Repr

inductive Sign where
  | plus | minus
deriving DecidableEq, Repr

/-- A plain name: of a variable, an array, a function or a subroutine. -/
structure Identifier where
  name : Text
  span : Span
deriving DecidableEq, Repr

structure IntegerLiteral where
  digits : Text
  /-- The kind suffix without its underscore, as `prec` in `10_prec`. -/
  kind : Option Text
  span : Span
deriving DecidableEq, Repr

structure FloatLiteral where
  whole : Text
  fraction : Text
  /-- The kind suffix without its underscore. -/
  kind : Option Text
  span : Span
deriving DecidableEq, Repr

inductive NumberLiteral where
  | integer (n : IntegerLiteral)
  | float (x : FloatLiteral)
deriving DecidableEq, Repr

/-- A literal number with its sign. -/
structure Number where
  sign : Option Sign
  literal : NumberLiteral
  span : Span
deriving DecidableEq, Repr

/-- The number that a run of decimal digits denotes. -/
def natOfDigits (s : Text) : Nat := s.foldl (fun n c => 10 * n + (c.toNat - '0'.toNat)) 0

/-- Whether a text is made of decimal digits, at least one of them. -/
def isDigitRun (s : Text) : Bool := !s.isEmpty && s.all Char.isDigit

/-- Whether a number can be read off a literal: it consists of digits, and in a float there are
some on both sides of the point. -/
def NumberLiteral.isDecimal : NumberLiteral → Bool
  | integer n => isDigitRun n.digits
  | float x => isDigitRun x.whole && isDigitRun x.fraction

/-- The double nearest to what is written, without the sign. -/
def NumberLiteral.magnitude : NumberLiteral → Float
  | integer n => .ofScientific (natOfDigits n.digits) false 0
  | float x => .ofScientific (natOfDigits (x.whole ++ x.fraction)) true x.fraction.length

/-- The double nearest to what is written.  The kind does not count. -/
def Number.value (n : Number) : Float :=
  if n.sign = some .minus then -n.literal.magnitude else n.literal.magnitude

structure StringLiteral where
  /-- The characters between the quotes. -/
  value : Text
  quote : Char
  span : Span
deriving DecidableEq, Repr

structure Boolean where
  /-- Whether `.not.` stands in front. -/
  negated : Bool
  /-- The literal as written: whether it is `.true.` -/
  literal : Bool
  span : Span
deriving DecidableEq, Repr

inductive Literal where
  | number (n : Number)
  | string (s : StringLiteral)
  | boolean (b : Boolean)
deriving DecidableEq, Repr

def Literal.span : Literal → Span
  | number n => n.span
  | string s => s.span
  | boolean b => b.span

/-- What an array constructor lists: literals of one type. -/
inductive ArrayItems where
  | booleans (bs : List Boolean)
  | strings (ss : List StringLiteral)
  | numbers (ns : List Number)
deriving DecidableEq, Repr

/-- An array constructor, `(/ ... /)`. -/
structure InPlaceArray where
  items : ArrayItems
  span : Span
deriving DecidableEq, Repr

end FreeForm
