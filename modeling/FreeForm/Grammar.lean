import FreeForm.Noise
import FreeForm.Rule

/-!
# The grammar

The grammar of fragments of free-form Fortran: calls, assignments, array access and flat chains of
operators, without declarations, control flow and input or output.  It is a value:
`Rule.production` gives each rule its right-hand side, and how a phrase takes its part of a text
is defined elsewhere, once for all phrases.  Choice is ordered, and neither an option nor a
repetition gives back what it took.

No rule reaches itself before a character is taken.  Between two characters at most eight calls
nest, as from `logicalStatement` down to the `digits` of its first number.
-/

namespace FreeForm

/-- What a rule is made of. -/
inductive Phrase where
  /-- A lexeme that leaves no node. -/
  | token (p : Pattern)
  /-- A stretch that matches a rule and leaves its node. -/
  | call (r : Rule)
  | seq (a b : Phrase)
  /-- The first phrase, or else the second. -/
  | alt (a b : Phrase)
  /-- The phrase or nothing. -/
  | opt (a : Phrase)
  /-- The phrase as often as it applies. -/
  | many (a : Phrase)
deriving DecidableEq, Repr

namespace Phrase

/-- These characters. -/
def punct (w : Text) : Phrase := .token (.lit w)

/-- The first phrase and then the others, in order. -/
def inOrder (a : Phrase) : List Phrase → Phrase
  | [] => a
  | b :: bs => .seq a (inOrder b bs)

/-- The first of the phrases that applies. -/
def firstOf (a : Phrase) : List Phrase → Phrase
  | [] => a
  | b :: bs => .alt a (firstOf b bs)

/-- The first of the rules that applies. -/
def anyOf (r : Rule) (rs : List Rule) : Phrase := firstOf (.call r) (rs.map .call)

/-- One or more of a rule, with commas between them. -/
def commaList (r : Rule) : Phrase := .seq (.call r) (.many (.seq (punct [',']) (.call r)))

/-- Operands with operators between them. -/
def chain (operand operator : Rule) : Phrase :=
  .seq (.call operand) (.many (.seq (.call operator) (.call operand)))

/-- A phrase in parentheses. -/
def inParentheses (a : Phrase) : Phrase := inOrder (punct ['(']) [a, punct [')']]

end Phrase

/-- The right-hand side of a rule. -/
inductive Production where
  /-- One lexeme. -/
  | lexeme (p : Pattern)
  /-- Parts that follow each other directly. -/
  | compact (a : Phrase)
  /-- Parts that may have noise between them. -/
  | spaced (a : Phrase)
deriving DecidableEq, Repr

namespace Pattern

/-- A letter, then letters, digits and underscores. -/
def identifier : Pattern := .seq (.one .letter) (.run .wordChar)

/-- A quote, anything but this quote, and the quote. -/
def quotedWith (q : Char) : Pattern := all [.lit [q], .run (.noneOf [q]), .lit [q]]

/-- Two spellings of an operator: by symbols, and by letters between points. -/
def symbolOrWord (s w : Text) : Pattern := .alt (.lit s) (.word w)

end Pattern

namespace Rule

open Phrase

/-- The right-hand side of each rule. -/
def production : Rule → Production
  | digits => .lexeme (Pattern.many1 (.one .digit))
  | name => .lexeme .identifier
  | precisionSpec => .compact (.seq (punct ['_']) (anyOf name [digits]))
  | integer => .compact (.seq (.call digits) (.opt (.call precisionSpec)))
  | float =>
    .compact (inOrder (.call digits) [punct ['.'], .call digits, .opt (.call precisionSpec)])
  | sign => .spaced (.token (.one (.oneOf ['+', '-'])))
  -- an integer would take the whole part of a float
  | number => .compact (.seq (.opt (.call sign)) (anyOf float [integer]))
  | string => .lexeme (.alt (.quotedWith '"') (.quotedWith '\''))
  | booleanValue =>
    .lexeme (.alt (.word ['.', 't', 'r', 'u', 'e', '.'])
      (.word ['.', 'f', 'a', 'l', 's', 'e', '.']))
  | boolean => .spaced (.seq (.opt (.call logicalPrefixOperator)) (.call booleanValue))
  | power => .spaced (punct ['*', '*'])
  | multiplication => .spaced (punct ['*'])
  | division => .spaced (punct ['/'])
  | addition => .spaced (punct ['+'])
  | subtraction => .spaced (punct ['-'])
  | arithmeticOperator =>
    .spaced (anyOf power [multiplication, division, addition, subtraction])
  | equality => .spaced (.token (.symbolOrWord ['=', '='] ['.', 'e', 'q', '.']))
  | inequality => .spaced (.token (.symbolOrWord ['/', '='] ['.', 'n', 'e', '.']))
  | lessEqual => .spaced (.token (.symbolOrWord ['<', '='] ['.', 'l', 'e', '.']))
  | greaterEqual => .spaced (.token (.symbolOrWord ['>', '='] ['.', 'g', 'e', '.']))
  | less => .spaced (.token (.symbolOrWord ['<'] ['.', 'l', 't', '.']))
  | greater => .spaced (.token (.symbolOrWord ['>'] ['.', 'g', 't', '.']))
  | relationalOperator =>
    .spaced (anyOf equality [inequality, lessEqual, greaterEqual, less, greater])
  | logicalAnd => .spaced (.token (.word ['.', 'a', 'n', 'd', '.']))
  | logicalOr => .spaced (.token (.word ['.', 'o', 'r', '.']))
  | logicalEqv => .spaced (.token (.word ['.', 'e', 'q', 'v', '.']))
  | logicalNeqv => .spaced (.token (.word ['.', 'n', 'e', 'q', 'v', '.']))
  | logicalOperator => .spaced (anyOf logicalAnd [logicalOr, logicalEqv, logicalNeqv])
  | logicalNot => .spaced (.token (.word ['.', 'n', 'o', 't', '.']))
  | logicalPrefixOperator => .spaced (.call logicalNot)
  | lowerBound => .spaced (anyOf integer [name])
  | upperBound => .spaced (anyOf integer [name])
  | arrayIndexRegion =>
    .spaced (inOrder (.opt (.call lowerBound)) [punct [':'], .opt (.call upperBound)])
  | arrayIndex => .spaced (anyOf arrayIndexRegion [integer, name])
  | indexedArray => .spaced (.seq (.call name) (inOrder (punct ['('])
      [.call arrayIndex, .many (.seq (punct [',']) (.call arrayIndex)), punct [')']]))
  | accessedVariable => .spaced (.seq (.opt (.call sign)) (anyOf indexedArray [name]))
  | booleans => .spaced (commaList boolean)
  | strings => .spaced (commaList string)
  | numbers => .spaced (commaList number)
  | inPlaceArray =>
    .spaced (inOrder (punct ['(', '/']) [anyOf booleans [strings, numbers], punct ['/', ')']])
  | atomicValue => .spaced (anyOf boolean [string, number])
  | functionCall => .spaced (.seq (.call name) (inParentheses (.opt (.call arguments))))
  -- `a(1:2)` is an array access only because it is no call
  | valueReturningCode =>
    .spaced (anyOf functionCall [inPlaceArray, atomicValue, accessedVariable])
  | arithmeticStatement => .spaced (chain valueReturningCode arithmeticOperator)
  | relationalStatement => .spaced (chain arithmeticStatement relationalOperator)
  | logicalStatement => .spaced (chain relationalStatement logicalOperator)
  | argument => .spaced (.call valueReturningCode)
  | arguments => .spaced (commaList argument)
  | assignment =>
    .spaced (inOrder (.call accessedVariable) [punct ['='], .call valueReturningCode])
  | callKeyword => .lexeme (.seq (.word ['c', 'a', 'l', 'l']) (.avoid (.one .wordChar)))
  | subroutineCall => .spaced (inOrder (.call callKeyword)
      [.call name, .opt (inParentheses (.opt (.call arguments)))])

/-- Whether noise inside the rule is ruled out. -/
def isAtomic (r : Rule) : Bool :=
  match r.production with
  | .spaced _ => false
  | _ => true

end Rule

end FreeForm
