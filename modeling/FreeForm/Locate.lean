import FreeForm.LogicalLine
import FreeForm.Parse

/-!
# Statements in whole sources

`locate` tries a rule at the start of the statement on each logical line.  In front of a statement
may stand blanks and a numeric label.
-/

namespace FreeForm

/-- The offset of the statement on a line.  Digits are a label only if a blank follows them. -/
def LogicalLine.statementStart (l : LogicalLine) : Nat :=
  let isBlank := CharClass.blank.holds
  let code := l.text.dropWhile isBlank
  let label := code.takeWhile Char.isDigit
  let between := (code.dropWhile Char.isDigit).takeWhile isBlank
  l.span.start + Text.size (l.text.takeWhile isBlank)
    + if label = [] ∨ between = [] then 0 else Text.size label + Text.size between

/-- Whether the character at an offset starts a comment. -/
def startsComment (source : Text) (pos : Nat) : Bool :=
  match source.dropBytes? pos with
  | some (c :: _) => c = '!'
  | _ => false

/-- The match of a rule on a logical line, if there is one. -/
def locateOn? (source : Text) (r : Rule) (o : Options) (l : LogicalLine) : Option Tree :=
  let start := l.statementStart
  if l.span.stop ≤ start ∨ startsComment source start then none
  else (parseRange source ⟨start, l.span.stop⟩ r o).toOption

/-- Every match of a rule at the start of a statement, in order.  If the options ask for complete
matches, a match has to be the whole statement. -/
def locate (source : Text) (r : Rule) (o : Options := {}) : List Tree :=
  (logicalLines source).filterMap (locateOn? source r o)

end FreeForm
