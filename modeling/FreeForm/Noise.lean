import FreeForm.Pattern

/-!
# Noise between lexemes

Between two lexemes of a statement may stand blanks, comments and continuations.  A comment runs
from `!` to the end of its line.  A continuation joins lines: it runs from the `&` at the end of
one line to the `&` at the start of another, and the lines in between hold blanks and comments
only.  A line break outside a continuation is not noise.

`noise` takes the three kinds in any order; `gap` is the form in which they are skipped between
the parts of a rule.  `trailing` may follow a statement, and takes line breaks too.
-/

namespace FreeForm

namespace CharClass

/-- A blank or a tab. -/
def blank : CharClass := .oneOf [' ', '\t']

/-- One of the two characters that line breaks are made of. -/
def lineBreak : CharClass := .oneOf ['\n', '\r']

end CharClass

namespace Pattern

/-- A line feed, a carriage return with a line feed, or a lone carriage return. -/
def newline : Pattern := .alt (.lit ['\n']) (.alt (.lit ['\r', '\n']) (.lit ['\r']))

/-- From `!` to the next line break of any kind. -/
def comment : Pattern := .seq (.lit ['!']) (.run (.noneOf ['\n', '\r']))

/-- From `&` over at least one line break to the next `&`. -/
def continuation : Pattern :=
  all [.lit ['&'], many1 (all [.run .blank, opt comment, newline]), .run .blank, .lit ['&']]

/-- What is skipped like a blank. -/
def whitespace : Pattern := .alt (.one .blank) continuation

/-- Blanks, continuations and comments, as many as there are. -/
def noise : Pattern := .many (.alt whitespace comment)

/-- Noise between the parts of a rule: blanks and continuations, then comments, each with the
blanks and continuations behind it. -/
def gap : Pattern := .seq (.many whitespace) (.many (.seq comment (.many whitespace)))

/-- What may follow a complete statement. -/
def trailing : Pattern := .many (.alt (.alt whitespace comment) (.one .lineBreak))

end Pattern

/-- The first offset from `pos` on at which no noise stands.  An offset that is no character
boundary of the source stays as it is. -/
def skipNoise (source : Text) (pos : Nat) : Nat :=
  pos + ((source.dropBytes? pos).bind Pattern.noise.width?).getD 0

/-- The first offset from `pos` on at which neither noise nor a line break stands. -/
def skipTrailing (source : Text) (pos : Nat) : Nat :=
  pos + ((source.dropBytes? pos).bind Pattern.trailing.width?).getD 0

theorem le_skipNoise (source : Text) (pos : Nat) : pos ≤ skipNoise source pos :=
  Nat.le_add_right ..

theorem le_skipTrailing (source : Text) (pos : Nat) : pos ≤ skipTrailing source pos :=
  Nat.le_add_right ..

example : skipNoise "x & ! why\n\n & y".toList 1 = 14 := by decide +kernel

example : skipNoise "x & y".toList 1 = 2 := by decide +kernel

end FreeForm
