import FreeForm.Text

/-!
# Nesting of parentheses

How deeply parentheses nest is found by one pass over the characters, before any rule is tried.
Parentheses in quotes and in comments do not count, and a closing parenthesis too many is passed
over.
-/

namespace FreeForm

/-- Where a pass over a text stands: inside quotes of a kind, inside a comment or in neither, in
how many parentheses, and in how many at most up to here. -/
structure Nesting where
  quote : Option Char
  inComment : Bool
  depth : Nat
  deepest : Nat
deriving DecidableEq, Repr

namespace Nesting

/-- Before the first character. -/
def initial : Nesting := ⟨none, false, 0, 0⟩

/-- Takes one character into account.  A comment ends at a line feed. -/
def next (n : Nesting) (c : Char) : Nesting :=
  if n.inComment then { n with inComment := c ≠ '\n' }
  else match n.quote with
    | some q => if c = q then { n with quote := none } else n
    | none =>
      if c = '"' ∨ c = '\'' then { n with quote := some c }
      else if c = '!' then { n with inComment := true }
      else if c = '(' then { n with depth := n.depth + 1, deepest := max n.deepest (n.depth + 1) }
      else if c = ')' then { n with depth := n.depth - 1 }
      else n

theorem deepest_le_next (n : Nesting) (c : Char) : n.deepest ≤ (n.next c).deepest := by
  unfold next
  grind

end Nesting

/-- The largest number of parentheses that are open at once. -/
def nestingDepth (s : Text) : Nat := (s.foldl Nesting.next .initial).deepest

example : nestingDepth "f('((((', x) ! ((((".toList = 1 := by decide +kernel

end FreeForm
