import FreeForm.Reading

/-!
# The frontier of a failed run

When no match is found, the message names the furthest offset at which a rule failed, and the
rules to blame there.  Both are computed from the record of calls (`Frontier.afterCall`), in the
order in which the calls ended.

A call that fails takes the place of those inside it that failed where it began, since it is the
more telling name for them.  If exactly one such name was added on its account, that name stays:
then the inner rule tells more.
-/

namespace FreeForm

/-- The furthest offset of a failure so far, and the rules that failed there. -/
structure Frontier where
  pos : Nat
  rules : List Rule
deriving DecidableEq, Repr

namespace Frontier

/-- The number of rules blamed at an offset. -/
def countAt (f : Frontier) (pos : Nat) : Nat := if pos = f.pos then f.rules.length else 0

/-- Blames a rule at an offset.  At the frontier the rules after the first `keep` make room; a
new frontier has no others; behind the frontier nothing changes. -/
def blame (f : Frontier) (r : Rule) (pos keep : Nat) : Frontier :=
  if pos < f.pos then f
  else if pos = f.pos then ⟨pos, f.rules.take keep ++ [r]⟩
  else ⟨pos, [r]⟩

mutual

/-- Takes a finished call into account, after the calls it made. -/
def afterCall (f : Frontier) : Call → Frontier
  | .mk r start reached inner =>
    let g := afterCalls f inner
    if reached.isSome ∨ g.countAt start = f.countAt start + 1 then g
    else g.blame r start (f.countAt start)

/-- Takes calls into account, one after the other. -/
def afterCalls (f : Frontier) : List Call → Frontier
  | [] => f
  | c :: cs => afterCalls (afterCall f c) cs

end

/-- The rules blamed, without repetition and in the order of the grammar. -/
def expected (f : Frontier) : List Rule := Rule.all.filter f.rules.contains

end Frontier

end FreeForm
