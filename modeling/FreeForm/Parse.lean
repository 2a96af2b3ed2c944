import FreeForm.Error
import FreeForm.Frontier
import FreeForm.Nesting
import FreeForm.Options

/-!
# Parsing

`parse` matches a rule against the front of a text; `parseRange` does so inside a range of a
source and reports offsets of the source.  The nesting of parentheses is checked first.  A match
need not cover the whole range unless the options say so, and noise behind it never belongs to it.
Noise in front is not skipped: `skipNoise` finds where a statement starts.
-/

namespace FreeForm

/-- The error of a run without a match that began at the offset `base`. -/
def mismatchError (source : Source) (r : Rule) (base : Nat) (calls : List Call) : ParseError :=
  let f := Frontier.afterCalls ⟨base, []⟩ calls
  ⟨.mismatch r f.pos f.expected, source, ⟨f.pos, f.pos⟩⟩

/-- The error of a match of `total` bytes from `base` on that stops short of their end. -/
def incompleteError (source : Source) (r : Rule) (base stop total : Nat) : ParseError :=
  ⟨.incomplete r (stop - base) total, source, ⟨stop, base + total⟩⟩

/-- Matches a rule at the front of a fragment, which stands at the offset `base` of the source. -/
def matchFragment (source : Source) (r : Rule) (base : Nat) (fragment : Text) :
    Except ParseError Tree :=
  let reading := r.read (.start fragment base)
  match reading.found with
  | some (t :: _, _) => .ok t
  | _ => .error (mismatchError source r base reading.calls)

/-- Parses a fragment that stands at the offset `base` of a source. -/
def parseFragment (source : Source) (r : Rule) (base : Nat) (fragment : Text) (o : Options) :
    Except ParseError Tree :=
  let depth := nestingDepth fragment
  let stop := base + fragment.size
  if o.maxNesting < depth then
    .error ⟨.nestingTooDeep depth o.maxNesting, source, ⟨base, stop⟩⟩
  else do
    let t ← matchFragment source r base fragment
    if o.requireComplete ∧ skipTrailing source.content t.span.stop < stop then
      .error (incompleteError source r base t.span.stop fragment.size)
    else
      .ok t

/-- Parses inside a range of a text.  The ends of the range have to be character boundaries. -/
def parseRange (s : Text) (range : Span) (r : Rule) (o : Options) : Except ParseError Tree :=
  let source : Source := ⟨o.sourceName, s⟩
  match s.slice? range.start range.stop with
  | some fragment => parseFragment source r range.start fragment o
  | none =>
    let pos := min range.start s.size
    .error (.malformedTree source r "a range on character boundaries" ⟨pos, pos⟩)

/-- Parses from the beginning of a text. -/
def parse (s : Text) (r : Rule) (o : Options) : Except ParseError Tree :=
  parseRange s ⟨0, s.size⟩ r o

end FreeForm
