import FreeForm.Text

/-!
# Spans

A span is a half-open range of byte offsets.
-/

namespace FreeForm

/-- The bytes from `start` up to, and not including, `stop`. -/
structure Span where
  start : Nat
  stop : Nat
deriving DecidableEq, Repr, Inhabited

namespace Span

/-- The number of bytes covered. -/
def len (s : Span) : Nat := s.stop - s.start

def isEmpty (s : Span) : Bool := s.start = s.stop

/-- Whether `t` lies entirely inside `s`. -/
def contains (s t : Span) : Bool := s.start ≤ t.start && t.stop ≤ s.stop

/-- The part of the text `source` that a span covers; empty if its ends are no boundaries. -/
def text (source : Text) (s : Span) : Text := (source.slice? s.start s.stop).getD []

end Span

end FreeForm
