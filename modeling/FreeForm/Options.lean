/-!
# Options of a parse
-/

namespace FreeForm

/-- What a caller can choose about a parse. -/
structure Options where
  /-- The deepest nesting of parentheses accepted.  It is checked before any rule is tried. -/
  maxNesting : Nat := 256
  /-- Whether a match has to leave nothing behind but noise and line breaks. -/
  requireComplete : Bool := false
  /-- The name of the text in error messages. -/
  sourceName : String := "<fragment>"
deriving DecidableEq, Repr, Inhabited

namespace Options

/-- Asks for complete matches. -/
def complete (o : Options) : Options := { o with requireComplete := true }

/-- Sets the nesting limit. -/
def withMaxNesting (o : Options) (n : Nat) : Options := { o with maxNesting := n }

/-- Sets the name of the text. -/
def named (o : Options) (s : String) : Options := { o with sourceName := s }

end Options

end FreeForm
