import FreeForm.Noise
import FreeForm.Span
import FreeForm.Text.Blank

/-!
# Logical lines

A physical line goes up to a line feed.  A physical line whose code ends with `&` is continued on
the next one, and physical lines without code in between do not end the continuation.  The lines
joined in this way are one logical line.

`LineScan.next` takes one physical line into account; a scan of a text is a fold of it over the
physical lines, so that a scan of two texts is one scan going on where the other stopped
(`LineScan.run_append`).
-/

namespace FreeForm

/-- One or more physical lines that continuations join, without the last line break. -/
structure LogicalLine where
  span : Span
  text : Text
deriving DecidableEq, Repr

namespace Text

/-- The physical lines of a text, each with its line feed. -/
def physicalLines : Text → List Text
  | [] => []
  | c :: s =>
    if c = '\n' then [c] :: physicalLines s
    else match physicalLines s with
      | [] => [[c]]
      | l :: ls => (c :: l) :: ls

/-- Nothing is lost between the lines. -/
theorem flatten_physicalLines (s : Text) : s.physicalLines.flatten = s := by
  induction s with
  | nil => rfl
  | cons c s ih =>
    rw [physicalLines]
    split
    · simp [ih]
    · split <;> simp_all

/-- The part of a physical line in front of a comment, when it starts inside the quote given. -/
def codeFrom : Option Char → Text → Text
  | _, [] => []
  | some q, c :: s => c :: codeFrom (if c = q then none else some q) s
  | none, c :: s =>
    if c = '!' then []
    else c :: codeFrom (if c = '"' ∨ c = '\'' then some c else none) s

/-- The part of a physical line in front of a comment.  A quote that the line leaves open hides
what follows it. -/
def code (s : Text) : Text := codeFrom none s

/-- Whether the code of a physical line asks for a continuation. -/
def continues (s : Text) : Bool := (s.code.trimEnd CharClass.blank.holds).getLast? = some '&'

/-- Whether a physical line has no code. -/
def isCodeless (s : Text) : Bool := s.code.all CharClass.blank.holds

/-- A line without its line break. -/
def body (s : Text) : Text := s.trimEnd CharClass.lineBreak.holds

end Text

/-- Where a scan for logical lines stands: the offset reached, the start of a logical line that is
still open, and the spans of those that are complete. -/
structure LineScan where
  offset : Nat
  pending : Option Nat
  lines : List Span
deriving DecidableEq, Repr

namespace LineScan

/-- Takes one physical line into account. -/
def next (n : LineScan) (line : Text) : LineScan :=
  let offset := n.offset + line.size
  if n.pending.isSome ∧ line.body.isCodeless then { n with offset := offset }
  else
    let start := n.pending.getD n.offset
    if line.body.continues then { n with offset := offset, pending := some start }
    else ⟨offset, none, n.lines ++ [⟨start, n.offset + line.body.size⟩]⟩

/-- Takes physical lines into account. -/
def run (n : LineScan) (lines : List Text) : LineScan := lines.foldl next n

theorem run_append (n : LineScan) (ks ls : List Text) : n.run (ks ++ ls) = (n.run ks).run ls := by
  simp [run]

/-- The spans of the logical lines of a source.  A line that is still open after the last physical
line ends with the source, without the line breaks there. -/
def spans (source : Text) (n : LineScan) : List Span :=
  match n.pending with
  | none => n.lines
  | some start => n.lines ++ [⟨start, max source.body.size start⟩]

end LineScan

/-- The logical lines of a source. -/
def logicalLines (source : Text) : List LogicalLine :=
  ((LineScan.run ⟨0, none, []⟩ source.physicalLines).spans source).map fun s =>
    ⟨s, s.text source⟩

example : (logicalLines "x = 1\ncall f(a, & ! b\n\n & b)\ny = 2".toList).map (·.span)
    = [⟨0, 5⟩, ⟨6, 28⟩, ⟨29, 34⟩] := by decide +kernel

end FreeForm
