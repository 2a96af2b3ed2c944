import FreeForm.Grammar
import FreeForm.Tree

/-!
# Reading a text by the grammar

`Rule.read` tries a rule at a place in a text.  The result is a `Reading`: the trees that were
found and the place where they end, or nothing, and in either case a record of every call of a
rule on the way, those of abandoned alternatives included.

A node ends where its last lexeme ends, although reading may have passed noise behind it in search
of an optional part: `Cursor.stop` keeps the end of the last lexeme apart from the place reached.

The depth of calls is bounded by `Rule.depthBound`.  No run needs more, because calls nest at most
eight deep between two characters.
-/

namespace FreeForm

/-- A place in a text: what is left of it, the offset there, and the end of the last lexeme. -/
structure Cursor where
  rest : Text
  pos : Nat
  stop : Nat
deriving DecidableEq, Repr

namespace Cursor

/-- Before a text whose first character has the given offset. -/
def start (s : Text) (pos : Nat) : Cursor := ⟨s, pos, pos⟩

/-- Passes one lexeme. -/
def token? (c : Cursor) (p : Pattern) : Option Cursor :=
  (p.split? c.rest).map fun x => ⟨x.2, c.pos + x.1.size, c.pos + x.1.size⟩

/-- Passes the noise between two parts. -/
def skipGap (c : Cursor) : Cursor :=
  match Pattern.gap.split? c.rest with
  | none => c
  | some x => ⟨x.2, c.pos + x.1.size, c.stop⟩

end Cursor

/-- A call of a rule during a run: where it began, the place it reached if it matched, and the
calls it made. -/
inductive Call where
  | mk (rule : Rule) (start : Nat) (reached : Option Nat) (inner : List Call)
deriving Repr, Inhabited

/-- The result of reading: trees and the place behind them, or nothing; and the calls made. -/
structure Reading where
  found : Option (List Tree × Cursor)
  calls : List Call

namespace Reading

/-- Nothing found. -/
def fail : Reading := ⟨none, []⟩

/-- No trees, at the place given. -/
def empty (c : Cursor) : Reading := ⟨some ([], c), []⟩

/-- One lexeme, which leaves no tree. -/
def ofToken (p : Pattern) (c : Cursor) : Reading := ⟨(c.token? p).map fun d => ([], d), []⟩

/-- Goes on where a reading ended. -/
def andThen (r : Reading) (next : Cursor → Reading) : Reading :=
  match r.found with
  | none => r
  | some (ts, c) =>
    let q := next c
    ⟨q.found.map fun x => (ts ++ x.1, x.2), r.calls ++ q.calls⟩

/-- Falls back on another reading where nothing was found. -/
def orElse (r : Reading) (other : Unit → Reading) : Reading :=
  match r.found with
  | some _ => r
  | none =>
    let q := other ()
    ⟨q.found, r.calls ++ q.calls⟩

/-- Makes the trees found the children of one tree, and the calls made the inner calls of one. -/
def close (r : Reading) (rule : Rule) (start : Nat) : Reading :=
  ⟨r.found.map fun x => ([⟨rule, ⟨start, x.2.stop⟩, x.1⟩], x.2),
    [.mk rule start (r.found.map fun x => x.2.pos) r.calls]⟩

end Reading

namespace Phrase

/-- Repeats `step` while it applies, at most `n` times. -/
def readRounds (step : Cursor → Reading) : Nat → Cursor → Reading
  | 0, c => .empty c
  | n + 1, c => ((step c).andThen (readRounds step n)).orElse fun _ => .empty c

/-- Reads a phrase.  Calls are answered by `call`, and `skip` passes what may stand between two
parts.  After a first part noise stays passed even if the second part is an option that matches
nothing; a round of a repetition that fails gives back the noise before it. -/
def read (call : Rule → Cursor → Reading) (skip : Cursor → Cursor) : Phrase → Cursor → Reading
  | token p, c => .ofToken p c
  | .call r, c => call r c
  | seq a b, c => (a.read call skip c).andThen fun d => b.read call skip (skip d)
  | alt a b, c => (a.read call skip c).orElse fun _ => b.read call skip c
  | opt a, c => (a.read call skip c).orElse fun _ => .empty c
  | many a, c =>
    ((a.read call skip c).andThen
      (readRounds (fun d => a.read call skip (skip d)) c.rest.length)).orElse fun _ => .empty c

end Phrase

namespace Production

/-- Reads the right-hand side of a rule. -/
def read (call : Rule → Cursor → Reading) : Production → Cursor → Reading
  | lexeme p, c => .ofToken p c
  | compact a, c => a.read call id c
  | spaced a, c => a.read call Cursor.skipGap c

end Production

namespace Rule

/-- Reads a rule with calls nested at most `n` deep. -/
def readWithin : Nat → Rule → Cursor → Reading
  | 0, _, _ => .fail
  | n + 1, r, c => (r.production.read (readWithin n) c).close r c.pos

/-- At least the depth to which calls nest in a text. -/
def depthBound (s : Text) : Nat := 8 * s.length + 8

/-- Reads a rule at the front of the text at a cursor. -/
def read (r : Rule) (c : Cursor) : Reading := readWithin (depthBound c.rest) r c

end Rule

end FreeForm
