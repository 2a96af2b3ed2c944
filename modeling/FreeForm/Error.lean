import FreeForm.Rule
import FreeForm.Span

/-!
# Errors

An error is a fault, the source in which it arose, and the span it points at.  What a reader of the
error is told (message, code, advice, label) depends on the fault alone.
-/

namespace FreeForm

/-- A text with the name under which errors refer to it. -/
structure Source where
  name : String
  content : Text
deriving DecidableEq, Repr, Inhabited

/-- What can go wrong. -/
inductive Fault where
  /-- The start rule did not match; `furthest` is the furthest offset at which a rule failed. -/
  | mismatch (rule : Rule) (furthest : Nat) (expected : List Rule)
  /-- The match left something behind, although it had to be complete. -/
  | incomplete (rule : Rule) (consumed total : Nat)
  /-- Parentheses nest more deeply than the options allow. -/
  | nestingTooDeep (depth limit : Nat)
  /-- No rule has this name. -/
  | unknownRule (name : Text)
  /-- The text of a literal is not one of its type. -/
  | invalidLiteral (type : String) (value : Text)
  /-- A tree does not have the shape that its rule gives it. -/
  | malformedTree (rule : Rule) (expected : String)
deriving DecidableEq, Repr

/-- The stages at which faults arise. -/
inductive FaultCategory where
  /-- The text does not fit the grammar. -/
  | grammar
  /-- The caller asked for something that does not exist. -/
  | lookup
  /-- A tree could not be turned into typed syntax. -/
  | lowering
deriving DecidableEq, Repr

namespace Fault

def category : Fault → FaultCategory
  | mismatch .. | incomplete .. | nestingTooDeep .. => .grammar
  | unknownRule .. => .lookup
  | invalidLiteral .. | malformedTree .. => .lowering

/-- The name of the kind of fault. -/
def kind : Fault → String
  | mismatch .. => "mismatch"
  | incomplete .. => "incomplete"
  | nestingTooDeep .. => "nesting_too_deep"
  | unknownRule .. => "unknown_rule"
  | invalidLiteral .. => "invalid_literal"
  | malformedTree .. => "malformed_tree"

/-- The code by which a fault is looked up. -/
def code (f : Fault) : String :=
  let stage := match f.category with
    | .grammar => "parse"
    | .lookup => "lookup"
    | .lowering => "lower"
  "fortran::" ++ stage ++ "::" ++ f.kind

def message : Fault → String
  | mismatch rule furthest expected =>
    let names := expected.map Rule.toString
    s!"no {rule} here: gave up at offset {furthest}"
      ++ if names.isEmpty then "" else ", expected " ++ " | ".intercalate names
  | incomplete rule consumed total => s!"{rule} matched {consumed} of {total} bytes"
  | nestingTooDeep depth limit => s!"parentheses nested {depth} deep, limit is {limit}"
  | unknownRule name => "unknown rule `" ++ String.ofList name ++ "`"
  | invalidLiteral type value => s!"invalid {type} literal '" ++ String.ofList value ++ "'"
  | malformedTree rule expected => s!"cannot lower {rule}: expected {expected}"

/-- Advice, for the faults that a caller can do something about. -/
def help? : Fault → Option String
  | incomplete .. =>
    some "only a prefix matched; parse a shorter fragment or pick another start rule"
  | nestingTooDeep .. => some "raise ParseOptions::max_nesting if this input is trusted"
  | unknownRule .. => some "rule names are kebab-case, e.g. `subroutine-call`"
  | _ => none

/-- What is said about the span an error points at. -/
def label : Fault → String
  | mismatch .. => "parsing stopped here"
  | incomplete .. => "not consumed"
  | nestingTooDeep .. => "nesting limit exceeded"
  | unknownRule .. => "unknown rule"
  | invalidLiteral .. => "invalid literal"
  | malformedTree .. => "unexpected shape"

end Fault

/-- A fault, where it arose, and the span it concerns. -/
structure ParseError where
  fault : Fault
  source : Source
  span : Span
deriving DecidableEq, Repr

namespace ParseError

/-- The error about a tree that lacks the shape described. -/
def malformedTree (source : Source) (r : Rule) (expected : String) (s : Span) : ParseError :=
  ⟨.malformedTree r expected, source, s⟩

end ParseError

/-- The rule with the given name, or an error that repeats the name as it was given. -/
def Rule.ofName (s : Text) : Except ParseError Rule :=
  match Rule.ofName? s with
  | some r => .ok r
  | none => .error ⟨.unknownRule s, ⟨"rule name", s⟩, ⟨0, 0⟩⟩

end FreeForm
