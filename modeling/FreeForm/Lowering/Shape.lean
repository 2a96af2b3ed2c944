import FreeForm.Error
import FreeForm.Tree

/-!
# Demands on the shape of a tree

Lowering turns a tree into typed syntax.  The grammar fixes the shape of every tree it makes, so a
demand that is stated here fails only for a tree put together in another way.
-/

namespace FreeForm

/-- The outcome of lowering a tree. -/
abbrev Lowered := Except ParseError

namespace Tree

/-- The error that a tree is not what was expected. -/
def unexpected (source : Source) (t : Tree) (expected : String) : ParseError :=
  .malformedTree source t.rule expected t.span

/-- The error that the text of a tree is no literal of a type. -/
def invalidLiteral (source : Source) (t : Tree) (type : String) : ParseError :=
  ⟨.invalidLiteral type (t.text source.content), source, t.span⟩

/-- Demands that a tree belongs to a rule. -/
def expect (source : Source) (t : Tree) (r : Rule) : Lowered Unit :=
  if t.rule = r then .ok () else .error (t.unexpected source r.toString)

/-- The first child of a rule, on demand. -/
def required (source : Source) (t : Tree) (r : Rule) : Lowered Tree :=
  match t.child? r with
  | some u => .ok u
  | none => .error (t.unexpected source r.toString)

/-- The first child, on demand. -/
def firstChild (source : Source) (t : Tree) (expected : String) : Lowered Tree :=
  match t.children with
  | u :: _ => .ok u
  | [] => .error (t.unexpected source expected)

/-- Lowers the first child of a rule, if there is one. -/
def optional {α : Type} (t : Tree) (r : Rule) (lower : Tree → Lowered α) : Lowered (Option α) :=
  match t.child? r with
  | some u => (lower u).map some
  | none => .ok none

theorem expect_eq_ok_iff {source : Source} {t : Tree} {r : Rule} :
    t.expect source r = .ok () ↔ t.rule = r := by
  unfold expect
  split <;> simp_all

end Tree

end FreeForm
