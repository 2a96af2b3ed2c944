import FreeForm.Lowering.Literal
import FreeForm.Typed.Variable

/-!
# Lowering of access to variables
-/

namespace FreeForm

def Bound.ofTree (source : Source) (t : Tree) : Lowered Bound := do
  let u ← t.firstChild source "integer or name"
  match u.rule with
  | .integer => .integer <$> IntegerLiteral.ofTree source u
  | .name => .name <$> Identifier.ofTree source u
  | _ => .error (u.unexpected source "integer or name")

def IndexRegion.ofTree (source : Source) (t : Tree) : Lowered IndexRegion := do
  t.expect source .arrayIndexRegion
  let lower ← t.optional .lowerBound (Bound.ofTree source)
  let upper ← t.optional .upperBound (Bound.ofTree source)
  return ⟨lower, upper, t.span⟩

def ArrayIndex.ofTree (source : Source) (t : Tree) : Lowered ArrayIndex := do
  t.expect source .arrayIndex
  let u ← t.firstChild source "index"
  match u.rule with
  | .arrayIndexRegion => .region <$> IndexRegion.ofTree source u
  | .integer => .integer <$> IntegerLiteral.ofTree source u
  | .name => .name <$> Identifier.ofTree source u
  | _ => .error (u.unexpected source "region, integer or name")

def IndexedArray.ofTree (source : Source) (t : Tree) : Lowered IndexedArray := do
  t.expect source .indexedArray
  let name ← Identifier.ofTree source (← t.required source .name)
  let indices ← (t.childrenNamed .arrayIndex).mapM (ArrayIndex.ofTree source)
  return ⟨name, indices, t.span⟩

/-- An array with indices if the tree has one, and a name on demand otherwise. -/
def VariableRef.ofTree (source : Source) (t : Tree) : Lowered VariableRef :=
  match t.child? .indexedArray with
  | some u => .indexed <$> IndexedArray.ofTree source u
  | none => do
    let u ← t.required source .name
    return .plain (← Identifier.ofTree source u)

def AccessedVariable.ofTree (source : Source) (t : Tree) : Lowered AccessedVariable := do
  t.expect source .accessedVariable
  let target ← VariableRef.ofTree source t
  let sign ← t.optional .sign (Sign.ofTree source)
  return ⟨sign, target, t.span⟩

end FreeForm
