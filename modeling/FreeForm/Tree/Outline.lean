import FreeForm.Text.Quoted
import FreeForm.Tree

/-!
# Outlines

An outline shows a tree with one line for each node: two blanks for each level, the name of the
rule, a blank, the quoted text of the node.  The lines of the children follow the line of their
parent, one level deeper, so the lines are in pre-order (`outline_eq_flatMap`).
-/

namespace FreeForm

namespace Tree

/-- The line of a node at depth `d`. -/
def outlineLine (source : Text) (d : Nat) (t : Tree) : Text :=
  List.replicate (2 * d) ' ' ++ t.rule.toString.toList ++ ' ' :: (t.text source).quoted ++ ['\n']

mutual

/-- The lines of a tree whose root is at depth `d`. -/
def outlineFrom (source : Text) (d : Nat) : Tree → Text
  | ⟨r, s, ts⟩ => outlineLine source d ⟨r, s, ts⟩ ++ outlineForest source (d + 1) ts

/-- The same for neighbouring trees. -/
def outlineForest (source : Text) (d : Nat) : List Tree → Text
  | [] => []
  | t :: ts => outlineFrom source d t ++ outlineForest source d ts

end

/-- The outline of a tree. -/
def outline (source : Text) (t : Tree) : Text := outlineFrom source 0 t

mutual

theorem outlineFrom_eq_flatMap (source : Text) (d : Nat) : ∀ t : Tree,
    outlineFrom source d t = (preorderFrom d t).flatMap fun x => outlineLine source x.1 x.2
  | ⟨r, s, ts⟩ => by
    rw [outlineFrom, preorderFrom, List.flatMap_cons, outlineForest_eq_flatMap source (d + 1) ts]

theorem outlineForest_eq_flatMap (source : Text) (d : Nat) : ∀ ts : List Tree,
    outlineForest source d ts = (preorderForest d ts).flatMap fun x => outlineLine source x.1 x.2
  | [] => by rw [outlineForest, preorderForest, List.flatMap_nil]
  | t :: ts => by
    rw [outlineForest, preorderForest, List.flatMap_append, outlineFrom_eq_flatMap source d t,
      outlineForest_eq_flatMap source d ts]

end

/-- An outline has the lines of the nodes in pre-order. -/
theorem outline_eq_flatMap (source : Text) (t : Tree) :
    t.outline source = t.preorder.flatMap fun x => outlineLine source x.1 x.2 :=
  outlineFrom_eq_flatMap source 0 t

example : outline "(".toList ⟨.name, ⟨0, 1⟩, [⟨.digits, ⟨0, 0⟩, []⟩]⟩
    = "name \"(\"\n  digits \"\"\n".toList := by decide +kernel

end Tree

end FreeForm
