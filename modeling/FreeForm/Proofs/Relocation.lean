import FreeForm.Parse
import FreeForm.Tree.Nodes
import Mathlib.Order.Monotone.Basic

/-!
# Results with other offsets

The same match may stand elsewhere: behind other text, or behind a stretch of another length.
`relocate f` gives each offset in a result the place that `f` says, and changes nothing else in it.
It is defined for trees, for the record of the calls of a run and for errors.

If `f` keeps the order of offsets, a relocated record leads to the relocated frontier
(`Frontier.afterCalls_relocate`), so the rules that a failed run expected stay the same.
-/

namespace FreeForm

/-- The span with the ends that `f` gives to its ends. -/
def Span.relocate (f : Nat → Nat) (s : Span) : Span := ⟨f s.start, f s.stop⟩

namespace Tree

mutual

/-- The tree with every offset where `f` puts it. -/
def relocate (f : Nat → Nat) : Tree → Tree
  | ⟨r, s, ts⟩ => ⟨r, s.relocate f, relocateForest f ts⟩

/-- The same for neighbouring trees. -/
def relocateForest (f : Nat → Nat) : List Tree → List Tree
  | [] => []
  | t :: ts => relocate f t :: relocateForest f ts

end

theorem relocateForest_eq_map (f : Nat → Nat) (ts : List Tree) :
    relocateForest f ts = ts.map (relocate f) := by
  induction ts with
  | nil => rfl
  | cons t ts ih => rw [relocateForest, ih, List.map_cons]

theorem relocate_mk (f : Nat → Nat) (r : Rule) (s : Span) (ts : List Tree) :
    relocate f ⟨r, s, ts⟩ = ⟨r, s.relocate f, ts.map (relocate f)⟩ := by
  rw [relocate, relocateForest_eq_map]

@[simp] theorem rule_relocate (f : Nat → Nat) (t : Tree) : (t.relocate f).rule = t.rule := by
  cases t
  rfl

@[simp] theorem span_relocate (f : Nat → Nat) (t : Tree) :
    (t.relocate f).span = t.span.relocate f := by
  cases t
  rfl

@[simp] theorem children_relocate (f : Nat → Nat) (t : Tree) :
    (t.relocate f).children = t.children.map (relocate f) := by
  cases t
  exact relocateForest_eq_map f _

/-- The nodes of a relocated tree are the relocated nodes. -/
theorem nodes_relocate (f : Nat → Nat) (t : Tree) :
    (t.relocate f).nodes = t.nodes.map (relocate f) := by
  induction t using induction_on_children with
  | h t ih =>
    rw [nodes, nodes, descendants_eq_flatMap, descendants_eq_flatMap, children_relocate,
      List.flatMap_map, List.map_cons, List.map_flatMap]
    rw [List.flatMap_def, List.flatMap_def, List.map_congr_left ih]

theorem relocate_relocate (f g : Nat → Nat) (t : Tree) :
    (t.relocate g).relocate f = t.relocate (f ∘ g) := by
  induction t using induction_on_children with
  | h t ih =>
    obtain ⟨r, s, ts⟩ := t
    rw [relocate_mk, relocate_mk, relocate_mk, List.map_map]
    exact congrArg (Tree.mk r _) (List.map_congr_left ih)

theorem relocate_id (t : Tree) : t.relocate id = t := by
  induction t using induction_on_children with
  | h t ih =>
    obtain ⟨r, s, ts⟩ := t
    rw [relocate_mk]
    exact congrArg (Tree.mk r s) ((List.map_congr_left ih).trans (List.map_id ts))

end Tree

namespace Call

mutual

/-- The call with every offset where `f` puts it. -/
def relocate (f : Nat → Nat) : Call → Call
  | .mk r start reached inner => .mk r (f start) (reached.map f) (relocateAll f inner)

/-- The same for one call after the other. -/
def relocateAll (f : Nat → Nat) : List Call → List Call
  | [] => []
  | c :: cs => relocate f c :: relocateAll f cs

end

theorem relocateAll_eq_map (f : Nat → Nat) (cs : List Call) :
    relocateAll f cs = cs.map (relocate f) := by
  induction cs with
  | nil => rfl
  | cons c cs ih => rw [relocateAll, ih, List.map_cons]

theorem relocate_mk (f : Nat → Nat) (r : Rule) (start : Nat) (reached : Option Nat)
    (inner : List Call) :
    relocate f (.mk r start reached inner) =
      .mk r (f start) (reached.map f) (inner.map (relocate f)) := by
  rw [relocate, relocateAll_eq_map]

end Call

/-! ## Frontiers -/

namespace Frontier

/-- The frontier where `f` puts it. -/
def relocate (f : Nat → Nat) (g : Frontier) : Frontier := ⟨f g.pos, g.rules⟩

variable {f : Nat → Nat}

theorem countAt_relocate (hf : StrictMono f) (g : Frontier) (pos : Nat) :
    (g.relocate f).countAt (f pos) = g.countAt pos := by
  simp only [countAt, relocate, hf.injective.eq_iff]

theorem blame_relocate (hf : StrictMono f) (g : Frontier) (r : Rule) (pos keep : Nat) :
    (g.relocate f).blame r (f pos) keep = (g.blame r pos keep).relocate f := by
  simp only [blame, relocate, hf.lt_iff_lt, hf.injective.eq_iff]
  split_ifs <;> rfl

mutual

/-- A relocated call moves a relocated frontier as the call moves the frontier. -/
theorem afterCall_relocate (hf : StrictMono f) (g : Frontier) :
    ∀ c : Call, (g.relocate f).afterCall (c.relocate f) = (g.afterCall c).relocate f
  | .mk r start reached inner => by
    have hinner := afterCalls_relocate hf g inner
    rw [Call.relocate_mk, afterCall, afterCall, hinner]
    rw [Option.isSome_map, countAt_relocate hf, countAt_relocate hf]
    split_ifs
    · rfl
    · exact blame_relocate hf _ r start _

/-- The same for one call after the other. -/
theorem afterCalls_relocate (hf : StrictMono f) (g : Frontier) :
    ∀ cs : List Call,
      (g.relocate f).afterCalls (cs.map (Call.relocate f)) = (g.afterCalls cs).relocate f
  | [] => rfl
  | c :: cs => by
    rw [List.map_cons, afterCalls, afterCalls, afterCall_relocate hf g c]
    exact afterCalls_relocate hf (g.afterCall c) cs

end

end Frontier

/-! ## Errors -/

/-- The fault with every offset where `f` puts it.  What counts bytes or parentheses stays. -/
def Fault.relocate (f : Nat → Nat) : Fault → Fault
  | .mismatch rule furthest expected => .mismatch rule (f furthest) expected
  | fault => fault

/-- The error as it is reported for the text `s`, with every offset where `f` puts it. -/
def ParseError.relocate (f : Nat → Nat) (s : Text) (e : ParseError) : ParseError :=
  ⟨e.fault.relocate f, ⟨e.source.name, s⟩, e.span.relocate f⟩

/-- The tree or the error of a parse as it is returned for the text `s`, with every offset where `f`
puts it. -/
def relocateResult (f : Nat → Nat) (s : Text) : Except ParseError Tree → Except ParseError Tree
  | .ok t => .ok (t.relocate f)
  | .error e => .error (e.relocate f s)

theorem toOption_relocateResult (f : Nat → Nat) (s : Text) (x : Except ParseError Tree) :
    (relocateResult f s x).toOption = x.toOption.map (Tree.relocate f) := by
  cases x <;> rfl

end FreeForm
