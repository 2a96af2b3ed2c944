import FreeForm.Tree

/-!
# Walks through a tree

A walk remembers the nodes it passed on the way from the root, so that it can go back.  It never
leaves the tree: going up from the root stays there, and a move without a goal is no move.
-/

namespace FreeForm

/-- A node of a tree and the nodes passed on the way to it, the latest first. -/
structure Walk where
  here : Tree
  passed : List Tree

namespace Walk

/-- Starts at the root. -/
def start (t : Tree) : Walk := ⟨t, []⟩

/-- Goes on to another node. -/
def goTo (w : Walk) (t : Tree) : Walk := ⟨t, w.here :: w.passed⟩

/-- Goes to the first child that a rule left. -/
def child? (w : Walk) (r : Rule) : Option Walk := (w.here.child? r).map w.goTo

/-- Goes to the first node below that a rule left. -/
def find? (w : Walk) (r : Rule) : Option Walk := (w.here.find? r).map w.goTo

/-- Goes to the child with the given number, counted from 0. -/
def nth? (w : Walk) (n : Nat) : Option Walk := w.here.children[n]?.map w.goTo

/-- Goes back by one move. -/
def up (w : Walk) : Walk :=
  match w.passed with
  | [] => w
  | t :: ts => ⟨t, ts⟩

@[simp] theorem up_goTo (w : Walk) (t : Tree) : (w.goTo t).up = w := rfl

end Walk

end FreeForm
