import FreeForm.Rule
import FreeForm.Span

/-!
# Syntax trees

A tree records which rule matched which span, and the matches inside it from left to right.  It
holds no text: the text of a node is the part of the source that its span covers.

`preorder` lists the nodes with their depths; `descendants` leaves out the root.  The searches
(`child?`, `childrenNamed`, `find?`, `findAll`) all go by this order.
-/

namespace FreeForm

/-- One application of a rule. -/
structure Tree where
  rule : Rule
  span : Span
  children : List Tree
deriving Repr, Inhabited

namespace Tree

mutual

/-- Trees are equal if rule, span and children are. -/
def decEq : (t u : Tree) → Decidable (t = u)
  | ⟨r, s, ts⟩, ⟨q, p, us⟩ =>
    if h : r = q ∧ s = p then
      match decEqList ts us with
      | isTrue e => isTrue (by rw [h.1, h.2, e])
      | isFalse e => isFalse (by simp [e])
    else isFalse (by simp only [mk.injEq]; grind)

/-- The same for lists of trees. -/
def decEqList : (ts us : List Tree) → Decidable (ts = us)
  | [], [] => isTrue rfl
  | [], _ :: _ => isFalse (by simp)
  | _ :: _, [] => isFalse (by simp)
  | t :: ts, u :: us =>
    match decEq t u, decEqList ts us with
    | isTrue h, isTrue k => isTrue (by rw [h, k])
    | isFalse h, _ => isFalse (by simp [h])
    | _, isFalse k => isFalse (by simp [k])

end

instance : DecidableEq Tree := decEq

/-- The part of the source that a tree covers. -/
def text (source : Text) (t : Tree) : Text := t.span.text source

/-! ## The nodes in order -/

mutual

/-- The nodes of a tree whose root is at depth `d`, each before its children. -/
def preorderFrom (d : Nat) : Tree → List (Nat × Tree)
  | ⟨r, s, ts⟩ => (d, ⟨r, s, ts⟩) :: preorderForest (d + 1) ts

/-- The same for neighbouring trees. -/
def preorderForest (d : Nat) : List Tree → List (Nat × Tree)
  | [] => []
  | t :: ts => preorderFrom d t ++ preorderForest d ts

end

/-- The nodes with their depths, the root at depth 0, each node before its children. -/
def preorder (t : Tree) : List (Nat × Tree) := preorderFrom 0 t

/-- The nodes below the root, in the same order. -/
def descendants (t : Tree) : List Tree := (preorderForest 1 t.children).map Prod.snd

/-! ## Searches -/

/-- The first child that a rule left. -/
def child? (t : Tree) (r : Rule) : Option Tree := t.children.find? (·.rule = r)

/-- The children that a rule left. -/
def childrenNamed (t : Tree) (r : Rule) : List Tree := t.children.filter (·.rule = r)

mutual

/-- The first node below the root that a rule left. -/
def find? (r : Rule) : Tree → Option Tree
  | ⟨_, _, ts⟩ => findForest? r ts

/-- The first node that a rule left in neighbouring trees, their roots included. -/
def findForest? (r : Rule) : List Tree → Option Tree
  | [] => none
  | t :: ts => if t.rule = r then some t else (find? r t).or (findForest? r ts)

end

mutual

/-- Every node below the root that a rule left. -/
def findAll (r : Rule) : Tree → List Tree
  | ⟨_, _, ts⟩ => findAllForest r ts

/-- Every node that a rule left in neighbouring trees, their roots included. -/
def findAllForest (r : Rule) : List Tree → List Tree
  | [] => []
  | t :: ts => (if t.rule = r then [t] else []) ++ findAll r t ++ findAllForest r ts

end

mutual

/-- The number of levels; a leaf has one. -/
def depth : Tree → Nat
  | ⟨_, _, ts⟩ => 1 + forestDepth ts

/-- The number of levels of the deepest of some trees. -/
def forestDepth : List Tree → Nat
  | [] => 0
  | t :: ts => max (depth t) (forestDepth ts)

end

end Tree

end FreeForm
