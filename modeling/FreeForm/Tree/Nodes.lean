import FreeForm.Tree

/-!
# The nodes of a tree

`Tree.nodes` lists the nodes of a tree, the root first.  What holds of every node is proved by
`Tree.mem_nodes_iff`: a node is the root or a node of a child.
-/

namespace FreeForm

namespace Tree

/-- The nodes of a tree, each before its children. -/
def nodes (t : Tree) : List Tree := t :: t.descendants

mutual

/-- The nodes listed do not depend on the depth given to the root. -/
theorem map_snd_preorderFrom (d e : Nat) :
    ∀ t : Tree, (preorderFrom d t).map Prod.snd = (preorderFrom e t).map Prod.snd
  | ⟨r, s, ts⟩ => by
    simp only [preorderFrom, List.map_cons, map_snd_preorderForest (d + 1) (e + 1) ts]

theorem map_snd_preorderForest (d e : Nat) : ∀ ts : List Tree,
    (preorderForest d ts).map Prod.snd = (preorderForest e ts).map Prod.snd
  | [] => rfl
  | t :: ts => by
    simp only [preorderForest, List.map_append, map_snd_preorderFrom d e t,
      map_snd_preorderForest d e ts]

end

theorem nodes_eq_preorder (t : Tree) : t.nodes = t.preorder.map Prod.snd := by
  cases t with
  | mk r s ts => simp [nodes, descendants, preorder, preorderFrom]

theorem map_snd_preorderForest_eq (d : Nat) (ts : List Tree) :
    (preorderForest d ts).map Prod.snd = ts.flatMap nodes := by
  induction ts with
  | nil => rfl
  | cons t ts ih =>
    rw [preorderForest, List.map_append, ih, List.flatMap_cons, nodes_eq_preorder, preorder,
      map_snd_preorderFrom d 0]

/-- The nodes below the root are the nodes of its children, from left to right. -/
theorem descendants_eq_flatMap (t : Tree) : t.descendants = t.children.flatMap nodes :=
  map_snd_preorderForest_eq 1 t.children

theorem self_mem_nodes (t : Tree) : t ∈ t.nodes := List.mem_cons_self

/-- A node is the root or a node of a child. -/
theorem mem_nodes_iff {t n : Tree} : n ∈ t.nodes ↔ n = t ∨ ∃ u ∈ t.children, n ∈ u.nodes := by
  rw [nodes, List.mem_cons, descendants_eq_flatMap, List.mem_flatMap]

theorem mem_nodes_of_child {t u : Tree} (h : u ∈ t.children) : u ∈ t.nodes :=
  mem_nodes_iff.mpr (.inr ⟨u, h, u.self_mem_nodes⟩)

/-- What passes from the children of every tree to the tree holds of every tree. -/
theorem induction_on_children {P : Tree → Prop} (h : ∀ t, (∀ u ∈ t.children, P u) → P t) :
    ∀ t, P t
  | ⟨r, s, ts⟩ => h ⟨r, s, ts⟩ fun u hu =>
    have := List.sizeOf_lt_of_mem hu
    induction_on_children h u
termination_by t => sizeOf t
decreasing_by simp only [mk.sizeOf_spec]; simp only at hu this; omega

/-- A node of a node is a node. -/
theorem mem_nodes_trans {t n m : Tree} (hn : n ∈ t.nodes) (hm : m ∈ n.nodes) : m ∈ t.nodes := by
  induction t using induction_on_children with
  | h t ih =>
    rcases mem_nodes_iff.mp hn with rfl | ⟨u, hu, hn⟩
    · exact hm
    · exact mem_nodes_iff.mpr (.inr ⟨u, hu, ih u hu hn⟩)

/-- What holds of every node of a tree holds of every node of a child. -/
theorem forall_nodes_of_child {P : Tree → Prop} {t u : Tree} (h : ∀ n ∈ t.nodes, P n)
    (hu : u ∈ t.children) : ∀ n ∈ u.nodes, P n :=
  fun _ hn => h _ (mem_nodes_iff.mpr (.inr ⟨u, hu, hn⟩))

/-- What passes from all the nodes below every tree to the tree holds of every tree. -/
theorem induction_on_nodes {P : Tree → Prop}
    (h : ∀ t, (∀ u ∈ t.children, ∀ n ∈ u.nodes, P n) → P t) (t : Tree) : P t := by
  have hnodes : ∀ t : Tree, ∀ n ∈ t.nodes, P n := by
    intro t
    induction t using induction_on_children with
    | h t ih =>
      intro n hn
      rcases mem_nodes_iff.mp hn with rfl | ⟨u, hu, hn⟩
      · exact h _ ih
      · exact ih u hu n hn
  exact hnodes t t t.self_mem_nodes

end Tree

end FreeForm
