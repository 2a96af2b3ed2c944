import FreeForm.Tree.Nodes
import Mathlib.Data.List.Basic

/-!
# The order of searches

A place in a tree is given by the numbers of the children on the way from the root.  Places are
compared like words in a dictionary: a node stands before the nodes below it, and these stand before
all that is further to the right.

The nodes below the root, each place once and in this order, are what all the searches go by
(`searches_agree`).  `findAll` keeps the nodes of a rule.  `find?` ends at the first of them and
does not make the list.  `childrenNamed` keeps those of them that stand one level below the root,
and `depth` is one more than the largest depth.
-/

namespace FreeForm

namespace Tree

/-! ## Places -/

/-- The node to which the way along the children with these numbers leads. -/
def at? (t : Tree) : List Nat → Option Tree
  | [] => some t
  | i :: p => t.children[i]?.bind fun u => u.at? p

@[simp] theorem at?_nil (t : Tree) : t.at? [] = some t := rfl

theorem at?_cons_eq_some {t n : Tree} {i : Nat} {p : List Nat} :
    t.at? (i :: p) = some n ↔ ∃ u, t.children[i]? = some u ∧ u.at? p = some n :=
  Option.bind_eq_some_iff

/-- The nodes below the root with their places, each place once, in the order of the places. -/
structure ListsBelow (t : Tree) (vs : List (List Nat × Tree)) : Prop where
  mem_iff : ∀ p n, (p, n) ∈ vs ↔ p ≠ [] ∧ t.at? p = some n
  ordered : vs.Pairwise fun v w => v.1 < w.1

mutual

/-- The nodes of a tree with their places. -/
def placed : Tree → List (List Nat × Tree)
  | ⟨r, s, ts⟩ => ([], ⟨r, s, ts⟩) :: placedForest 0 ts

/-- The same for neighbouring children, the first of which has the number `i`. -/
def placedForest (i : Nat) : List Tree → List (List Nat × Tree)
  | [] => []
  | t :: ts => (placed t).map (fun v => (i :: v.1, v.2)) ++ placedForest (i + 1) ts

end

/-- The nodes below the root with their places. -/
def placedBelow (t : Tree) : List (List Nat × Tree) := placedForest 0 t.children

theorem placed_eq (t : Tree) : t.placed = ([], t) :: t.placedBelow := by
  obtain ⟨r, s, ts⟩ := t
  rw [placed, placedBelow]

theorem mem_placedForest_iff {i : Nat} {ts : List Tree} {p : List Nat} {n : Tree} :
    (p, n) ∈ placedForest i ts ↔
      ∃ j u q, ts[j]? = some u ∧ p = (i + j) :: q ∧ (q, n) ∈ u.placed := by
  induction ts generalizing i with
  | nil => simp [placedForest]
  | cons t ts ih =>
    rw [placedForest, List.mem_append, List.mem_map, ih]
    constructor
    · rintro (⟨⟨q, m⟩, hq, heq⟩ | ⟨j, u, q, hu, rfl, hq⟩)
      · obtain ⟨rfl, rfl⟩ := Prod.mk.inj heq
        exact ⟨0, t, q, rfl, rfl, hq⟩
      · exact ⟨j + 1, u, q, hu, by rw [Nat.add_assoc, Nat.add_comm 1], hq⟩
    · rintro ⟨j, u, q, hu, rfl, hq⟩
      cases j with
      | zero =>
        obtain rfl : t = u := Option.some.inj hu
        exact .inl ⟨(q, n), hq, rfl⟩
      | succ j => exact .inr ⟨j, u, q, hu, by rw [Nat.add_assoc, Nat.add_comm 1], hq⟩

theorem mem_placed_iff {t n : Tree} {p : List Nat} :
    (p, n) ∈ t.placed ↔ t.at? p = some n := by
  induction t using induction_on_children generalizing p with
  | h t ih =>
    rw [placed_eq, List.mem_cons, placedBelow, mem_placedForest_iff]
    cases p with
    | nil => simp [eq_comm]
    | cons i p =>
      rw [at?_cons_eq_some]
      constructor
      · rintro (h | ⟨j, u, q, hu, hp, hq⟩)
        · simp at h
        · obtain ⟨rfl, rfl⟩ := List.cons.inj hp
          rw [Nat.zero_add]
          exact ⟨u, hu, (ih u (List.mem_of_getElem? hu)).mp hq⟩
      · rintro ⟨u, hu, hn⟩
        have hq := (ih u (List.mem_of_getElem? hu)).mpr hn
        exact .inr ⟨i, u, p, hu, by rw [Nat.zero_add], hq⟩

theorem ne_nil_of_mem_placedForest {i : Nat} {ts : List Tree} {v : List Nat × Tree}
    (h : v ∈ placedForest i ts) : v.1 ≠ [] := by
  obtain ⟨j, u, q, -, hp, -⟩ := mem_placedForest_iff.mp h
  rw [hp]
  exact List.cons_ne_nil _ _

mutual

/-- The places of a tree are listed in their order. -/
theorem pairwise_placed : ∀ t : Tree, t.placed.Pairwise fun v w => v.1 < w.1
  | ⟨r, s, ts⟩ => by
    rw [placed, List.pairwise_cons]
    refine ⟨fun v hv => ?_, pairwise_placedForest 0 ts⟩
    obtain ⟨i, p, hp⟩ := List.exists_cons_of_ne_nil (ne_nil_of_mem_placedForest hv)
    rw [hp]
    exact List.nil_lt_cons i p

theorem pairwise_placedForest (i : Nat) : ∀ ts : List Tree,
    (placedForest i ts).Pairwise fun v w => v.1 < w.1
  | [] => by
    rw [placedForest]
    exact .nil
  | t :: ts => by
    rw [placedForest, List.pairwise_append, List.pairwise_map]
    refine ⟨(pairwise_placed t).imp List.cons_lt_cons_self.mpr,
      pairwise_placedForest (i + 1) ts, ?_⟩
    intro v hv w hw
    obtain ⟨x, -, rfl⟩ := List.mem_map.mp hv
    obtain ⟨j, u, q, -, hp, -⟩ := mem_placedForest_iff.mp hw
    rw [hp]
    exact List.cons_lt_cons_iff.mpr (.inl (by omega))

end

theorem listsBelow_placedBelow (t : Tree) : t.ListsBelow t.placedBelow where
  mem_iff p n := by
    rw [← mem_placed_iff, placed_eq, List.mem_cons]
    constructor
    · intro h
      exact ⟨ne_nil_of_mem_placedForest h, .inr h⟩
    · rintro ⟨hp, h | h⟩
      · exact absurd (congrArg Prod.fst h) hp
      · exact h
  ordered := pairwise_placedForest 0 t.children

/-! ## The flat tree -/

mutual

/-- The depth of a node is the length of its place. -/
theorem preorderFrom_eq_map (d : Nat) : ∀ t : Tree,
    preorderFrom d t = t.placed.map fun v => (d + v.1.length, v.2)
  | ⟨r, s, ts⟩ => by
    rw [preorderFrom, placed, List.map_cons, preorderForest_eq_map d 0 ts]
    rfl

theorem preorderForest_eq_map (d i : Nat) : ∀ ts : List Tree,
    preorderForest (d + 1) ts = (placedForest i ts).map fun v => (d + v.1.length, v.2)
  | [] => by rw [preorderForest, placedForest, List.map_nil]
  | t :: ts => by
    rw [preorderForest, placedForest, List.map_append, List.map_map,
      preorderFrom_eq_map (d + 1) t, preorderForest_eq_map d (i + 1) ts]
    congr 2
    funext v
    simp only [Function.comp_apply, List.length_cons, Prod.mk.injEq, and_true]
    omega

end

theorem preorder_eq_map (t : Tree) :
    t.preorder = (0, t) :: t.placedBelow.map fun v => (v.1.length, v.2) := by
  rw [preorder, preorderFrom_eq_map, placed_eq, List.map_cons]
  simp only [Nat.zero_add, List.length_nil]

theorem descendants_eq_map (t : Tree) : t.descendants = t.placedBelow.map Prod.snd := by
  rw [descendants, preorderForest_eq_map 0 0, List.map_map]
  rfl

/-! ## Searches -/

mutual

/-- A full search finds the nodes below the root that are of the rule. -/
theorem findAll_eq_filter (r : Rule) : ∀ t : Tree,
    t.findAll r = t.descendants.filter (·.rule = r)
  | ⟨q, s, ts⟩ => by
    rw [findAll, descendants_eq_flatMap]
    exact findAllForest_eq_filter r ts

theorem findAllForest_eq_filter (r : Rule) : ∀ ts : List Tree,
    findAllForest r ts = (ts.flatMap nodes).filter (·.rule = r)
  | [] => by rw [findAllForest, List.flatMap_nil, List.filter_nil]
  | t :: ts => by
    rw [findAllForest, findAll_eq_filter r t, findAllForest_eq_filter r ts, List.flatMap_cons,
      List.filter_append, nodes, List.filter_cons]
    by_cases h : t.rule = r
    · simp [h]
    · simp [h]

end

mutual

/-- A search that stops early ends at the first node that a full search finds. -/
theorem find?_eq_head? (r : Rule) : ∀ t : Tree, t.find? r = (t.findAll r).head?
  | ⟨q, s, ts⟩ => by
    rw [find?, findAll]
    exact findForest?_eq_head? r ts

theorem findForest?_eq_head? (r : Rule) : ∀ ts : List Tree,
    findForest? r ts = (findAllForest r ts).head?
  | [] => by rw [findForest?, findAllForest, List.head?_nil]
  | t :: ts => by
    rw [findForest?, findAllForest, find?_eq_head? r t, findForest?_eq_head? r ts,
      List.append_assoc, List.head?_append, List.head?_append]
    by_cases h : t.rule = r
    · simp [h]
    · simp [h]

end

/-- The nodes one level below the root are the children. -/
theorem filter_placedForest (i : Nat) (ts : List Tree) :
    ((placedForest i ts).filter (·.1.length = 1)).map Prod.snd = ts := by
  induction ts generalizing i with
  | nil => rw [placedForest, List.filter_nil, List.map_nil]
  | cons t ts ih =>
    have hdeeper : ∀ v ∈ t.placedBelow, ¬(i :: v.1).length = 1 := by
      intro v hv hlength
      exact ne_nil_of_mem_placedForest hv (List.length_eq_zero_iff.mp (Nat.succ.inj hlength))
    rw [placedForest, List.filter_append, List.map_append, ih, placed_eq, List.map_cons,
      List.filter_cons_of_pos (by simp), List.filter_map, List.filter_eq_nil_iff.mpr]
    · rfl
    · intro v hv
      simpa using hdeeper v hv

theorem childrenNamed_eq_filter (t : Tree) (r : Rule) : t.childrenNamed r =
    ((t.placedBelow.filter (·.2.rule = r)).filter (·.1.length = 1)).map Prod.snd := by
  rw [List.filter_comm, childrenNamed]
  conv_lhs => rw [← filter_placedForest 0 t.children, List.filter_map]
  rfl

/-! ## Depth -/

theorem forestDepth_eq_max? (ts : List Tree) : forestDepth ts = (ts.map depth).max?.getD 0 := by
  induction ts with
  | nil => rfl
  | cons t ts ih =>
    rw [forestDepth, ih, List.map_cons, List.max?_cons]
    cases (ts.map depth).max? with
    | none => exact Nat.max_zero _
    | some m => rfl

theorem depth_eq_max? (t : Tree) : t.depth = (t.children.map depth).max?.getD 0 + 1 := by
  obtain ⟨r, s, ts⟩ := t
  rw [depth, forestDepth_eq_max?, Nat.add_comm]

theorem length_lt_depth {t n : Tree} {p : List Nat} (h : t.at? p = some n) :
    p.length < t.depth := by
  induction p generalizing t with
  | nil =>
    rw [depth_eq_max?]
    exact Nat.succ_pos _
  | cons i p ih =>
    obtain ⟨u, hu, hn⟩ := at?_cons_eq_some.mp h
    have hlt := ih hn
    have hle := List.le_max?_getD_of_mem (k := 0)
      (List.mem_map_of_mem (f := depth) (List.mem_of_getElem? hu))
    rw [depth_eq_max?, List.length_cons]
    omega

theorem exists_at?_of_depth (t : Tree) : ∃ p n, t.at? p = some n ∧ p.length + 1 = t.depth := by
  induction t using induction_on_children with
  | h t ih =>
    rw [depth_eq_max?]
    cases hmax : (t.children.map depth).max? with
    | none => exact ⟨[], t, rfl, rfl⟩
    | some m =>
      obtain ⟨u, hu, rfl⟩ := List.mem_map.mp (List.max?_mem hmax)
      obtain ⟨i, hi⟩ := List.mem_iff_getElem?.mp hu
      obtain ⟨p, n, hp, hlength⟩ := ih u hu
      exact ⟨i :: p, n, at?_cons_eq_some.mpr ⟨u, hi, hp⟩, congrArg Nat.succ hlength⟩

/-- The number of levels is one more than the length of the longest place. -/
theorem ListsBelow.depth_eq {t : Tree} {vs : List (List Nat × Tree)} (h : t.ListsBelow vs) :
    t.depth = (vs.map fun v => v.1.length).max?.getD 0 + 1 := by
  apply Nat.le_antisymm
  · obtain ⟨p, n, hn, hlength⟩ := t.exists_at?_of_depth
    rw [← hlength]
    apply Nat.succ_le_succ
    by_cases hp : p = []
    · rw [hp]
      exact Nat.zero_le _
    · have hmem := (h.mem_iff p n).mpr ⟨hp, hn⟩
      exact List.le_max?_getD_of_mem (List.mem_map.mpr ⟨(p, n), hmem, rfl⟩)
  · cases hmax : (vs.map fun v => v.1.length).max? with
    | none => exact length_lt_depth t.at?_nil
    | some m =>
      obtain ⟨⟨p, n⟩, hmem, rfl⟩ := List.mem_map.mp (List.max?_mem hmax)
      exact length_lt_depth ((h.mem_iff p n).mp hmem).2

/-- **All searches go by one order.**  The nodes below the root are listed with every place once, in
the order of the places, and the flat tree is this list with the depths.  A full search keeps the
nodes of the rule, and a search that stops early ends at the first of them, if there is one; the
children of the rule are those of them that stand one level below the root.  The number of levels is
one more than the largest depth below the root, which counts as 0 if nothing is there. -/
theorem searches_agree (t : Tree) : ∃ vs, t.ListsBelow vs ∧
    t.preorder = (0, t) :: vs.map (fun v => (v.1.length, v.2)) ∧
    t.depth = (t.preorder.tail.map Prod.fst).max?.getD 0 + 1 ∧
    ∀ r, t.findAll r = (vs.filter (·.2.rule = r)).map Prod.snd ∧
      t.find? r = (t.findAll r).head? ∧ (t.find? r = none ↔ t.findAll r = []) ∧
      t.childrenNamed r =
        ((vs.filter (·.2.rule = r)).filter (·.1.length = 1)).map Prod.snd ∧
      t.child? r = (t.childrenNamed r).head? := by
  have hlists := t.listsBelow_placedBelow
  have hrows := t.preorder_eq_map
  refine ⟨t.placedBelow, hlists, hrows, ?_, fun r => ⟨?_, ?_, ?_, ?_, ?_⟩⟩
  · rw [hrows, List.tail_cons, List.map_map]
    exact hlists.depth_eq
  · rw [findAll_eq_filter, descendants_eq_map, List.filter_map]
    rfl
  · exact find?_eq_head? r t
  · rw [find?_eq_head?, List.head?_eq_none_iff]
  · exact t.childrenNamed_eq_filter r
  · rw [childrenNamed, List.head?_filter, child?]

/-- The first node of a rule may stand deeper than the first child of the rule, and to its left. -/
example :
    let first : Tree := ⟨.argument, ⟨2, 3⟩, []⟩
    let second : Tree := ⟨.argument, ⟨4, 5⟩, []⟩
    let t : Tree := ⟨.functionCall, ⟨0, 5⟩, [⟨.arguments, ⟨2, 3⟩, [first]⟩, second]⟩
    t.findAll .argument = [first, second] ∧ t.find? .argument = some first ∧
      t.child? .argument = some second := by decide +kernel

end Tree

end FreeForm
