import FreeForm.Proofs.CallNesting
import FreeForm.Proofs.LoweringSteps
import Mathlib.Order.Bounds.Defs

/-!
# Lowering keeps the calls

The calls in an expression are listed in the order in which they begin, each in front of the calls in
its arguments, and so are the nodes for calls in a tree.  The expression that a tree is lowered to
has these calls and no others, with the same names, spans and numbers of arguments
(`calls_of_parse`), and they nest as deeply as on the path with the most calls.

Both lists and both depths are computed from the parts of an expression and from the children of a
tree.  In between stand wrappers, which add nothing to either of them, and trees of the other kinds
of expressions, which have no calls in them.
-/

namespace FreeForm

/-! ## Calls in expressions and in trees -/

mutual

/-- The calls in an expression, each in front of those in its arguments. -/
def Expr.calls : Expr → List FunctionCall
  | call x es s => ⟨x, es, s⟩ :: Expr.callsIn es
  | array _ | literal _ | access _ => []

/-- The calls in some expressions. -/
def Expr.callsIn : List Expr → List FunctionCall
  | [] => []
  | e :: es => Expr.calls e ++ Expr.callsIn es

end

/-- The nodes for calls in a tree: itself if it is one, and those below. -/
def Tree.callNodes (t : Tree) : List Tree :=
  (if t.rule = .functionCall then [t] else []) ++ t.findAll .functionCall

/-- The node and the call have the same name, the same span and the same number of arguments. -/
structure Tree.IsCallOf (s : Text) (n : Tree) (c : FunctionCall) : Prop where
  name : (n.child? .name).map (·.text s) = some c.name.name
  span : n.span = c.span
  arity : n.argumentNodes.length = c.arguments.length

namespace Tree

theorem findAllForest_eq_flatMap (ts : List Tree) :
    findAllForest .functionCall ts = ts.flatMap callNodes := by
  induction ts with
  | nil => rfl
  | cons t ts ih => rw [findAllForest, ih, List.flatMap_cons, callNodes]

theorem callNodes_eq (t : Tree) : t.callNodes =
    (if t.rule = .functionCall then [t] else []) ++ t.children.flatMap callNodes := by
  obtain ⟨r, s, ts⟩ := t
  rw [callNodes, findAll, findAllForest_eq_flatMap]

mutual

/-- The largest number of calls on the way from the root of a tree to a leaf. -/
def callLevel : Tree → Nat
  | ⟨r, _, ts⟩ => r.shelter + callLevelIn ts

/-- The largest of the levels of some trees. -/
def callLevelIn : List Tree → Nat
  | [] => 0
  | t :: ts => max (callLevel t) (callLevelIn ts)

end

theorem callLevel_eq (t : Tree) : t.callLevel = t.rule.shelter + callLevelIn t.children := by
  obtain ⟨r, s, ts⟩ := t
  rw [callLevel]

theorem callLevel_le_callLevelIn {t : Tree} {ts : List Tree} (h : t ∈ ts) :
    t.callLevel ≤ callLevelIn ts := by
  induction ts with
  | nil => simp at h
  | cons u ts ih =>
    rw [callLevelIn]
    rcases List.mem_cons.mp h with rfl | h
    · exact Nat.le_max_left ..
    · exact Nat.le_trans (ih h) (Nat.le_max_right ..)

theorem exists_callLevelIn_eq {ts : List Tree} (h : ts ≠ []) :
    ∃ t ∈ ts, callLevelIn ts = t.callLevel := by
  induction ts with
  | nil => exact absurd rfl h
  | cons t ts ih =>
    rw [callLevelIn]
    by_cases hts : ts = []
    · subst hts
      exact ⟨t, List.mem_cons_self, by simp [callLevelIn]⟩
    · obtain ⟨u, hu, hlevel⟩ := ih hts
      rcases Nat.le_total t.callLevel u.callLevel with hle | hle
      · exact ⟨u, List.mem_cons_of_mem t hu, by omega⟩
      · exact ⟨t, List.mem_cons_self, by omega⟩

theorem LeafPath.callsAlong_le {t : Tree} {p : List Tree} (h : t.LeafPath p) :
    callsAlong p ≤ t.callLevel := by
  induction h with
  | leaf =>
    rw [callsAlong_cons, callLevel_eq]
    exact Nat.add_le_add_left (Nat.zero_le _) _
  | step hu _ ih =>
    have hle := callLevel_le_callLevelIn hu
    rw [callsAlong_cons, callLevel_eq]
    omega

theorem exists_leafPath (t : Tree) : ∃ p, t.LeafPath p ∧ callsAlong p = t.callLevel := by
  induction t using induction_on_children with
  | h t ih =>
    by_cases hts : t.children = []
    · exact ⟨[t], .leaf hts, by rw [callsAlong_cons, callLevel_eq, hts]; rfl⟩
    · obtain ⟨u, hu, hlevel⟩ := exists_callLevelIn_eq hts
      obtain ⟨p, hp, hcalls⟩ := ih u hu
      exact ⟨t :: p, .step hu hp, by rw [callsAlong_cons, callLevel_eq, hlevel, hcalls]⟩

/-- The level of a tree is what it is said to be. -/
theorem isGreatest_callLevel (t : Tree) :
    IsGreatest {n | ∃ p, t.LeafPath p ∧ callsAlong p = n} t.callLevel := by
  refine ⟨t.exists_leafPath, ?_⟩
  rintro n ⟨p, hp, rfl⟩
  exact hp.callsAlong_le

/-! ## Trees without calls -/

/-- The nodes of a tree in a text are of rules that its own rule leads to. -/
theorem rule_mem_of_closed {rs : List Rule} {s : Text} {t : Tree}
    (hrs : ∀ r ∈ rs, ∀ q ∈ r.production.calls, q ∈ rs) (h : ∀ n ∈ t.nodes, n.GrownIn s)
    (hr : t.rule ∈ rs) : ∀ n ∈ t.nodes, n.rule ∈ rs := by
  induction t using induction_on_children with
  | h t ih =>
    intro n hn
    rcases mem_nodes_iff.mp hn with rfl | ⟨u, hu, hn⟩
    · exact hr
    · have hur := hrs _ hr _ ((h t t.self_mem_nodes).rule_mem_calls u hu)
      exact ih u hu (forall_nodes_of_child h hu) hur n hn

theorem callNodes_eq_nil {t : Tree} (h : ∀ n ∈ t.nodes, n.rule ≠ .functionCall) :
    t.callNodes = [] ∧ t.callLevel = 0 := by
  induction t using induction_on_children with
  | h t ih =>
    have hchild : ∀ u ∈ t.children, u.callNodes = [] ∧ u.callLevel = 0 :=
      fun u hu => ih u hu (forall_nodes_of_child h hu)
    have hr := h t t.self_mem_nodes
    constructor
    · rw [callNodes_eq, if_neg hr, List.nil_append]
      exact List.flatMap_eq_nil_iff.mpr fun u hu => (hchild u hu).1
    · have hlevel : callLevelIn t.children = 0 := by
        by_cases hts : t.children = []
        · rw [hts]
          rfl
        · obtain ⟨u, hu, hlevel⟩ := exists_callLevelIn_eq hts
          rw [hlevel, (hchild u hu).2]
      rw [callLevel_eq, hlevel, Rule.shelter, if_neg hr]

end Tree

/-- The rules that no call stands in, as far as expressions are made of them. -/
def Rule.callFree : List Rule :=
  [.digits, .name, .precisionSpec, .integer, .float, .sign, .number, .string, .booleanValue,
   .boolean, .logicalNot, .logicalPrefixOperator, .lowerBound, .upperBound, .arrayIndexRegion,
   .arrayIndex, .indexedArray, .accessedVariable, .booleans, .strings, .numbers, .inPlaceArray]

theorem Tree.callNodes_of_callFree {s : Text} {t : Tree} (h : ∀ n ∈ t.nodes, n.GrownIn s)
    (hr : t.rule ∈ Rule.callFree) : t.callNodes = [] ∧ t.callLevel = 0 := by
  refine callNodes_eq_nil fun n hn hcall => ?_
  have hmem := rule_mem_of_closed (by decide) h hr n hn
  rw [hcall] at hmem
  exact absurd hmem (by decide)

/-! ## What lowering keeps -/

section Lowering

variable {source : Source} {t : Tree} {e : Expr} {es : List Expr}

theorem forall₂_callsIn {ts : List Tree} {s : Text}
    (h : List.Forall₂ (fun a e => List.Forall₂ (Tree.IsCallOf s) a.callNodes e.calls) ts es) :
    List.Forall₂ (Tree.IsCallOf s) (ts.flatMap Tree.callNodes) (Expr.callsIn es) := by
  induction h with
  | nil => exact .nil
  | cons ha _ ih =>
    rw [List.flatMap_cons, Expr.callsIn]
    exact List.rel_append ha ih

theorem callLevelIn_eq_deepestCall {ts : List Tree}
    (h : List.Forall₂ (fun a e => a.callLevel = e.callDepth) ts es) :
    Tree.callLevelIn ts = Expr.deepestCall es := by
  induction h with
  | nil => rfl
  | cons ha _ ih => rw [Tree.callLevelIn, Expr.deepestCall, ha, ih]

/-- The nodes for calls below a call are those in its arguments. -/
theorem Tree.GrownIn.call_children {s : Text} (h : ∀ n ∈ t.nodes, n.GrownIn s)
    (hr : t.rule = .functionCall) :
    t.children.flatMap callNodes = t.argumentNodes.flatMap callNodes ∧
      callLevelIn t.children = callLevelIn t.argumentNodes := by
  have hl := (h t t.self_mem_nodes).map_rule_mem
  rw [hr] at hl
  have hrules : [.name] = t.children.map Tree.rule ∨
      [.name, .arguments] = t.children.map Tree.rule := by
    simpa [Rule.production, Production.childRules, Phrase.inParentheses, Phrase.inOrder,
      Phrase.punct, Phrase.childRules, Language.mem_mul, Language.mem_add, Language.mem_one,
      or_and_right, exists_or] using hl
  obtain ⟨r, y, ts⟩ := t
  have hname : ∀ u ∈ ts, u.rule = .name → u.callNodes = [] ∧ u.callLevel = 0 :=
    fun u hu hur => callNodes_of_callFree (forall_nodes_of_child h hu) (by rw [hur]; decide)
  rcases hrules with hrules | hrules
  · obtain ⟨u, rfl, hu⟩ := List.map_eq_singleton_iff.mp hrules.symm
    have hnone : (⟨r, y, [u]⟩ : Tree).child? .arguments = none := by simp [child?, hu]
    obtain ⟨hnodes, hlevel⟩ := hname u List.mem_cons_self hu
    simp [argumentNodes, hnone, hnodes, callLevelIn, hlevel]
  · obtain ⟨u, us, rfl, hu, hus⟩ := List.map_eq_cons_iff.mp hrules.symm
    obtain ⟨v, rfl, hv⟩ := List.map_eq_singleton_iff.mp hus
    have hsome : (⟨r, y, [u, v]⟩ : Tree).child? .arguments = some v := by simp [child?, hu, hv]
    obtain ⟨hnodes, hlevel⟩ := hname u List.mem_cons_self hu
    have hmem : v ∈ [u, v] := List.mem_cons_of_mem u (List.mem_singleton_self v)
    have hall : v.childrenNamed .argument = v.children := by
      refine List.filter_eq_self.mpr fun a ha => ?_
      have har := (h v (mem_nodes_of_child hmem)).rule_mem_calls a ha
      rw [hv] at har
      simpa [Rule.production, Production.calls, Phrase.calls, Phrase.commaList,
        Phrase.punct] using har
    have hshelter : v.callLevel = callLevelIn v.children := by
      rw [callLevel_eq, hv]
      exact Nat.zero_add _
    simp [argumentNodes, hsome, hall, hnodes, callNodes_eq v, hv, callLevelIn, hlevel, hshelter]

/-- Where a tree is lowered to an expression, the expression has its calls, and they nest alike. -/
theorem calls_of_ofTree (h : ∀ n ∈ t.nodes, n.GrownIn source.content)
    (he : Expr.ofTree source t = .ok e) :
    List.Forall₂ (Tree.IsCallOf source.content) t.callNodes e.calls ∧
      t.callLevel = e.callDepth := by
  induction t using Tree.induction_on_nodes generalizing e with
  | h t ih =>
    have ht := h t t.self_mem_nodes
    have free (hr : t.rule ∈ Rule.callFree) (hcalls : e.calls = []) (hdepth : e.callDepth = 0) :
        List.Forall₂ (Tree.IsCallOf source.content) t.callNodes e.calls ∧
          t.callLevel = e.callDepth := by
      obtain ⟨hnodes, hlevel⟩ := Tree.callNodes_of_callFree h hr
      rw [hnodes, hcalls, hlevel, hdepth]
      exact ⟨.nil, rfl⟩
    cases Expr.fromTree_of_ofTree he with
    | @wrapped v us _ hr hc hv =>
      obtain ⟨q, qs, hp⟩ := Rule.wraps hr
      obtain ⟨u, hu, -⟩ := ht.only_child hp
      obtain ⟨rfl, rfl⟩ : v = u ∧ us = [] := List.cons.inj (hc.symm.trans hu)
      have hmem : v ∈ t.children := hc ▸ List.mem_singleton_self v
      obtain ⟨hcalls, hdepth⟩ :=
        ih v hmem v v.self_mem_nodes (Tree.forall_nodes_of_child h hmem) hv
      have hne : t.rule ≠ .functionCall := by rcases hr with hr | hr | hr <;> rw [hr] <;> decide
      rw [Tree.callNodes_eq, if_neg hne, hc, Tree.callLevel_eq, Rule.shelter, if_neg hne, hc]
      exact ⟨by simpa using hcalls, by simpa [Tree.callLevelIn] using hdepth⟩
    | @call u x es hr hu hx hes =>
      obtain ⟨hnodes, hlevel⟩ := Tree.GrownIn.call_children h hr
      have hargs : List.Forall₂ (fun a e =>
          List.Forall₂ (Tree.IsCallOf source.content) a.callNodes e.calls ∧
            a.callLevel = e.callDepth) t.argumentNodes es := by
        have hmem : ∀ a ∈ t.argumentNodes, ∀ e, Expr.ofTree source a = .ok e →
            List.Forall₂ (Tree.IsCallOf source.content) a.callNodes e.calls ∧
              a.callLevel = e.callDepth := by
          intro a ha e hae
          obtain ⟨v, hv, hav⟩ := Tree.mem_of_argumentNodes ha
          exact ih v hv a (Tree.mem_nodes_of_child hav)
            (Tree.forall_nodes_of_child (Tree.forall_nodes_of_child h hv) hav) hae
        exact ((List.forall₂_and_left _ _).mpr ⟨hmem, hes⟩).imp fun a e hae => hae.1 e hae.2
      have hcall : t.IsCallOf source.content ⟨x, es, t.span⟩ := by
        refine ⟨?_, rfl, hes.length_eq⟩
        rw [Tree.child?_of_required hu, Identifier.eq_of_ofTree hx]
        rfl
      rw [Tree.callNodes_eq, if_pos hr, hnodes, Tree.callLevel_eq, hlevel, Rule.shelter, if_pos hr,
        Expr.calls, Expr.callDepth,
        callLevelIn_eq_deepestCall (hargs.imp fun _ _ h => h.2)]
      exact ⟨.cons hcall (forall₂_callsIn (hargs.imp fun _ _ h => h.1)), rfl⟩
    | array hr | number hr | string hr | boolean hr | access hr =>
      exact free (by rw [hr]; decide) rfl rfl

end Lowering

/-- The expression that a construct is, a call included. -/
def Construct.expr? : Construct → Option Expr
  | expr e => some e
  | functionCall c => some c.toExpr
  | _ => none

/-- **Lowering keeps the calls.**  Where a value, an argument or a call is parsed, the expression that
the tree is lowered to has the calls of the tree in the same order, with the same names, spans and
numbers of arguments, and the depth of its calls is the largest number of them on the way from the
root of the tree to a leaf. -/
theorem calls_of_parse {s : Text} {r : Rule} {o : Options} {t : Tree}
    (hr : r = .valueReturningCode ∨ r = .argument ∨ r = .functionCall)
    (h : parse s r o = .ok t) :
    ∃ x e, parseConstruct s r o = .ok x ∧ x.expr? = some e ∧
      List.Forall₂ (Tree.IsCallOf s) t.callNodes e.calls ∧
      IsGreatest {n | ∃ p, t.LeafPath p ∧ callsAlong p = n} e.callDepth := by
  obtain ⟨x, hx, hlower⟩ := (construct_of_parse_or_locate s r o o.sourceName).2.2.1 t h
  have htr := rule_of_parse h
  have hexpr : ∃ e, x.expr? = some e ∧ Expr.ofTree ⟨o.sourceName, s⟩ t = .ok e := by
    rcases hr with rfl | rfl | rfl
    · simp only [Construct.ofTree, htr] at hlower
      obtain ⟨e, he, rfl⟩ := map_eq_ok hlower
      exact ⟨e, rfl, he⟩
    · simp only [Construct.ofTree, htr] at hlower
      obtain ⟨e, he, rfl⟩ := map_eq_ok hlower
      exact ⟨e, rfl, he⟩
    · simp only [Construct.ofTree, htr] at hlower
      obtain ⟨c, hc, rfl⟩ := map_eq_ok hlower
      exact ⟨c.toExpr, rfl, Expr.ofTree_of_functionCall htr hc⟩
  obtain ⟨e, he, hof⟩ := hexpr
  obtain ⟨hcalls, hdepth⟩ := calls_of_ofTree (grownIn_of_parse h) hof
  have hgreatest := t.isGreatest_callLevel
  rw [hdepth] at hgreatest
  exact ⟨x, e, hx, he, hcalls, hgreatest⟩

/-- A call without arguments and an array access in the arguments of a call. -/
theorem calls_of_call_in_call :
    let s : Text := ['f', '(', 'g', '(', ')', ',', 'a', '(', ':', ')', ')']
    let a : IndexedArray := ⟨⟨['a'], ⟨6, 7⟩⟩, [.region ⟨none, none, ⟨8, 9⟩⟩], ⟨6, 10⟩⟩
    let c : FunctionCall := ⟨⟨['f'], ⟨0, 1⟩⟩,
      [.call ⟨['g'], ⟨2, 3⟩⟩ [] ⟨2, 5⟩, .access ⟨none, .indexed a, ⟨6, 10⟩⟩], ⟨0, 11⟩⟩
    ∃ t, parse s .functionCall {} = .ok t ∧ parseConstruct s .functionCall {} = .ok (.functionCall c) ∧
      c.toExpr.calls = [c, ⟨⟨['g'], ⟨2, 3⟩⟩, [], ⟨2, 5⟩⟩] ∧
      List.Forall₂ (Tree.IsCallOf s) t.callNodes c.toExpr.calls ∧
      IsGreatest {n | ∃ p, t.LeafPath p ∧ callsAlong p = n} 2 := by
  intro s a c
  have hc : parseConstruct s .functionCall {} = .ok (.functionCall c) := by decide +kernel
  obtain ⟨t, ht, -⟩ := bind_eq_ok hc
  obtain ⟨x, e, hx, he, hcalls, hgreatest⟩ := calls_of_parse (.inr (.inr rfl)) ht
  obtain rfl : x = .functionCall c := Except.ok.inj (hx.symm.trans hc)
  obtain rfl : c.toExpr = e := Option.some.inj he
  exact ⟨t, ht, hc, rfl, hcalls, hgreatest⟩

end FreeForm
