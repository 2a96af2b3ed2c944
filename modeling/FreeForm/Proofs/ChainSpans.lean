import FreeForm.Proofs.LoweringSteps
import FreeForm.Proofs.NodeEnds

/-!
# Where the parts of a chain stand

A chain lists its operands and operators as they stand in the source.  Each of them has the span of
the child it was lowered from, although an operand may stand in up to four wrappers and an operator
always stands in one: a wrapper covers what its only child covers.  The first operand begins with the
chain and the last one ends with it, because a chain has no lexemes of its own and noise is passed
only in front of parts that are there (`Derives.stop_eq_lastStop`).

All this holds on each of the three levels of chains, and of all the chains inside a chain
(`standsIn_of_parseConstruct`).
-/

namespace FreeForm

/-! ## Phrases without lexemes -/

/-- Where a phrase has no lexemes of its own, a derivation ends with its last tree. -/
theorem Derives.stop_eq_lastStop {skip : Cursor → Cursor} {a : Phrase} {c d : Cursor}
    {ts : List Tree} (h : Derives skip a c ts d) (hs : Spacing skip) (ha : a.lexemes = []) :
    d.stop = lastStop c.stop ts := by
  have hskip : ∀ e : Cursor, (skip e).stop = e.stop := by
    intro e
    cases hs with
    | compact => rfl
    | spaced => exact e.stop_skipGap
  induction h with
  | token h => simp [Phrase.lexemes] at ha
  | lexeme | compact | spaced => rfl
  | seq _ _ iha ihb =>
    obtain ⟨ha, hb⟩ := List.append_eq_nil_iff.mp ha
    rw [ihb hs hb hskip, hskip, iha hs ha hskip, lastStop_append]
  | left _ ih => exact ih hs (List.append_eq_nil_iff.mp ha).1 hskip
  | right _ ih => exact ih hs (List.append_eq_nil_iff.mp ha).2 hskip
  | absent | never => rfl
  | present _ ih | once _ ih => exact ih hs ha hskip
  | again _ _ ihm iha => rw [iha hs ha hskip, hskip, ihm hs ha hskip, lastStop_append]

/-- A node for a chain begins with its first child and ends with its last one. -/
theorem Tree.GrownIn.ends_of_chain {s : Text} {t : Tree} {p q : Rule} (h : t.GrownIn s)
    (hp : t.rule.production = .spaced (.chain p q)) :
    (∀ u ∈ t.children.head?, u.span.start = t.span.start) ∧
      ∀ u ∈ t.children.getLast?, u.span.stop = t.span.stop := by
  obtain ⟨c, d, -, hd, hspan⟩ := h
  rw [hp] at hd
  have hstop := Derives.stop_eq_lastStop hd .spaced rfl
  rw [hspan]
  constructor
  · obtain ⟨us, x, vs, hfirst, -, hts⟩ := derives_seq_iff.mp hd
    obtain ⟨ws, rfl, -⟩ := derives_call_iff.mp hfirst
    rw [hts]
    intro u hu
    obtain rfl := Option.some.inj hu
    rfl
  · intro u hu
    rw [hstop, lastStop, Option.mem_def.mp hu]
    rfl

/-! ## The spans of expressions and operators -/

variable {source : Source} {t : Tree}

theorem InPlaceArray.span_of_ofTree {a : InPlaceArray} (h : ofTree source t = .ok a) :
    a.span = t.span := by
  obtain ⟨_, -, h⟩ := bind_eq_ok h
  obtain ⟨_, -, h⟩ := bind_eq_ok h
  obtain ⟨_, -, h⟩ := bind_eq_ok h
  obtain rfl := Except.ok.inj h
  rfl

theorem Number.span_of_ofTree {n : Number} (h : ofTree source t = .ok n) : n.span = t.span := by
  obtain ⟨_, -, h⟩ := bind_eq_ok h
  obtain ⟨_, -, h⟩ := bind_eq_ok h
  obtain ⟨_, -, h⟩ := bind_eq_ok h
  split at h
  · obtain rfl := Except.ok.inj h
    rfl
  · simp at h

theorem StringLiteral.span_of_ofTree {x : StringLiteral} (h : ofTree source t = .ok x) :
    x.span = t.span := by
  obtain ⟨_, -, h⟩ := bind_eq_ok h
  split at h
  · obtain rfl := Except.ok.inj h
    rfl
  · simp at h

theorem Boolean.span_of_ofTree {b : Boolean} (h : ofTree source t = .ok b) : b.span = t.span := by
  obtain ⟨_, -, h⟩ := bind_eq_ok h
  dsimp only at h
  split at h
  · obtain rfl := Except.ok.inj h
    rfl
  · simp at h

theorem AccessedVariable.span_of_ofTree {v : AccessedVariable} (h : ofTree source t = .ok v) :
    v.span = t.span := by
  obtain ⟨_, -, h⟩ := bind_eq_ok h
  obtain ⟨_, -, h⟩ := bind_eq_ok h
  obtain ⟨_, -, h⟩ := bind_eq_ok h
  obtain rfl := Except.ok.inj h
  rfl

/-- An expression has the span of the tree it is lowered from, however many wrappers there are. -/
theorem Expr.span_of_ofTree {e : Expr} (h : ∀ n ∈ t.nodes, n.GrownIn source.content)
    (he : Expr.ofTree source t = .ok e) : e.span = t.span := by
  induction t using Tree.induction_on_children generalizing e with
  | h t ih =>
    cases fromTree_of_ofTree he with
    | @wrapped v us _ hr hc hv =>
      obtain ⟨q, qs, hp⟩ := Rule.wraps hr
      obtain ⟨u, hu, -, hspan⟩ := (h t t.self_mem_nodes).only_child hp
      obtain ⟨rfl, rfl⟩ : v = u ∧ us = [] := List.cons.inj (hc.symm.trans hu)
      have hmem : v ∈ t.children := hc ▸ List.mem_singleton_self v
      exact (ih v hmem (Tree.forall_nodes_of_child h hmem) hv).trans hspan
    | call => rfl
    | array _ ha => exact InPlaceArray.span_of_ofTree ha
    | number _ hn => exact Number.span_of_ofTree hn
    | string _ hs => exact StringLiteral.span_of_ofTree hs
    | boolean _ hb => exact Boolean.span_of_ofTree hb
    | access _ hv => exact AccessedVariable.span_of_ofTree hv

/-- An operator has the span of the tree of its family. -/
theorem span_of_operatorOfTree {ω : Type} {family r : Rule} {rs : List Rule}
    {ofRule? : Rule → Option ω} {described : String} {o : Spanned ω}
    (h : t.GrownIn source.content) (hr : t.rule = family)
    (hp : family.production = .spaced (.anyOf r rs)) (hne : family ∉ r :: rs)
    (ho : operatorOfTree source family ofRule? described t = .ok o) : o.span = t.span := by
  obtain ⟨⟨q, y, us⟩, hc, hq, hspan⟩ := h.only_child (by rw [hr, hp])
  have hqf : q ≠ family := by
    rintro rfl
    exact hne hq
  obtain ⟨r, x, ts⟩ := t
  obtain rfl : ts = [⟨q, y, us⟩] := hc
  simp only [operatorOfTree, if_pos hr, operatorOfFirst, if_neg hqf] at ho
  split at ho
  · obtain rfl := Except.ok.inj ho
    exact hspan
  · simp at ho

theorem ArithmeticOperator.span_of_ofTree {o : Spanned ArithmeticOperator}
    (h : t.GrownIn source.content) (hr : t.rule = .arithmeticOperator)
    (ho : ArithmeticOperator.ofTree source t = .ok o) : o.span = t.span :=
  span_of_operatorOfTree h hr rfl (by decide) ho

theorem RelationalOperator.span_of_ofTree {o : Spanned RelationalOperator}
    (h : t.GrownIn source.content) (hr : t.rule = .relationalOperator)
    (ho : RelationalOperator.ofTree source t = .ok o) : o.span = t.span :=
  span_of_operatorOfTree h hr rfl (by decide) ho

theorem LogicalOperator.span_of_ofTree {o : Spanned LogicalOperator}
    (h : t.GrownIn source.content) (hr : t.rule = .logicalOperator)
    (ho : LogicalOperator.ofTree source t = .ok o) : o.span = t.span :=
  span_of_operatorOfTree h hr rfl (by decide) ho

/-! ## Chains -/

namespace Chain

variable {ω α : Type}

/-- The spans of the operands and the operators in turn, for operands with the spans that `span`
gives. -/
def partSpans (span : α → Span) (c : Chain ω α) : List Span :=
  span c.first :: c.rest.flatMap fun y => [y.1.span, span y.2]

/-- The chain has the span of the tree `t`, and begins and ends with its operands.  Its operands and
operators stand in turn, one behind the other, and have the spans of the children of `t`: the
operands those of the children of the rule `p`, to each of which `Operand` relates it, and the
operators those of the rule `q`. -/
structure PartsIn (p q : Rule) (Operand : Tree → α → Prop) (span : α → Span) (t : Tree)
    (c : Chain ω α) : Prop where
  span_eq : c.span = t.span
  start_eq : (span c.first).start = c.span.start
  stop_eq : ∀ x ∈ c.operands.getLast?, (span x).stop = c.span.stop
  parts_eq : t.children.map Tree.span = c.partSpans span
  nonempty : ∀ x ∈ c.partSpans span, x.start < x.stop
  increasing : (c.partSpans span).Pairwise fun x y => x.stop ≤ y.start
  operands : List.Forall₂ (fun u x => u.span = span x ∧ Operand u x) (t.childrenNamed p) c.operands
  operators : (t.childrenNamed q).map Tree.span = c.rest.map fun y => y.1.span

theorem getLast?_partSpans (span : α → Span) (c : Chain ω α) :
    (c.partSpans span).getLast? = c.operands.getLast?.map span := by
  obtain ⟨x, ys, s⟩ := c
  rw [partSpans, operands]
  induction ys generalizing x with
  | nil => rfl
  | cons y ys ih =>
    rw [List.flatMap_cons, List.cons_append, List.cons_append, List.getLast?_cons_cons,
      List.getLast?_cons_cons, List.map_cons, List.getLast?_cons_cons]
    exact ih y.2

theorem Follows.map_span {p : Parts ω α} {span : α → Span} {us : List Tree}
    {ys : List (Spanned ω × α)} (h : Follows p us ys)
    (hx : ∀ u ∈ us, ∀ x, u.rule = p.operandRule → p.operand u = .ok x → u.span = span x)
    (ho : ∀ u ∈ us, ∀ o, u.rule = p.operatorRule → p.operator u = .ok o → u.span = o.span) :
    us.map Tree.span = ys.flatMap fun y => [y.1.span, span y.2] := by
  induction h with
  | nil => rfl
  | @cons u v us o x ys hu huo hv hvx _ ih =>
    have hop := ho u (by simp) o hu huo
    have hoperand := hx v (by simp) x hv hvx
    have hrest := ih (fun w hw => hx w (by simp [hw])) fun w hw => ho w (by simp [hw])
    rw [List.map_cons, List.map_cons, hop, hoperand, hrest]
    rfl

/-- What a chain is lowered from is a tree in which its parts stand. -/
theorem partsIn_of_ofTree {p : Parts ω α} {c : Chain ω α} {Operand : Tree → α → Prop}
    {span : α → Span} (h : ∀ n ∈ t.nodes, n.GrownIn source.content)
    (hr : t.rule.production = .spaced (.chain p.operandRule p.operatorRule))
    (hp : p.operandRule ≠ p.operatorRule) (hc : ofTree source p t = .ok c)
    (hx : ∀ u ∈ t.children, ∀ x, u.rule = p.operandRule → p.operand u = .ok x →
      u.span = span x ∧ Operand u x)
    (ho : ∀ u ∈ t.children, ∀ o, u.rule = p.operatorRule → p.operator u = .ok o →
      u.span = o.span) :
    c.PartsIn p.operandRule p.operatorRule Operand span t := by
  obtain ⟨hspan, u, us, hts, hu, hux, hfollows⟩ := follows_of_ofTree hc
  obtain ⟨hoperands, hoperators⟩ := forall₂_of_ofTree hp hc
  have ht := h t t.self_mem_nodes
  obtain ⟨hstart, hstop⟩ := ht.ends_of_chain hr
  have hfirst := (hx u (by simp [hts]) _ hu hux).1
  have hparts : t.children.map Tree.span = c.partSpans span := by
    have hus : ∀ w ∈ us, w ∈ t.children := fun w hw => hts ▸ List.mem_cons_of_mem u hw
    rw [hts, List.map_cons, hfirst, partSpans, hfollows.map_span
      (fun w hw x hwr hwx => (hx w (hus w hw) x hwr hwx).1) fun w hw => ho w (hus w hw)]
  refine ⟨hspan, ?_, ?_, hparts, ?_, ?_, ?_, ?_⟩
  · rw [← hfirst, hspan]
    exact hstart u (by simp [hts])
  · intro x hlast
    have hget := c.getLast?_partSpans span
    rw [← hparts, List.getLast?_map, Option.mem_def.mp hlast] at hget
    obtain ⟨v, hv, hvx⟩ := Option.map_eq_some_iff.mp hget
    rw [← hvx, hspan]
    exact hstop v hv
  · rw [← hparts]
    intro x hmem
    obtain ⟨v, hv, rfl⟩ := List.mem_map.mp hmem
    exact (h v (Tree.mem_nodes_of_child hv)).wellSpanned.start_lt_stop
  · rw [← hparts]
    exact List.pairwise_map.mpr ht.wellSpanned.ordered
  · have hall : ∀ w ∈ t.childrenNamed p.operandRule, ∀ x, p.operand w = .ok x →
        w.span = span x ∧ Operand w x := by
      intro w hw x
      obtain ⟨hmem, hwr⟩ := Tree.mem_of_childrenNamed hw
      exact hx w hmem x hwr
    exact ((List.forall₂_and_left _ _).mpr ⟨hall, hoperands⟩).imp fun w x hwx => hwx.1 x hwx.2
  · have hall : ∀ w ∈ t.childrenNamed p.operatorRule, ∀ o, p.operator w = .ok o →
        w.span = o.span := by
      intro w hw o
      obtain ⟨hmem, hwr⟩ := Tree.mem_of_childrenNamed hw
      exact ho w hmem o hwr
    rw [map_eq_map_of_forall₂ hoperators hall, List.map_map]
    rfl

end Chain

/-! ## The three levels -/

def ArithmeticStatement.StandsIn (t : Tree) (c : ArithmeticStatement) : Prop :=
  c.PartsIn .valueReturningCode .arithmeticOperator (fun _ _ => True) Expr.span t

def RelationalStatement.StandsIn (t : Tree) (c : RelationalStatement) : Prop :=
  c.PartsIn .arithmeticStatement .relationalOperator ArithmeticStatement.StandsIn Chain.span t

def LogicalStatement.StandsIn (t : Tree) (c : LogicalStatement) : Prop :=
  c.PartsIn .relationalStatement .logicalOperator RelationalStatement.StandsIn Chain.span t

theorem arithmetic_standsIn {c : ArithmeticStatement}
    (h : ∀ n ∈ t.nodes, n.GrownIn source.content) (hc : arithmeticOfTree source t = .ok c) :
    ArithmeticStatement.StandsIn t c := by
  obtain ⟨_, hr, hc⟩ := bind_eq_ok hc
  have hchain : t.rule.production = .spaced (.chain .valueReturningCode .arithmeticOperator) := by
    rw [Tree.rule_of_expect hr]
    rfl
  refine Chain.partsIn_of_ofTree h hchain (by simp) hc (fun u hu e _ he => ?_)
    fun u hu o hur ho => ?_
  · exact ⟨(Expr.span_of_ofTree (Tree.forall_nodes_of_child h hu) he).symm, trivial⟩
  · have hgrown := h u (Tree.mem_nodes_of_child hu)
    exact (ArithmeticOperator.span_of_ofTree hgrown hur ho).symm

theorem relational_standsIn {c : RelationalStatement}
    (h : ∀ n ∈ t.nodes, n.GrownIn source.content) (hc : relationalOfTree source t = .ok c) :
    RelationalStatement.StandsIn t c := by
  obtain ⟨_, hr, hc⟩ := bind_eq_ok hc
  have hchain : t.rule.production = .spaced (.chain .arithmeticStatement .relationalOperator) := by
    rw [Tree.rule_of_expect hr]
    rfl
  refine Chain.partsIn_of_ofTree h hchain (by simp) hc (fun u hu a _ ha => ?_)
    fun u hu o hur ho => ?_
  · have hstands := arithmetic_standsIn (Tree.forall_nodes_of_child h hu) ha
    exact ⟨hstands.span_eq.symm, hstands⟩
  · have hgrown := h u (Tree.mem_nodes_of_child hu)
    exact (RelationalOperator.span_of_ofTree hgrown hur ho).symm

theorem logical_standsIn {c : LogicalStatement}
    (h : ∀ n ∈ t.nodes, n.GrownIn source.content) (hc : logicalOfTree source t = .ok c) :
    LogicalStatement.StandsIn t c := by
  obtain ⟨_, hr, hc⟩ := bind_eq_ok hc
  have hchain : t.rule.production = .spaced (.chain .relationalStatement .logicalOperator) := by
    rw [Tree.rule_of_expect hr]
    rfl
  refine Chain.partsIn_of_ofTree h hchain (by simp) hc (fun u hu b _ hb => ?_)
    fun u hu o hur ho => ?_
  · have hstands := relational_standsIn (Tree.forall_nodes_of_child h hu) hb
    exact ⟨hstands.span_eq.symm, hstands⟩
  · have hgrown := h u (Tree.mem_nodes_of_child hu)
    exact (LogicalOperator.span_of_ofTree hgrown hur ho).symm

/-- The construct is a chain, and its parts stand in the tree, and so do those of the chains inside
it. -/
def Construct.StandsIn (t : Tree) : Construct → Prop
  | arithmeticStatement c => ArithmeticStatement.StandsIn t c
  | relationalStatement c => RelationalStatement.StandsIn t c
  | logicalStatement c => LogicalStatement.StandsIn t c
  | _ => False

/-- **Chains list their parts in the order of the source and cover them exactly**, on all levels. -/
theorem standsIn_of_parseConstruct {s : Text} {r : Rule} {o : Options} {x : Construct}
    (hr : r = .arithmeticStatement ∨ r = .relationalStatement ∨ r = .logicalStatement)
    (h : parseConstruct s r o = .ok x) : ∃ t, parse s r o = .ok t ∧ x.StandsIn t := by
  obtain ⟨t, ht, hx⟩ := bind_eq_ok h
  have htr := rule_of_parse ht
  have hgrown : ∀ n ∈ t.nodes, n.GrownIn (Source.mk o.sourceName s).content := grownIn_of_parse ht
  refine ⟨t, ht, ?_⟩
  rcases hr with rfl | rfl | rfl
  · simp only [Construct.ofTree, htr] at hx
    obtain ⟨c, hc, rfl⟩ := map_eq_ok hx
    exact arithmetic_standsIn hgrown hc
  · simp only [Construct.ofTree, htr] at hx
    obtain ⟨c, hc, rfl⟩ := map_eq_ok hx
    exact relational_standsIn hgrown hc
  · simp only [Construct.ofTree, htr] at hx
    obtain ⟨c, hc, rfl⟩ := map_eq_ok hx
    exact logical_standsIn hgrown hc

/-- A sum, compared with a number. -/
theorem standsIn_of_comparison :
    let s : Text := ['a', '+', 'b', ' ', '=', '=', ' ', '2']
    let e (c : Char) (x : Span) : Expr := .access ⟨none, .plain ⟨[c], x⟩, x⟩
    let sum : ArithmeticStatement := ⟨e 'a' ⟨0, 1⟩, [(⟨.add, ⟨1, 2⟩⟩, e 'b' ⟨2, 3⟩)], ⟨0, 3⟩⟩
    let two : ArithmeticStatement :=
      ⟨.literal (.number ⟨none, .integer ⟨['2'], none, ⟨7, 8⟩⟩, ⟨7, 8⟩⟩), [], ⟨7, 8⟩⟩
    let c : RelationalStatement := ⟨sum, [(⟨.equal, ⟨4, 6⟩⟩, two)], ⟨0, 8⟩⟩
    parseConstruct s .relationalStatement {} = .ok (.relationalStatement c) ∧
      sum.partSpans Expr.span = [⟨0, 1⟩, ⟨1, 2⟩, ⟨2, 3⟩] ∧
      c.partSpans Chain.span = [⟨0, 3⟩, ⟨4, 6⟩, ⟨7, 8⟩] ∧
      ∃ t, parse s .relationalStatement {} = .ok t ∧ RelationalStatement.StandsIn t c := by
  intro s e sum two c
  have hc : parseConstruct s .relationalStatement {} = .ok (.relationalStatement c) := by
    decide +kernel
  exact ⟨hc, rfl, rfl, standsIn_of_parseConstruct (.inr (.inl rfl)) hc⟩

end FreeForm
