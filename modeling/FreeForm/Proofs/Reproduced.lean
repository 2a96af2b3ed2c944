import FreeForm.Proofs.WrittenLiterals

/-!
# Typed syntax reproduces the source

Whatever a text is parsed as, the names and the literals anywhere in its typed form are spelled as
the text in their spans (`writtenIn_of_parseConstruct`).  `WrittenIn` is carried on from literals to
everything that contains them, and follows the lowering of each type.
-/

namespace FreeForm

/-! ## What is written in a text -/

section WrittenIn

variable (s : Text)

def Bound.WrittenIn : Bound → Prop
  | integer n => n.WrittenIn s
  | name x => x.WrittenIn s

def IndexRegion.WrittenIn (r : IndexRegion) : Prop :=
  (∀ b ∈ r.lower, b.WrittenIn s) ∧ ∀ b ∈ r.upper, b.WrittenIn s

def ArrayIndex.WrittenIn : ArrayIndex → Prop
  | region r => r.WrittenIn s
  | integer n => n.WrittenIn s
  | name x => x.WrittenIn s

/-- There is an index, and the name and the indices are written in the text. -/
def IndexedArray.WrittenIn (a : IndexedArray) : Prop :=
  a.name.WrittenIn s ∧ a.indices ≠ [] ∧ ∀ i ∈ a.indices, i.WrittenIn s

def VariableRef.WrittenIn : VariableRef → Prop
  | indexed a => a.WrittenIn s
  | plain x => x.WrittenIn s

def AccessedVariable.WrittenIn (v : AccessedVariable) : Prop := v.target.WrittenIn s

mutual

def Expr.WrittenIn : Expr → Prop
  | call x es _ => x.WrittenIn s ∧ Expr.AllWrittenIn es
  | array a => a.WrittenIn s
  | literal l => l.WrittenIn s
  | access v => v.WrittenIn s

def Expr.AllWrittenIn : List Expr → Prop
  | [] => True
  | e :: es => Expr.WrittenIn e ∧ Expr.AllWrittenIn es

end

/-- What holds of all the operands of a chain. -/
def Chain.Each {ω α : Type} (P : α → Prop) (c : Chain ω α) : Prop := ∀ x ∈ c.operands, P x

/-- Every name and every literal in the construct is written in the text `s`. -/
def Construct.WrittenIn : Construct → Prop
  | identifier x => x.WrittenIn s
  | sign g => s.slice? g.span.start g.span.stop = some (signPrefix g.value)
  | precision k => s.slice? k.span.start k.span.stop = some (kindSuffix k.value) ∧ isKind k.value
  | digits d => s.slice? d.span.start d.span.stop = some d.value ∧ isDigitRun d.value
  | integer n => n.WrittenIn s
  | float x => x.WrittenIn s
  | number n => n.WrittenIn s
  | string x => x.WrittenIn s
  | boolean b => b.WrittenIn s
  | bound b => b.WrittenIn s
  | indexRegion r => r.WrittenIn s
  | arrayIndex i => i.WrittenIn s
  | indexedArray a => a.WrittenIn s
  | accessedVariable v => v.WrittenIn s
  | arrayItems i => i.value.WrittenIn s
  | inPlaceArray a => a.WrittenIn s
  | functionCall c => c.toExpr.WrittenIn s
  | expr e => e.WrittenIn s
  | arguments es => ∀ e ∈ es.value, e.WrittenIn s
  | arithmeticStatement c => c.Each (Expr.WrittenIn s)
  | relationalStatement c => c.Each fun a => a.Each (Expr.WrittenIn s)
  | logicalStatement c => c.Each fun b => b.Each fun a => a.Each (Expr.WrittenIn s)
  | assignment a => a.target.WrittenIn s ∧ a.value.WrittenIn s
  | subroutineCall c => c.name.WrittenIn s ∧ ∀ es ∈ c.arguments, ∀ e ∈ es, e.WrittenIn s
  | arithmeticOperator _ | relationalOperator _ | logicalOperator _ | logicalPrefix _
  | callKeyword _ => True

end WrittenIn

theorem Expr.allWrittenIn_iff {s : Text} {es : List Expr} :
    AllWrittenIn s es ↔ ∀ e ∈ es, e.WrittenIn s := by
  induction es with
  | nil => simp [AllWrittenIn]
  | cons e es ih => rw [AllWrittenIn, ih, List.forall_mem_cons]

variable {source : Source} {t : Tree}

/-! ## Access to variables -/

theorem Bound.writtenIn_of_ofTree {b : Bound} (h : ∀ n ∈ t.nodes, n.GrownAt source.content)
    (hb : Bound.ofTree source t = .ok b) : b.WrittenIn source.content := by
  obtain ⟨u, hu, hb⟩ := bind_eq_ok hb
  obtain ⟨us, hc⟩ := Tree.firstChild_eq_ok hu
  have hgrown := Tree.forall_nodes_of_child h (hc ▸ List.mem_cons_self)
  split at hb
  · obtain ⟨n, hn, rfl⟩ := map_eq_ok hb
    exact IntegerLiteral.writtenIn_of_ofTree hgrown hn
  · obtain ⟨x, hx, rfl⟩ := map_eq_ok hb
    exact Identifier.writtenIn_of_ofTree hgrown hx
  · simp at hb

theorem IndexRegion.writtenIn_of_ofTree {r : IndexRegion}
    (h : ∀ n ∈ t.nodes, n.GrownAt source.content) (hr : IndexRegion.ofTree source t = .ok r) :
    r.WrittenIn source.content := by
  obtain ⟨_, -, hr⟩ := bind_eq_ok hr
  obtain ⟨x, hx, hr⟩ := bind_eq_ok hr
  obtain ⟨y, hy, hr⟩ := bind_eq_ok hr
  obtain rfl := Except.ok.inj hr
  exact ⟨forall_of_optional h hx fun _ _ => Bound.writtenIn_of_ofTree,
    forall_of_optional h hy fun _ _ => Bound.writtenIn_of_ofTree⟩

theorem ArrayIndex.writtenIn_of_ofTree {i : ArrayIndex}
    (h : ∀ n ∈ t.nodes, n.GrownAt source.content) (hi : ArrayIndex.ofTree source t = .ok i) :
    i.WrittenIn source.content := by
  obtain ⟨_, -, hi⟩ := bind_eq_ok hi
  obtain ⟨u, hu, hi⟩ := bind_eq_ok hi
  obtain ⟨us, hc⟩ := Tree.firstChild_eq_ok hu
  have hgrown := Tree.forall_nodes_of_child h (hc ▸ List.mem_cons_self)
  split at hi
  · obtain ⟨r, hr, rfl⟩ := map_eq_ok hi
    exact IndexRegion.writtenIn_of_ofTree hgrown hr
  · obtain ⟨n, hn, rfl⟩ := map_eq_ok hi
    exact IntegerLiteral.writtenIn_of_ofTree hgrown hn
  · obtain ⟨x, hx, rfl⟩ := map_eq_ok hi
    exact Identifier.writtenIn_of_ofTree hgrown hx
  · simp at hi

theorem Identifier.writtenIn_of_required {r : Rule} {u : Tree} {x : Identifier}
    (h : ∀ n ∈ t.nodes, n.GrownAt source.content) (hu : t.required source r = .ok u)
    (hx : Identifier.ofTree source u = .ok x) : x.WrittenIn source.content :=
  writtenIn_of_ofTree (Tree.forall_nodes_of_child h (Tree.mem_of_required hu).1) hx

theorem IndexedArray.writtenIn_of_ofTree {a : IndexedArray}
    (h : ∀ n ∈ t.nodes, n.GrownAt source.content) (ha : IndexedArray.ofTree source t = .ok a) :
    a.WrittenIn source.content := by
  obtain ⟨_, hr, ha⟩ := bind_eq_ok ha
  obtain ⟨u, hu, ha⟩ := bind_eq_ok ha
  obtain ⟨x, hx, ha⟩ := bind_eq_ok ha
  obtain ⟨is, his, ha⟩ := bind_eq_ok ha
  obtain rfl := Except.ok.inj ha
  exact ⟨Identifier.writtenIn_of_required h hu hx,
    forall_of_mapM_childrenNamed h (by rw [Tree.rule_of_expect hr]; rfl) his
      fun _ _ => ArrayIndex.writtenIn_of_ofTree⟩

theorem AccessedVariable.writtenIn_of_ofTree {v : AccessedVariable}
    (h : ∀ n ∈ t.nodes, n.GrownAt source.content) (hv : AccessedVariable.ofTree source t = .ok v) :
    v.WrittenIn source.content := by
  obtain ⟨_, -, hv⟩ := bind_eq_ok hv
  obtain ⟨x, hx, hv⟩ := bind_eq_ok hv
  obtain ⟨g, -, hv⟩ := bind_eq_ok hv
  obtain rfl := Except.ok.inj hv
  unfold VariableRef.ofTree at hx
  split at hx
  · rename_i u hu
    obtain ⟨a, ha, rfl⟩ := map_eq_ok hx
    exact IndexedArray.writtenIn_of_ofTree
      (Tree.forall_nodes_of_child h (Tree.mem_of_child? hu).1) ha
  · obtain ⟨u, hu, hx⟩ := bind_eq_ok hx
    obtain ⟨y, hy, hx⟩ := bind_eq_ok hx
    obtain rfl := Except.ok.inj hx
    exact Identifier.writtenIn_of_required h hu hy

/-! ## Expressions and chains -/

theorem Expr.writtenIn_of_ofTree : ∀ {t : Tree} {e : Expr},
    (∀ n ∈ t.nodes, n.GrownAt source.content) → Expr.ofTree source t = .ok e →
      e.WrittenIn source.content := by
  intro t
  induction t using Tree.induction_on_nodes with
  | h t ih =>
    intro e h he
    cases fromTree_of_ofTree he with
    | wrapped _ hc hu =>
      have hmem := hc ▸ List.mem_cons_self
      exact ih _ hmem _ (Tree.self_mem_nodes _) (Tree.forall_nodes_of_child h hmem) hu
    | call _ hu hx hes =>
      refine ⟨Identifier.writtenIn_of_required h hu hx, allWrittenIn_iff.mpr fun e he => ?_⟩
      obtain ⟨a, ha, hae⟩ := exists_mem_of_forall₂ hes e he
      obtain ⟨u, hu, hau⟩ := Tree.mem_of_argumentNodes ha
      have hgrown := Tree.forall_nodes_of_child (Tree.forall_nodes_of_child h hu) hau
      exact ih u hu a (Tree.mem_nodes_of_child hau) hgrown hae
    | array _ ha => exact InPlaceArray.writtenIn_of_ofTree h ha
    | number _ hn => exact Number.writtenIn_of_ofTree h hn
    | string _ hs => exact StringLiteral.writtenIn_of_ofTree h hs
    | boolean _ hb => exact Boolean.writtenIn_of_ofTree h hb
    | access _ hv => exact AccessedVariable.writtenIn_of_ofTree h hv

theorem writtenIn_of_argumentsOfTree {es : List Expr}
    (h : ∀ n ∈ t.nodes, n.GrownAt source.content) (hes : argumentsOfTree source t = .ok es) :
    ∀ e ∈ es, e.WrittenIn source.content := by
  obtain ⟨_, -, hes⟩ := bind_eq_ok hes
  intro e he
  obtain ⟨a, ha, hae⟩ := exists_mem_of_forall₂ (Expr.forall₂_of_ofArguments hes) e he
  exact Expr.writtenIn_of_ofTree (Tree.forall_nodes_of_child h (List.mem_of_mem_filter ha)) hae

theorem Chain.each_of_ofTree {ω α : Type} {p : Parts ω α} {c : Chain ω α} {P : α → Prop}
    (h : ∀ n ∈ t.nodes, n.GrownAt source.content) (hp : p.operandRule ≠ p.operatorRule)
    (hc : ofTree source p t = .ok c)
    (hP : ∀ u x, (∀ n ∈ u.nodes, n.GrownAt source.content) → p.operand u = .ok x → P x) :
    c.Each P := by
  intro x hx
  obtain ⟨u, hu, hux⟩ := exists_mem_of_forall₂ (forall₂_of_ofTree hp hc).1 x hx
  exact hP u x (Tree.forall_nodes_of_child h (Tree.mem_of_childrenNamed hu).1) hux

theorem writtenIn_of_arithmeticOfTree {c : ArithmeticStatement}
    (h : ∀ n ∈ t.nodes, n.GrownAt source.content) (hc : arithmeticOfTree source t = .ok c) :
    c.Each (Expr.WrittenIn source.content) := by
  obtain ⟨_, -, hc⟩ := bind_eq_ok hc
  exact Chain.each_of_ofTree h (by simp) hc fun _ _ => Expr.writtenIn_of_ofTree

theorem writtenIn_of_relationalOfTree {c : RelationalStatement}
    (h : ∀ n ∈ t.nodes, n.GrownAt source.content) (hc : relationalOfTree source t = .ok c) :
    c.Each fun a => a.Each (Expr.WrittenIn source.content) := by
  obtain ⟨_, -, hc⟩ := bind_eq_ok hc
  exact Chain.each_of_ofTree h (by simp) hc fun _ _ => writtenIn_of_arithmeticOfTree

theorem writtenIn_of_logicalOfTree {c : LogicalStatement}
    (h : ∀ n ∈ t.nodes, n.GrownAt source.content) (hc : logicalOfTree source t = .ok c) :
    c.Each fun b => b.Each fun a => a.Each (Expr.WrittenIn source.content) := by
  obtain ⟨_, -, hc⟩ := bind_eq_ok hc
  exact Chain.each_of_ofTree h (by simp) hc fun _ _ => writtenIn_of_relationalOfTree

/-! ## Statements and whole trees -/

theorem Assignment.writtenIn_of_ofTree {a : Assignment}
    (h : ∀ n ∈ t.nodes, n.GrownAt source.content) (ha : Assignment.ofTree source t = .ok a) :
    a.target.WrittenIn source.content ∧ a.value.WrittenIn source.content := by
  obtain ⟨_, -, ha⟩ := bind_eq_ok ha
  obtain ⟨u, hu, ha⟩ := bind_eq_ok ha
  obtain ⟨x, hx, ha⟩ := bind_eq_ok ha
  obtain ⟨v, hv, ha⟩ := bind_eq_ok ha
  obtain ⟨e, he, ha⟩ := bind_eq_ok ha
  obtain rfl := Except.ok.inj ha
  exact ⟨AccessedVariable.writtenIn_of_ofTree
      (Tree.forall_nodes_of_child h (Tree.mem_of_required hu).1) hx,
    Expr.writtenIn_of_ofTree (Tree.forall_nodes_of_child h (Tree.mem_of_required hv).1) he⟩

theorem SubroutineCall.writtenIn_of_ofTree {c : SubroutineCall}
    (h : ∀ n ∈ t.nodes, n.GrownAt source.content) (hc : SubroutineCall.ofTree source t = .ok c) :
    c.name.WrittenIn source.content ∧
      ∀ es ∈ c.arguments, ∀ e ∈ es, e.WrittenIn source.content := by
  obtain ⟨_, -, hc⟩ := bind_eq_ok hc
  obtain ⟨u, hu, hc⟩ := bind_eq_ok hc
  obtain ⟨x, hx, hc⟩ := bind_eq_ok hc
  obtain ⟨o, ho, hc⟩ := bind_eq_ok hc
  obtain rfl := Except.ok.inj hc
  refine ⟨Identifier.writtenIn_of_required h hu hx, fun es hes => ?_⟩
  unfold argumentsIn at ho
  split at ho
  · rename_i v hv
    obtain ⟨fs, hfs, rfl⟩ := map_eq_ok ho
    obtain rfl := Option.some.inj hes
    exact writtenIn_of_argumentsOfTree
      (Tree.forall_nodes_of_child h (Tree.mem_of_child? hv).1) hfs
  · obtain rfl := Except.ok.inj ho
    split at hes
    · obtain rfl := Option.some.inj hes
      simp
    · simp at hes

theorem Construct.writtenIn_of_ofTree {x : Construct}
    (h : ∀ n ∈ t.nodes, n.GrownAt source.content) (hx : Construct.ofTree source t = .ok x) :
    x.WrittenIn source.content := by
  have ht := h t t.self_mem_nodes
  have hslice := ht.slice?
  cases hr : t.rule <;> simp only [Construct.ofTree, hr] at hx
  case digits =>
    obtain rfl := Except.ok.inj hx
    exact ⟨hslice, ht.grownIn.isDigitRun_text hr⟩
  case logicalNot | logicalPrefixOperator | callKeyword =>
    obtain rfl := Except.ok.inj hx
    trivial
  all_goals obtain ⟨y, hy, rfl⟩ := map_eq_ok hx
  case name => exact Identifier.writtenIn_of_ofTree h hy
  case precisionSpec =>
    obtain ⟨htext, hkind⟩ := text_of_kindOfTree h hy
    exact ⟨hslice.trans (congrArg some htext), hkind⟩
  case integer => exact IntegerLiteral.writtenIn_of_ofTree h hy
  case float => exact FloatLiteral.writtenIn_of_ofTree h hy
  case sign => exact hslice.trans (congrArg some (Sign.text_of_ofTree hy))
  case number => exact Number.writtenIn_of_ofTree h hy
  case string => exact StringLiteral.writtenIn_of_ofTree h hy
  case booleanValue | boolean => exact Boolean.writtenIn_of_ofTree h hy
  case lowerBound | upperBound => exact Bound.writtenIn_of_ofTree h hy
  case arrayIndexRegion => exact IndexRegion.writtenIn_of_ofTree h hy
  case arrayIndex => exact ArrayIndex.writtenIn_of_ofTree h hy
  case indexedArray => exact IndexedArray.writtenIn_of_ofTree h hy
  case accessedVariable => exact AccessedVariable.writtenIn_of_ofTree h hy
  case booleans | strings | numbers => exact ArrayItems.writtenIn_of_ofTree h hy
  case inPlaceArray => exact InPlaceArray.writtenIn_of_ofTree h hy
  case functionCall => exact Expr.writtenIn_of_ofTree h (Expr.ofTree_of_functionCall hr hy)
  case valueReturningCode | atomicValue | argument => exact Expr.writtenIn_of_ofTree h hy
  case arithmeticStatement => exact writtenIn_of_arithmeticOfTree h hy
  case relationalStatement => exact writtenIn_of_relationalOfTree h hy
  case logicalStatement => exact writtenIn_of_logicalOfTree h hy
  case arguments => exact writtenIn_of_argumentsOfTree h hy
  case assignment => exact Assignment.writtenIn_of_ofTree h hy
  case subroutineCall => exact SubroutineCall.writtenIn_of_ofTree h hy
  all_goals trivial

/-- **Names and literals reproduce the source.**  Whatever rule a text is parsed from, every name and
every literal in the construct that it stands for is spelled as the text in its span, with parts that
are well-formed; a truth value is, up to case and to the noise behind its negation; and no list of
indices or of items is empty. -/
theorem writtenIn_of_parseConstruct {s : Text} {r : Rule} {o : Options} {x : Construct}
    (h : parseConstruct s r o = .ok x) : x.WrittenIn s := by
  obtain ⟨t, ht, hx⟩ := bind_eq_ok h
  exact @Construct.writtenIn_of_ofTree ⟨o.sourceName, s⟩ t x (grownAt_of_parse ht) hx

/-- A call with a kind behind a float, and with a comment behind a negation. -/
theorem writtenIn_of_continued_call :
    let s : Text := ['f', '(', '-', '1', '.', '5', '_', 'k', ',', '.', 'N', 'o', 't', '.', '&', '!',
      '.', 'n', 'o', 't', '.', '\n', '&', '.', 't', 'r', 'u', 'e', '.', ')']
    let n : Number := ⟨some .minus, .float ⟨['1'], ['5'], some ['k'], ⟨3, 8⟩⟩, ⟨2, 8⟩⟩
    let b : Boolean := ⟨true, true, ⟨9, 29⟩⟩
    let x : Construct := .functionCall ⟨⟨['f'], ⟨0, 1⟩⟩,
      [.literal (.number n), .literal (.boolean b)], ⟨0, 30⟩⟩
    parseConstruct s .functionCall {} = .ok x ∧ x.WrittenIn s ∧
      s.slice? 2 8 = some n.spell ∧ n.isWellFormed := by
  intro s n b x
  have hx : parseConstruct s .functionCall {} = .ok x := by decide +kernel
  have hwritten := writtenIn_of_parseConstruct hx
  obtain ⟨hslice, hwell, -⟩ : n.WrittenIn s := hwritten.2.1
  exact ⟨hx, hwritten, hslice, hwell⟩

end FreeForm
