import FreeForm.Lowering.Construct
import FreeForm.Proofs.ChildRules
import FreeForm.Proofs.LeafText

/-!
# Lowering never fails on a tree of a text

Lowering makes demands on a tree: that it has certain children, that operands and operators take
turns, that the text of a leaf is a literal.  The language of the children (`childRules`) and the
texts of the leaves meet every one of them, in every node of a tree that a parse or a search
returns.  The proof goes up from the children of a node to the node, with one lemma for each rule or
family of rules.
-/

namespace FreeForm

/-! ## Lowerings that give a result -/

section Succeeds

variable {α β : Type} {x : Lowered α} {f : α → Lowered β}

/-- The lowering gives a result. -/
def Succeeds (x : Lowered α) : Prop := ∃ a, x = .ok a

theorem succeeds_ok (a : α) : Succeeds (.ok a : Lowered α) := ⟨a, rfl⟩

@[simp] theorem succeeds_map {g : α → β} : Succeeds (g <$> x) ↔ Succeeds x := by
  cases x <;> simp [Succeeds, Functor.map, Except.map]

theorem Succeeds.bind (h : Succeeds x) (k : ∀ a, x = .ok a → Succeeds (f a)) :
    Succeeds (x >>= f) := by
  obtain ⟨a, rfl⟩ := h
  exact k a rfl

theorem bind_eq_ok {b : β} (h : x >>= f = .ok b) : ∃ a, x = .ok a ∧ f a = .ok b := by
  cases x with
  | error e => simp [Bind.bind, Except.bind] at h
  | ok a => exact ⟨a, rfl, h⟩

theorem succeeds_mapM {f : α → Lowered β} {l : List α} (h : ∀ a ∈ l, Succeeds (f a)) :
    Succeeds (l.mapM f) := by
  induction l with
  | nil => exact ⟨[], rfl⟩
  | cons a l ih =>
    rw [List.mapM_cons]
    refine (h a List.mem_cons_self).bind fun b _ => ?_
    exact (ih fun c hc => h c (List.mem_cons_of_mem a hc)).bind fun bs _ => succeeds_ok _

variable {source : Source} {t u : Tree} {r : Rule}

theorem Tree.mem_of_child? (h : t.child? r = some u) : u ∈ t.children ∧ u.rule = r :=
  ⟨List.mem_of_find?_eq_some h, by simpa using List.find?_some h⟩

theorem Tree.mem_of_childrenNamed (h : u ∈ t.childrenNamed r) : u ∈ t.children ∧ u.rule = r := by
  simpa [childrenNamed] using h

theorem Tree.map_rule_childrenNamed (t : Tree) (r : Rule) :
    (t.childrenNamed r).map Tree.rule = (t.children.map Tree.rule).filter (· = r) := by
  rw [childrenNamed, List.filter_map]
  rfl

theorem Tree.mem_of_required (h : t.required source r = .ok u) : u ∈ t.children ∧ u.rule = r := by
  unfold required at h
  split at h
  · rename_i v hv
    simp only [Except.ok.injEq] at h
    exact mem_of_child? (h ▸ hv)
  · simp at h

theorem succeeds_expect (h : t.rule = r) : Succeeds (t.expect source r) :=
  ⟨(), Tree.expect_eq_ok_iff.mpr h⟩

theorem succeeds_required (h : r ∈ t.children.map Tree.rule) : Succeeds (t.required source r) := by
  obtain ⟨u, hu, hr⟩ := List.mem_map.mp h
  unfold Tree.required
  split
  · exact succeeds_ok _
  · rename_i hn
    exact absurd hr (by simpa using List.find?_eq_none.mp hn u hu)

theorem succeeds_optional {lower : Tree → Lowered α}
    (h : ∀ u ∈ t.children, u.rule = r → Succeeds (lower u)) :
    Succeeds (t.optional r lower) := by
  unfold Tree.optional
  split
  · rename_i u hu
    obtain ⟨hm, hr⟩ := Tree.mem_of_child? hu
    exact succeeds_map.mpr (h u hm hr)
  · exact succeeds_ok _

end Succeeds

/-! ## The rules one by one -/

/-- The typed form of the tree exists. -/
def Lowers (source : Source) (t : Tree) : Prop := Succeeds (Construct.ofTree source t)

/-- The tree and all below it stand in the text, and its children have typed forms. -/
structure Ready (source : Source) (t : Tree) : Prop where
  grown : ∀ n ∈ t.nodes, n.GrownIn source.content
  lowers : ∀ u ∈ t.children, Lowers source u

namespace Ready

attribute [local simp] Lowers Construct.ofTree

variable {α : Type} {source : Source} {t u : Tree} {p q r : Rule}

theorem grown_self (h : Ready source t) : t.GrownIn source.content := h.grown t t.self_mem_nodes

theorem grown_child (h : Ready source t) (hu : u ∈ t.children) : u.GrownIn source.content :=
  h.grown u (Tree.mem_nodes_iff.mpr (.inr ⟨u, hu, u.self_mem_nodes⟩))

theorem map_rule_mem (h : Ready source t) (hr : t.rule = r) :
    t.children.map Tree.rule ∈ r.production.childRules := hr ▸ h.grown_self.map_rule_mem

/-- A child that the right-hand side leaves in any case is there. -/
theorem mem_map_rule (h : Ready source t) (hr : t.rule = r) (hd : r.production.demands [q]) :
    q ∈ t.children.map Tree.rule := by
  obtain ⟨p, hp, hm⟩ := Production.exists_mem_of_demands hd (h.map_rule_mem hr)
  rwa [← List.mem_singleton.mp hp]

/-- Where one of two children has to be there and the first is not, the second is. -/
theorem mem_map_rule_of_not_mem (h : Ready source t) (hr : t.rule = r)
    (hd : r.production.demands [p, q]) (hp : t.child? p = none) :
    q ∈ t.children.map Tree.rule := by
  obtain ⟨x, hx, hm⟩ := Production.exists_mem_of_demands hd (h.map_rule_mem hr)
  rcases List.mem_pair.mp hx with rfl | rfl
  · obtain ⟨u, hu, hur⟩ := List.mem_map.mp hm
    exact absurd hur (by simpa using List.find?_eq_none.mp hp u hu)
  · exact hm

/-- Where a right-hand side leaves just one tree, this is the only child. -/
theorem only_child (h : Ready source t) (hr : t.rule = r) (p : Rule) (ps : List Rule)
    (hl : r.production.childRules = (Phrase.anyOf p ps).childRules) :
    ∃ u, t.children = [u] ∧ u.rule ∈ p :: ps ∧ Lowers source u := by
  have hm := h.map_rule_mem hr
  rw [hl] at hm
  obtain ⟨q, hq, hc⟩ := Phrase.mem_childRules_anyOf.mp hm
  obtain ⟨u, hu, rfl⟩ := List.map_eq_singleton_iff.mp hc
  exact ⟨u, hu, hq, h.lowers u (by simp [hu])⟩

theorem succeeds_firstChild {us : List Tree} {e : String} (hc : t.children = u :: us) :
    t.firstChild source e = .ok u := by
  rw [Tree.firstChild, hc]

/-! ### Names and literals -/

theorem identifier (hr : t.rule = .name) : Succeeds (Identifier.ofTree source t) :=
  (succeeds_expect hr).bind fun _ _ => succeeds_ok _

theorem requiredIdentifier (hm : .name ∈ t.children.map Tree.rule) {f : Identifier → Lowered α}
    (hf : ∀ x, Succeeds (f x)) :
    Succeeds (t.required source .name >>= fun u => Identifier.ofTree source u >>= f) :=
  (succeeds_required hm).bind fun _ hu =>
    (identifier (Tree.mem_of_required hu).2).bind fun x _ => hf x

theorem kind (h : Ready source t) (hr : t.rule = .precisionSpec) :
    Succeeds (kindOfTree source t) := by
  obtain ⟨u, hu, -⟩ := h.only_child hr .name [.digits] (one_mul _)
  refine (succeeds_expect hr).bind fun _ _ => ?_
  rw [succeeds_firstChild hu]
  exact succeeds_ok _

theorem optionalKind (h : Ready source t) :
    Succeeds (t.optional .precisionSpec (kindOfTree source)) :=
  succeeds_optional fun _ hu hr => by simpa [hr] using h.lowers _ hu

theorem integer (h : Ready source t) (hr : t.rule = .integer) :
    Succeeds (IntegerLiteral.ofTree source t) := by
  refine (succeeds_expect hr).bind fun _ _ => ?_
  refine (succeeds_required (h.mem_map_rule hr rfl)).bind fun _ _ => ?_
  exact h.optionalKind.bind fun _ _ => succeeds_ok _

/-- A float has digits on both sides of its point. -/
theorem childrenNamed_digits (h : Ready source t) (hr : t.rule = .float) :
    ∃ u v, t.childrenNamed .digits = [u, v] := by
  have hm := h.map_rule_mem hr
  have hl : [.digits, .digits] = t.children.map Tree.rule ∨
      [.digits, .digits, .precisionSpec] = t.children.map Tree.rule := by
    simpa [Rule.production, Production.childRules, Phrase.inOrder, Phrase.punct,
      Phrase.childRules, Language.mem_mul, Language.mem_add, Language.mem_one, or_and_right,
      exists_or] using hm
  have hd : (t.childrenNamed .digits).map Tree.rule = [.digits, .digits] := by
    rw [Tree.map_rule_childrenNamed]
    rcases hl with hl | hl <;> rw [← hl] <;> rfl
  obtain ⟨u, us, hu, -, hus⟩ := List.map_eq_cons_iff.mp hd
  obtain ⟨v, rfl, -⟩ := List.map_eq_singleton_iff.mp hus
  exact ⟨u, v, hu⟩

theorem float (h : Ready source t) (hr : t.rule = .float) :
    Succeeds (FloatLiteral.ofTree source t) := by
  obtain ⟨u, v, huv⟩ := h.childrenNamed_digits hr
  refine (succeeds_expect hr).bind fun _ _ => ?_
  rw [huv]
  exact h.optionalKind.bind fun _ _ => succeeds_ok _

theorem sign (h : t.GrownIn source.content) (hr : t.rule = .sign) :
    Succeeds (Sign.ofTree source t) := by
  unfold Sign.ofTree
  rcases h.text_sign hr with ht | ht <;> rw [ht] <;> exact succeeds_ok _

theorem optionalSign (h : Ready source t) : Succeeds (t.optional .sign (Sign.ofTree source)) :=
  succeeds_optional fun _ hu hr => sign (h.grown_child hu) hr

/-- The digits of an integer are digits. -/
theorem isDigitRun_digits (h : ∀ n ∈ t.nodes, n.GrownIn source.content) {x : IntegerLiteral}
    (hx : IntegerLiteral.ofTree source t = .ok x) : isDigitRun x.digits := by
  obtain ⟨-, -, hx⟩ := bind_eq_ok hx
  obtain ⟨u, hu, hx⟩ := bind_eq_ok hx
  obtain ⟨k, -, hx⟩ := bind_eq_ok hx
  obtain rfl := Except.ok.inj hx
  obtain ⟨hm, hr⟩ := Tree.mem_of_required hu
  exact (h u (Tree.mem_nodes_of_child hm)).isDigitRun_text hr

/-- The parts of a float are digits. -/
theorem isDigitRun_whole_fraction (h : ∀ n ∈ t.nodes, n.GrownIn source.content)
    {x : FloatLiteral} (hx : FloatLiteral.ofTree source t = .ok x) :
    isDigitRun x.whole ∧ isDigitRun x.fraction := by
  obtain ⟨-, -, hx⟩ := bind_eq_ok hx
  split at hx
  · rename_i u v us huv
    obtain ⟨k, -, hx⟩ := bind_eq_ok hx
    obtain rfl := Except.ok.inj hx
    have hd : ∀ w ∈ t.childrenNamed .digits, isDigitRun (w.text source.content) := fun w hw =>
      have hw := Tree.mem_of_childrenNamed hw
      (h w (Tree.mem_nodes_of_child hw.1)).isDigitRun_text hw.2
    exact ⟨hd u (by simp [huv]), hd v (by simp [huv])⟩
  · simp at hx

theorem isDecimal_literal (h : Ready source t) {x : NumberLiteral}
    (hx : NumberLiteral.ofTree source t = .ok x) : x.isDecimal := by
  have hn : ∀ u ∈ t.children, ∀ n ∈ u.nodes, n.GrownIn source.content :=
    fun u hu n hn => h.grown n (Tree.mem_nodes_iff.mpr (.inr ⟨u, hu, hn⟩))
  unfold NumberLiteral.ofTree at hx
  split at hx
  · rename_i u hu
    obtain ⟨hm, -⟩ := Tree.mem_of_child? hu
    cases hf : FloatLiteral.ofTree source u with
    | error e => simp [hf, Except.map] at hx
    | ok y =>
      simp only [hf, Except.map, Except.ok.injEq] at hx
      obtain ⟨hw, hp⟩ := isDigitRun_whole_fraction (hn u hm) hf
      simp [← hx, NumberLiteral.isDecimal, hw, hp]
  · obtain ⟨u, hu, hx⟩ := bind_eq_ok hx
    obtain ⟨y, hy, hx⟩ := bind_eq_ok hx
    obtain rfl := Except.ok.inj hx
    exact isDigitRun_digits (hn u (Tree.mem_of_required hu).1) hy

theorem numberLiteral (h : Ready source t) (hr : t.rule = .number) :
    Succeeds (NumberLiteral.ofTree source t) := by
  unfold NumberLiteral.ofTree
  split
  · rename_i u hu
    obtain ⟨hm, hur⟩ := Tree.mem_of_child? hu
    exact succeeds_map.mpr (by simpa [hur] using h.lowers u hm)
  · rename_i hn
    have hm := h.mem_map_rule_of_not_mem hr (q := .integer) rfl hn
    refine (succeeds_required hm).bind fun u hu => ?_
    obtain ⟨hu, hur⟩ := Tree.mem_of_required hu
    have hi : Succeeds (IntegerLiteral.ofTree source u) := by simpa [hur] using h.lowers u hu
    exact hi.bind fun _ _ => succeeds_ok _

theorem number (h : Ready source t) (hr : t.rule = .number) :
    Succeeds (Number.ofTree source t) := by
  refine (succeeds_expect hr).bind fun _ _ => ?_
  refine h.optionalSign.bind fun _ _ => ?_
  refine (h.numberLiteral hr).bind fun x hx => ?_
  rw [if_pos (h.isDecimal_literal hx)]
  exact succeeds_ok _

theorem string (h : Ready source t) (hr : t.rule = .string) :
    Succeeds (StringLiteral.ofTree source t) := by
  obtain ⟨q, b, hb, hq, -⟩ := h.grown_self.text_string hr
  refine (succeeds_expect hr).bind fun _ _ => ?_
  have hu : unquote? (t.text source.content) = some (q, b) := by
    simp [hb, unquote?, hq]
  rw [hu]
  exact succeeds_ok _

theorem truthValue (h : t.GrownIn source.content) (hr : t.rule = .booleanValue) :
    ∃ b, truthValue? (t.text source.content) = some b := by
  unfold truthValue?
  rcases h.map_toLower_text hr with ht | ht <;> rw [ht] <;> simp

theorem boolean (h : Ready source t) (hr : t.rule = .boolean ∨ t.rule = .booleanValue) :
    Succeeds (Boolean.ofTree source t) := by
  have hp : ∃ b u, Boolean.parts source t = .ok (b, u) ∧ u.GrownIn source.content ∧
      u.rule = .booleanValue := by
    unfold Boolean.parts
    rcases hr with hr | hr <;> rw [hr]
    · have hq : Succeeds (t.required source .booleanValue) :=
        succeeds_required (h.mem_map_rule hr rfl)
      obtain ⟨u, hu⟩ := hq
      obtain ⟨hm, hur⟩ := Tree.mem_of_required hu
      exact ⟨_, u, by rw [hu]; rfl, h.grown_child hm, hur⟩
    · exact ⟨false, t, rfl, h.grown_self, hr⟩
  obtain ⟨b, u, hbu, hu, hur⟩ := hp
  obtain ⟨v, hv⟩ := truthValue hu hur
  refine Succeeds.bind ⟨_, hbu⟩ fun x hx => ?_
  obtain rfl := Except.ok.inj (hbu.symm.trans hx)
  simp only [hv]
  exact succeeds_ok _

/-! ### Arrays of literals -/

theorem childrenNamed {f : Tree → Lowered α} (h : Ready source t)
    (hf : ∀ u, u.rule = r → Lowers source u → Succeeds (f u)) :
    Succeeds ((t.childrenNamed r).mapM f) := by
  refine succeeds_mapM fun u hu => ?_
  obtain ⟨hm, hr⟩ := Tree.mem_of_childrenNamed hu
  exact hf u hr (h.lowers u hm)

theorem arrayItems (h : Ready source t)
    (hr : t.rule = .booleans ∨ t.rule = .strings ∨ t.rule = .numbers) :
    Succeeds (ArrayItems.ofTree source t) := by
  unfold ArrayItems.ofTree
  rcases hr with hr | hr | hr <;> rw [hr] <;> refine succeeds_map.mpr (h.childrenNamed ?_) <;>
    intro u hu hl <;> simpa [hu] using hl

theorem inPlaceArray (h : Ready source t) (hr : t.rule = .inPlaceArray) :
    Succeeds (InPlaceArray.ofTree source t) := by
  have hl : Rule.inPlaceArray.production.childRules =
      (Phrase.anyOf .booleans [.strings, .numbers]).childRules := by
    simp [Rule.production, Production.childRules, Phrase.inOrder, Phrase.punct, Phrase.childRules]
  obtain ⟨u, hu, hur, hul⟩ := h.only_child hr _ _ hl
  refine (succeeds_expect hr).bind fun _ _ => ?_
  rw [succeeds_firstChild hu]
  have hi : Succeeds (ArrayItems.ofTree source u) := by
    simp only [List.mem_cons, List.not_mem_nil, or_false] at hur
    rcases hur with hur | hur | hur <;> simpa [hur] using hul
  exact hi.bind fun _ _ => succeeds_ok _

/-! ### Access to variables -/

theorem bound (h : Ready source t) (hr : t.rule = .lowerBound ∨ t.rule = .upperBound) :
    Succeeds (Bound.ofTree source t) := by
  have hc : ∃ u, t.children = [u] ∧ u.rule ∈ [Rule.integer, .name] ∧ Lowers source u := by
    rcases hr with hr | hr <;> exact h.only_child hr _ _ rfl
  obtain ⟨u, hu, hur, hul⟩ := hc
  unfold Bound.ofTree
  rw [succeeds_firstChild hu]
  simp only [List.mem_cons, List.not_mem_nil, or_false] at hur
  rcases hur with hur | hur <;> simpa [hur, bind, Except.bind] using hul

theorem indexRegion (h : Ready source t) (hr : t.rule = .arrayIndexRegion) :
    Succeeds (IndexRegion.ofTree source t) := by
  refine (succeeds_expect hr).bind fun _ _ => ?_
  refine Succeeds.bind (succeeds_optional fun u hu hr => ?_) fun _ _ => ?_
  · simpa [hr] using h.lowers u hu
  refine Succeeds.bind (succeeds_optional fun u hu hr => ?_) fun _ _ => succeeds_ok _
  simpa [hr] using h.lowers u hu

theorem arrayIndex (h : Ready source t) (hr : t.rule = .arrayIndex) :
    Succeeds (ArrayIndex.ofTree source t) := by
  obtain ⟨u, hu, hur, hul⟩ := h.only_child hr .arrayIndexRegion [.integer, .name] rfl
  refine (succeeds_expect hr).bind fun _ _ => ?_
  rw [succeeds_firstChild hu]
  simp only [List.mem_cons, List.not_mem_nil, or_false] at hur
  rcases hur with hur | hur | hur <;> simpa [hur, bind, Except.bind] using hul

theorem indexedArray (h : Ready source t) (hr : t.rule = .indexedArray) :
    Succeeds (IndexedArray.ofTree source t) := by
  refine (succeeds_expect hr).bind fun _ _ => ?_
  refine requiredIdentifier (h.mem_map_rule hr rfl) fun x => ?_
  have hi : Succeeds ((t.childrenNamed .arrayIndex).mapM (ArrayIndex.ofTree source)) :=
    h.childrenNamed fun u hu hl => by simpa [hu] using hl
  exact hi.bind fun _ _ => succeeds_ok _

theorem variableRef (h : Ready source t) (hr : t.rule = .accessedVariable) :
    Succeeds (VariableRef.ofTree source t) := by
  unfold VariableRef.ofTree
  split
  · rename_i u hu
    obtain ⟨hm, hur⟩ := Tree.mem_of_child? hu
    exact succeeds_map.mpr (by simpa [hur] using h.lowers u hm)
  · rename_i hn
    exact requiredIdentifier (h.mem_map_rule_of_not_mem hr rfl hn) fun x => succeeds_ok _

theorem accessedVariable (h : Ready source t) (hr : t.rule = .accessedVariable) :
    Succeeds (AccessedVariable.ofTree source t) := by
  refine (succeeds_expect hr).bind fun _ _ => ?_
  refine (h.variableRef hr).bind fun _ _ => ?_
  exact h.optionalSign.bind fun _ _ => succeeds_ok _

/-! ### Expressions -/

/-- The rules of the trees that are expressions. -/
def exprRules : List Rule :=
  [.functionCall, .inPlaceArray, .number, .string, .boolean, .accessedVariable,
   .valueReturningCode, .atomicValue, .argument]

/-- A function call is lowered in the same way as an expression and on its own. -/
theorem ofTree_functionCall (hr : t.rule = .functionCall) :
    Expr.ofTree source t = FunctionCall.toExpr <$> FunctionCall.ofTree source t := by
  obtain ⟨r, s, ts⟩ := t
  obtain rfl : r = .functionCall := hr
  rw [Expr.ofTree, FunctionCall.ofTree, Tree.expect, if_pos rfl]
  cases hn : (⟨.functionCall, s, ts⟩ : Tree).required source .name with
  | error e => rfl
  | ok u =>
    cases hi : Identifier.ofTree source u with
    | error e => simp [bind, Except.bind, hi, Functor.map, Except.map]
    | ok x =>
      cases Expr.argumentsIn source ts <;>
        simp [bind, Except.bind, hi, Functor.map, Except.map, pure, Except.pure,
          FunctionCall.toExpr]

/-- A tree of one of the rules for expressions that has a typed form is an expression. -/
theorem expr_of_lowers (hl : Lowers source t) (hr : t.rule ∈ exprRules) :
    Succeeds (Expr.ofTree source t) := by
  by_cases hc : t.rule = .functionCall
  · rw [ofTree_functionCall hc, succeeds_map]
    simpa [hc] using hl
  · obtain ⟨r, s, ts⟩ := t
    simp only [exprRules, List.mem_cons, List.not_mem_nil, or_false] at hr hc
    rcases hr with rfl | rfl | rfl | rfl | rfl | rfl | rfl | rfl | rfl
    · exact absurd rfl hc
    all_goals first
      | simpa using hl
      | simpa [Expr.ofTree] using hl

theorem ofArguments {ts : List Tree}
    (h : ∀ u ∈ ts, u.rule = .argument → Succeeds (Expr.ofTree source u)) :
    Succeeds (Expr.ofArguments source ts) := by
  induction ts with
  | nil => exact succeeds_ok _
  | cons t ts ih =>
    have ht := ih fun u hu => h u (List.mem_cons_of_mem t hu)
    rw [Expr.ofArguments]
    split
    · rename_i hr
      exact (h t List.mem_cons_self hr).bind fun _ _ => ht.bind fun _ _ => succeeds_ok _
    · exact ht

theorem arguments (h : Ready source t) (hr : t.rule = .arguments) :
    Succeeds (argumentsOfTree source t) := by
  refine (succeeds_expect hr).bind fun _ _ => ofArguments fun u hu hur => ?_
  exact expr_of_lowers (h.lowers u hu) (by rw [hur]; decide)

theorem argumentsIn {ts : List Tree} (h : ∀ u ∈ ts, Lowers source u) :
    Succeeds (Expr.argumentsIn source ts) := by
  induction ts with
  | nil => exact succeeds_ok _
  | cons t ts ih =>
    obtain ⟨r, s, us⟩ := t
    rw [Expr.argumentsIn]
    split
    · rename_i hr
      have ha : Succeeds (argumentsOfTree source ⟨r, s, us⟩) := by
        simpa [hr] using h _ List.mem_cons_self
      rwa [argumentsOfTree, Tree.expect, if_pos hr] at ha
    · exact ih fun u hu => h u (List.mem_cons_of_mem _ hu)

theorem functionCall (h : Ready source t) (hr : t.rule = .functionCall) :
    Succeeds (FunctionCall.ofTree source t) := by
  refine (succeeds_expect hr).bind fun _ _ => ?_
  refine requiredIdentifier (h.mem_map_rule hr rfl) fun x => ?_
  exact (argumentsIn h.lowers).bind fun _ _ => succeeds_ok _

/-- A tree that only wraps an expression. -/
theorem wrapper (h : Ready source t)
    (hr : t.rule = .valueReturningCode ∨ t.rule = .atomicValue ∨ t.rule = .argument) :
    Succeeds (Expr.ofTree source t) := by
  have hc : ∃ u, t.children = [u] ∧ Lowers source u ∧ u.rule ∈ exprRules := by
    rcases hr with hr | hr | hr
    · obtain ⟨u, hu, hur, hl⟩ := h.only_child hr .functionCall
        [.inPlaceArray, .atomicValue, .accessedVariable] rfl
      exact ⟨u, hu, hl, List.forall_iff_forall_mem.mp (by simp [exprRules]) _ hur⟩
    · obtain ⟨u, hu, hur, hl⟩ := h.only_child hr .boolean [.string, .number] rfl
      exact ⟨u, hu, hl, List.forall_iff_forall_mem.mp (by simp [exprRules]) _ hur⟩
    · obtain ⟨u, hu, hur, hl⟩ := h.only_child hr .valueReturningCode [] rfl
      exact ⟨u, hu, hl, List.forall_iff_forall_mem.mp (by simp [exprRules]) _ hur⟩
  obtain ⟨u, hu, hl, hur⟩ := hc
  have he := expr_of_lowers hl hur
  obtain ⟨r, s, ts⟩ := t
  obtain rfl : ts = [u] := hu
  rcases hr with rfl | rfl | rfl <;> rwa [Expr.ofTree, Expr.ofFirst]

/-! ### Operators and chains -/

section Chains

variable {ω : Type}

/-- An operator has a typed form if its rule is one that `ofRule?` knows. -/
theorem operator_of_rule {family : Rule} {ofRule? : Rule → Option ω} {described : String}
    (hf : t.rule ≠ family) (ho : (ofRule? t.rule).isSome) :
    Succeeds (operatorOfTree source family ofRule? described t) := by
  obtain ⟨r, s, ts⟩ := t
  rw [operatorOfTree]
  simp only [if_neg hf]
  obtain ⟨o, ho⟩ := Option.isSome_iff_exists.mp ho
  rw [ho]
  exact succeeds_ok _

/-- A tree of a family of operators has the typed form of its only child. -/
theorem operator_of_family (h : Ready source t) {family p : Rule} {ps : List Rule}
    {ofRule? : Rule → Option ω} {described : String} (hr : t.rule = family)
    (hl : family.production.childRules = (Phrase.anyOf p ps).childRules)
    (hk : ∀ q ∈ p :: ps, q ≠ family ∧ (ofRule? q).isSome) :
    Succeeds (operatorOfTree source family ofRule? described t) := by
  obtain ⟨u, hu, hur, -⟩ := h.only_child hr p ps hl
  obtain ⟨r, s, ts⟩ := t
  obtain rfl : ts = [u] := hu
  obtain rfl : r = family := hr
  rw [operatorOfTree]
  simp only [if_pos, operatorOfFirst]
  exact operator_of_rule (hk _ hur).1 (hk _ hur).2

theorem arithmeticOperator (h : Ready source t) (hr : t.rule = .arithmeticOperator) :
    Succeeds (ArithmeticOperator.ofTree source t) :=
  h.operator_of_family hr (p := .power) rfl (by decide)

theorem relationalOperator (h : Ready source t) (hr : t.rule = .relationalOperator) :
    Succeeds (RelationalOperator.ofTree source t) :=
  h.operator_of_family hr (p := .equality) rfl (by decide)

theorem logicalOperator (h : Ready source t) (hr : t.rule = .logicalOperator) :
    Succeeds (LogicalOperator.ofTree source t) :=
  h.operator_of_family hr (p := .logicalAnd) rfl (by decide)

variable {parts : Chain.Parts ω α}

/-- Operators and operands in turn are the rest of a chain. -/
theorem afterOperand (n : Nat) {us : List Tree}
    (hus : us.map Tree.rule =
      (List.replicate n [parts.operatorRule, parts.operandRule]).flatten)
    (hx : ∀ u ∈ us, u.rule = parts.operandRule → Succeeds (parts.operand u))
    (ho : ∀ u ∈ us, u.rule = parts.operatorRule → Succeeds (parts.operator u)) :
    Succeeds (Chain.afterOperand source parts t us) := by
  induction n generalizing us with
  | zero =>
    obtain rfl := List.map_eq_nil_iff.mp hus
    exact succeeds_ok _
  | succ n ih =>
    rw [List.replicate_succ, List.flatten_cons, List.cons_append] at hus
    obtain ⟨o, vs, rfl, hor, hvs⟩ := List.map_eq_cons_iff.mp hus
    obtain ⟨x, ws, rfl, hxr, hws⟩ := List.map_eq_cons_iff.mp hvs
    have hw := ih hws (fun u hu => hx u (by simp [hu])) (fun u hu => ho u (by simp [hu]))
    rw [Chain.afterOperand, if_pos hor]
    refine (ho o (by simp) hor).bind fun _ _ => ?_
    rw [Chain.afterOperator, if_pos hxr]
    exact (hx x (by simp) hxr).bind fun _ _ => hw.bind fun _ _ => succeeds_ok _

theorem chain (h : Ready source t)
    (hr : t.rule.production = .spaced (Phrase.chain parts.operandRule parts.operatorRule))
    (hx : ∀ u, u.rule = parts.operandRule → Lowers source u → Succeeds (parts.operand u))
    (ho : ∀ u, u.rule = parts.operatorRule → Lowers source u → Succeeds (parts.operator u)) :
    Succeeds (Chain.ofTree source parts t) := by
  have hm := h.map_rule_mem rfl
  rw [hr] at hm
  obtain ⟨n, hn⟩ := Phrase.mem_childRules_chain.mp hm
  obtain ⟨x, us, hus, hxr, hn⟩ := List.map_eq_cons_iff.mp hn
  have hl : ∀ u ∈ x :: us, Lowers source u := fun u hu => h.lowers u (hus ▸ hu)
  rw [Chain.ofTree, hus]
  simp only [if_pos hxr]
  refine (hx x hxr (hl x List.mem_cons_self)).bind fun _ _ => ?_
  refine Succeeds.bind (afterOperand n hn (fun u hu hur => ?_) fun u hu hur => ?_)
    fun _ _ => succeeds_ok _
  · exact hx u hur (hl u (List.mem_cons_of_mem x hu))
  · exact ho u hur (hl u (List.mem_cons_of_mem x hu))

theorem arithmetic (h : Ready source t) (hr : t.rule = .arithmeticStatement) :
    Succeeds (arithmeticOfTree source t) := by
  refine (succeeds_expect hr).bind fun _ _ => h.chain (by rw [hr]; rfl) ?_ ?_
  · exact fun u hu hl => expr_of_lowers hl (by simp [hu, exprRules])
  · exact fun u hu hl => by simpa [hu] using hl

theorem relational (h : Ready source t) (hr : t.rule = .relationalStatement) :
    Succeeds (relationalOfTree source t) := by
  refine (succeeds_expect hr).bind fun _ _ => h.chain (by rw [hr]; rfl) ?_ ?_ <;>
    exact fun u hu hl => by simpa [hu] using hl

theorem logical (h : Ready source t) (hr : t.rule = .logicalStatement) :
    Succeeds (logicalOfTree source t) := by
  refine (succeeds_expect hr).bind fun _ _ => h.chain (by rw [hr]; rfl) ?_ ?_ <;>
    exact fun u hu hl => by simpa [hu] using hl

end Chains

/-! ### Statements -/

theorem assignment (h : Ready source t) (hr : t.rule = .assignment) :
    Succeeds (Assignment.ofTree source t) := by
  refine (succeeds_expect hr).bind fun _ _ => ?_
  refine (succeeds_required (h.mem_map_rule hr rfl)).bind fun u hu => ?_
  obtain ⟨hu, hur⟩ := Tree.mem_of_required hu
  have hv : Succeeds (AccessedVariable.ofTree source u) := by simpa [hur] using h.lowers u hu
  refine hv.bind fun _ _ => ?_
  refine (succeeds_required (h.mem_map_rule hr rfl)).bind fun v hv => ?_
  obtain ⟨hv, hvr⟩ := Tree.mem_of_required hv
  have he := expr_of_lowers (h.lowers v hv) (by rw [hvr]; decide)
  exact he.bind fun _ _ => succeeds_ok _

theorem subroutineCall (h : Ready source t) (hr : t.rule = .subroutineCall) :
    Succeeds (SubroutineCall.ofTree source t) := by
  refine (succeeds_expect hr).bind fun _ _ => ?_
  refine requiredIdentifier (h.mem_map_rule hr rfl) fun x => ?_
  have ha : Succeeds (SubroutineCall.argumentsIn source t x) := by
    unfold SubroutineCall.argumentsIn
    split
    · rename_i u hu
      obtain ⟨hm, hur⟩ := Tree.mem_of_child? hu
      exact succeeds_map.mpr (by simpa [hur] using h.lowers u hm)
    · exact succeeds_ok _
  exact ha.bind fun _ _ => succeeds_ok _

/-- A tree whose children have typed forms has one. -/
theorem lowers_self (h : Ready source t) : Lowers source t := by
  cases hr : t.rule <;> simp only [Lowers, Construct.ofTree, hr, succeeds_map, succeeds_ok]
  case name => exact identifier hr
  case precisionSpec => exact h.kind hr
  case integer => exact h.integer hr
  case float => exact h.float hr
  case sign => exact sign h.grown_self hr
  case number => exact h.number hr
  case string => exact h.string hr
  case booleanValue => exact h.boolean (.inr hr)
  case boolean => exact h.boolean (.inl hr)
  case arithmeticOperator => exact h.arithmeticOperator hr
  case relationalOperator => exact h.relationalOperator hr
  case logicalOperator => exact h.logicalOperator hr
  case lowerBound => exact h.bound (.inl hr)
  case upperBound => exact h.bound (.inr hr)
  case arrayIndexRegion => exact h.indexRegion hr
  case arrayIndex => exact h.arrayIndex hr
  case indexedArray => exact h.indexedArray hr
  case accessedVariable => exact h.accessedVariable hr
  case booleans => exact h.arrayItems (.inl hr)
  case strings => exact h.arrayItems (.inr (.inl hr))
  case numbers => exact h.arrayItems (.inr (.inr hr))
  case inPlaceArray => exact h.inPlaceArray hr
  case functionCall => exact h.functionCall hr
  case valueReturningCode => exact h.wrapper (.inl hr)
  case atomicValue => exact h.wrapper (.inr (.inl hr))
  case argument => exact h.wrapper (.inr (.inr hr))
  case arithmeticStatement => exact h.arithmetic hr
  case relationalStatement => exact h.relational hr
  case logicalStatement => exact h.logical hr
  case arguments => exact h.arguments hr
  case assignment => exact h.assignment hr
  case subroutineCall => exact h.subroutineCall hr
  all_goals exact operator_of_rule (by rw [hr]; decide) (by rw [hr]; rfl)

end Ready

/-! ## Whole trees -/

/-- A tree that stands in a text with all its nodes has a typed form. -/
theorem lowers_of_grown (source : Source) :
    ∀ t : Tree, (∀ n ∈ t.nodes, n.GrownIn source.content) → Lowers source t := by
  refine Tree.induction_on_children fun t ih h => Ready.lowers_self ⟨h, fun u hu => ?_⟩
  exact ih u hu fun n hn => h n (Tree.mem_nodes_iff.mpr (.inr ⟨u, hu, hn⟩))

theorem lowers_nodes (source : Source) {t : Tree}
    (h : ∀ n ∈ t.nodes, n.GrownIn source.content) : ∀ n ∈ t.nodes, Lowers source n :=
  fun n hn => lowers_of_grown source n fun m hm => h m (Tree.mem_nodes_trans hn hm)

/-- **Lowering never fails.**  Every node of a tree that a parse or a search of a source returns has
a typed form, whatever name is given to the source.  Where `parse` returns a tree, `parseConstruct`
returns the typed form of it, and elsewhere the error of `parse`. -/
theorem construct_of_parse_or_locate (s : Text) (r : Rule) (o : Options) (name : String) :
    (∀ t, parse s r o = .ok t → ∀ n ∈ t.nodes, ∃ x, Construct.ofTree ⟨name, s⟩ n = .ok x) ∧
    (∀ t ∈ locate s r o, ∀ n ∈ t.nodes, ∃ x, Construct.ofTree ⟨name, s⟩ n = .ok x) ∧
    (∀ t, parse s r o = .ok t →
      ∃ x, parseConstruct s r o = .ok x ∧ Construct.ofTree ⟨o.sourceName, s⟩ t = .ok x) ∧
    ∀ e, parse s r o = .error e → parseConstruct s r o = .error e := by
  refine ⟨fun t h => ?_, fun t h => ?_, fun t h => ?_, fun e h => ?_⟩
  · exact lowers_nodes ⟨name, s⟩ (grownIn_of_parse h)
  · exact lowers_nodes ⟨name, s⟩ (grownIn_of_mem_locate h)
  · obtain ⟨x, hx⟩ := lowers_of_grown ⟨o.sourceName, s⟩ t (grownIn_of_parse h)
    exact ⟨x, by rw [parseConstruct, parseAs, h]; exact hx, hx⟩
  · rw [parseConstruct, parseAs, h]
    rfl

/-- A signed array with a region, found by a parse and by a search, where no name stands. -/
theorem construct_of_signed_array :
    ∃ t x y e, parse "-a(:)".toList .accessedVariable {} = .ok t ∧
      t ∈ locate "-a(:)".toList .accessedVariable {} ∧
      Construct.ofTree ⟨"a", "-a(:)".toList⟩ t = .ok x ∧
      parseConstruct "-a(:)".toList .accessedVariable {} = .ok y ∧
      parse "-a(:)".toList .name {} = .error e ∧
      parseConstruct "-a(:)".toList .name {} = .error e := by
  have ht : parse "-a(:)".toList .accessedVariable {} = .ok ⟨.accessedVariable, ⟨0, 5⟩,
      [⟨.sign, ⟨0, 1⟩, []⟩, ⟨.indexedArray, ⟨1, 5⟩, [⟨.name, ⟨1, 2⟩, []⟩,
        ⟨.arrayIndex, ⟨3, 4⟩, [⟨.arrayIndexRegion, ⟨3, 4⟩, []⟩]⟩]⟩]⟩ := by decide +kernel
  have hl : (⟨.accessedVariable, ⟨0, 5⟩,
      [⟨.sign, ⟨0, 1⟩, []⟩, ⟨.indexedArray, ⟨1, 5⟩, [⟨.name, ⟨1, 2⟩, []⟩,
        ⟨.arrayIndex, ⟨3, 4⟩, [⟨.arrayIndexRegion, ⟨3, 4⟩, []⟩]⟩]⟩]⟩ : Tree) ∈
      locate "-a(:)".toList .accessedVariable {} := by decide +kernel
  have he : parse "-a(:)".toList .name {} =
      .error ⟨.mismatch .name 0 [.name], ⟨"<fragment>", "-a(:)".toList⟩, ⟨0, 0⟩⟩ := by
    decide +kernel
  obtain ⟨-, k, hc, -⟩ := construct_of_parse_or_locate "-a(:)".toList .accessedVariable {} "a"
  obtain ⟨x, hx⟩ := k _ hl _ (Tree.self_mem_nodes _)
  obtain ⟨y, hy, -⟩ := hc _ ht
  exact ⟨_, x, y, _, ht, hl, hx, hy, he,
    (construct_of_parse_or_locate "-a(:)".toList .name {} "a").2.2.2 _ he⟩

end FreeForm
