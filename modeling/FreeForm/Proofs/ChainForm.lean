import FreeForm.Proofs.LoweringSteps

/-!
# Which children make up a chain

A tree that a parse returns has the children of a chain anyway; a tree put together in another way
may have any.  Provided that the parts of the chain lower the children of their rules, exactly the
trees whose children are an operand and then operators and operands in turn are lowered, with no
child left out.  All others are refused (`Chain.Refusal`), each with one of three errors.

`settles_afterOperand` goes along the children as the lowering does: what stands behind an operand
and what stands behind an operator are two cases of one induction.
-/

namespace FreeForm

namespace Chain

variable {ω α β γ : Type} {source : Source} {p : Parts ω α} {t : Tree}

/-- An operand, then an operator and an operand any number of times. -/
def Parts.Alternate (p : Parts ω α) (rs : List Rule) : Prop :=
  ∃ n, rs = p.operandRule :: (List.replicate n [p.operatorRule, p.operandRule]).flatten

/-- The errors about the tree `t` whose children do not make up a chain. -/
inductive Refusal (source : Source) (p : Parts ω α) (t : Tree) : ParseError → Prop
  /-- The children end where an operand is due. -/
  | ended : Refusal source p t (t.unexpected source "an operand after every operator")
  /-- An operand follows an operand. -/
  | operand {u : Tree} (hu : u ∈ t.children) (hr : u.rule = p.operandRule) :
    Refusal source p t (u.unexpected source "an operator between operands")
  /-- An operator stands where an operand is due, or a child is neither. -/
  | other {u : Tree} (hu : u ∈ t.children) (hr : u.rule ≠ p.operandRule) :
    Refusal source p t (u.unexpected source p.operandRule.toString)

/-- The lowering gives a result, or refuses the tree. -/
def Settles (source : Source) (p : Parts ω α) (t : Tree) (x : Lowered β) : Prop :=
  Succeeds x ∨ ∃ e, x = .error e ∧ Refusal source p t e

theorem settles_error {e : ParseError} (h : Refusal source p t e) :
    Settles source p t (.error e : Lowered β) :=
  .inr ⟨e, rfl, h⟩

theorem Settles.bind {x : Lowered β} {f : β → Lowered γ} (h : Settles source p t x)
    (hf : ∀ b, Settles source p t (f b)) : Settles source p t (x >>= f) := by
  rcases h with ⟨b, rfl⟩ | ⟨e, rfl, he⟩
  · exact hf b
  · exact settles_error he

/-! ## Every tree is lowered or refused -/

mutual

theorem settles_afterOperand
    (hx : ∀ u ∈ t.children, u.rule = p.operandRule → Succeeds (p.operand u))
    (ho : ∀ u ∈ t.children, u.rule = p.operatorRule → Succeeds (p.operator u)) :
    ∀ us ⊆ t.children, Settles source p t (afterOperand source p t us)
  | [], _ => .inl (succeeds_ok [])
  | u :: us, hus => by
    have hu : u ∈ t.children := hus List.mem_cons_self
    rw [afterOperand]
    split
    · rename_i hr
      exact Settles.bind (.inl (ho u hu hr)) fun o =>
        settles_afterOperator hx ho o us (List.subset_of_cons_subset hus)
    · split
      · rename_i hr
        exact Settles.bind (.inl (hx u hu hr)) fun _ => settles_error (.operand hu hr)
      · rename_i hr
        exact settles_error (.other hu hr)

theorem settles_afterOperator
    (hx : ∀ u ∈ t.children, u.rule = p.operandRule → Succeeds (p.operand u))
    (ho : ∀ u ∈ t.children, u.rule = p.operatorRule → Succeeds (p.operator u)) (o : Spanned ω) :
    ∀ us ⊆ t.children, Settles source p t (afterOperator source p t o us)
  | [], _ => settles_error .ended
  | u :: us, hus => by
    have hu : u ∈ t.children := hus List.mem_cons_self
    rw [afterOperator]
    split
    · rename_i hr
      have hrest := settles_afterOperand hx ho us (List.subset_of_cons_subset hus)
      exact Settles.bind (.inl (hx u hu hr)) fun _ => hrest.bind fun _ => .inl (succeeds_ok _)
    · rename_i hr
      exact settles_error (.other hu hr)

end

theorem settles_ofTree
    (hx : ∀ u ∈ t.children, u.rule = p.operandRule → Succeeds (p.operand u))
    (ho : ∀ u ∈ t.children, u.rule = p.operatorRule → Succeeds (p.operator u)) :
    Settles source p t (ofTree source p t) := by
  unfold ofTree
  split
  · exact settles_error .ended
  · rename_i u us hc
    have hu : u ∈ t.children := hc ▸ List.mem_cons_self
    have hus : us ⊆ t.children := hc ▸ List.subset_cons_self u us
    split
    · rename_i hr
      have hrest : Settles source p t (afterOperand source p t us) :=
        settles_afterOperand hx ho us hus
      exact Settles.bind (.inl (hx u hu hr)) fun _ => hrest.bind fun _ => .inl (succeeds_ok _)
    · rename_i hr
      exact settles_error (.other hu hr)

/-! ## Exactly the alternating ones are lowered -/

/-- Children that make up a chain are lowered. -/
theorem succeeds_of_alternate
    (hx : ∀ u ∈ t.children, u.rule = p.operandRule → Succeeds (p.operand u))
    (ho : ∀ u ∈ t.children, u.rule = p.operatorRule → Succeeds (p.operator u))
    (h : p.Alternate (t.children.map Tree.rule)) : Succeeds (ofTree source p t) := by
  obtain ⟨n, hn⟩ := h
  obtain ⟨u, us, hc, hr, hn⟩ := List.map_eq_cons_iff.mp hn
  have hus : us ⊆ t.children := hc ▸ List.subset_cons_self u us
  have hrest : Succeeds (afterOperand source p t us) :=
    Ready.afterOperand n hn (fun v hv => hx v (hus hv)) fun v hv => ho v (hus hv)
  rw [ofTree, hc]
  simp only [if_pos hr]
  exact (hx u (hc ▸ List.mem_cons_self) hr).bind fun _ _ => hrest.bind fun _ _ => succeeds_ok _

theorem Follows.map_rule {us : List Tree} {ys : List (Spanned ω × α)} (h : Follows p us ys) :
    us.map Tree.rule = (List.replicate ys.length [p.operatorRule, p.operandRule]).flatten := by
  induction h with
  | nil => rfl
  | @cons u v us o x ys hu _ hv _ _ ih =>
    rw [List.map_cons, List.map_cons, hu, hv, ih, List.length_cons, List.replicate_succ]
    rfl

/-- The pairs of a chain come from pairs of children, and these are all the children. -/
theorem Follows.exists_pairs {us : List Tree} {ys : List (Spanned ω × α)} (h : Follows p us ys) :
    ∃ vs : List (Tree × Tree), us = vs.flatMap (fun v => [v.1, v.2]) ∧
      List.Forall₂ (fun v y => p.operator v.1 = .ok y.1 ∧ p.operand v.2 = .ok y.2) vs ys := by
  induction h with
  | nil => exact ⟨[], rfl, .nil⟩
  | @cons u v _ _ _ _ _ ho _ hx _ ih =>
    obtain ⟨vs, rfl, hvs⟩ := ih
    exact ⟨(u, v) :: vs, rfl, .cons ⟨ho, hx⟩ hvs⟩

/-- **A chain is made of exactly the alternating sequences of children**, all of which it lists in
order; a tree with other children is refused. -/
theorem lowered_iff_alternate
    (hx : ∀ u ∈ t.children, u.rule = p.operandRule → ∃ x, p.operand u = .ok x)
    (ho : ∀ u ∈ t.children, u.rule = p.operatorRule → ∃ o, p.operator u = .ok o) :
    ((∃ c, ofTree source p t = .ok c) ↔ p.Alternate (t.children.map Tree.rule)) ∧
      (∀ c, ofTree source p t = .ok c → c.span = t.span ∧
        ∃ (u : Tree) (vs : List (Tree × Tree)),
          t.children = u :: vs.flatMap (fun v => [v.1, v.2]) ∧ p.operand u = .ok c.first ∧
          List.Forall₂ (fun v y => p.operator v.1 = .ok y.1 ∧ p.operand v.2 = .ok y.2) vs c.rest) ∧
      (¬ p.Alternate (t.children.map Tree.rule) →
        ∃ e, ofTree source p t = .error e ∧ Refusal source p t e) := by
  have hiff : (∃ c, ofTree source p t = .ok c) ↔ p.Alternate (t.children.map Tree.rule) := by
    refine ⟨fun ⟨c, h⟩ => ?_, succeeds_of_alternate hx ho⟩
    obtain ⟨-, u, us, hc, hu, -, hfollows⟩ := follows_of_ofTree h
    exact ⟨c.rest.length, by rw [hc, List.map_cons, hu, hfollows.map_rule]⟩
  refine ⟨hiff, fun c h => ?_, fun hn => ?_⟩
  · obtain ⟨hspan, u, us, hc, -, hu, hfollows⟩ := follows_of_ofTree h
    obtain ⟨vs, rfl, hvs⟩ := hfollows.exists_pairs
    exact ⟨hspan, u, vs, hc, hu, hvs⟩
  · exact (settles_ofTree hx ho).resolve_left fun h => hn (hiff.mp h)

/-- A sum, and one that ends with its operator. -/
theorem lowered_iff_alternate_of_sum :
    let source : Source := ⟨"sum", ['a', '+', 'b']⟩
    let p : Parts ArithmeticOperator Expr := ⟨.valueReturningCode, .arithmeticOperator,
      Expr.ofTree source, ArithmeticOperator.ofTree source⟩
    let operand (x : Span) : Tree :=
      ⟨.valueReturningCode, x, [⟨.accessedVariable, x, [⟨.name, x, []⟩]⟩]⟩
    let plus : Tree := ⟨.arithmeticOperator, ⟨1, 2⟩, [⟨.addition, ⟨1, 2⟩, []⟩]⟩
    let sum : Tree := ⟨.arithmeticStatement, ⟨0, 3⟩, [operand ⟨0, 1⟩, plus, operand ⟨2, 3⟩]⟩
    let cut : Tree := ⟨.arithmeticStatement, ⟨0, 2⟩, [operand ⟨0, 1⟩, plus]⟩
    (∃ c, ofTree source p sum = .ok c) ∧ ∃ e, ofTree source p cut = .error e ∧
      Refusal source p cut e := by
  intro source p operand plus sum cut
  have hx (x : Span) : ∃ e, p.operand (operand x) = .ok e := ⟨_, rfl⟩
  have ho : ∃ o, p.operator plus = .ok o := ⟨_, rfl⟩
  constructor
  · refine (lowered_iff_alternate ?_ ?_).1.mpr ⟨1, rfl⟩
    · simp [sum, hx, p, operand, plus]
    · simp [sum, ho, p, operand, plus]
  · refine (lowered_iff_alternate ?_ ?_).2.2 ?_
    · simp [cut, hx, p, operand, plus]
    · simp [cut, ho, p, operand, plus]
    · rintro ⟨_ | n, hn⟩
      · simp [cut] at hn
      · simp [cut, List.replicate_succ] at hn

end Chain

end FreeForm
