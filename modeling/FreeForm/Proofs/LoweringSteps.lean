import FreeForm.Proofs.Choices
import FreeForm.Proofs.LoweringTotal
import Mathlib.Data.List.Forall2

/-!
# The steps of a lowering

A lowering that gave a result is taken apart here: into what it demanded of the tree, and the
lowerings of the children that it went through.  For expressions this is `Expr.FromTree`, with one
case for each kind of tree; for chains it is `Chain.Follows`, which goes along the children.
-/

namespace FreeForm

section Lowered

variable {α β : Type} {source : Source} {t u : Tree} {r : Rule}

theorem map_eq_ok {g : α → β} {x : Lowered α} {b : β} (h : x.map g = .ok b) :
    ∃ a, x = .ok a ∧ g a = b := by
  cases x with
  | error e => simp [Except.map] at h
  | ok a => exact ⟨a, rfl, Except.ok.inj h⟩

/-- The results of a list of lowerings, one for each element. -/
theorem forall₂_of_mapM {f : α → Lowered β} {l : List α} {bs : List β} (h : l.mapM f = .ok bs) :
    List.Forall₂ (fun a b => f a = .ok b) l bs := by
  induction l generalizing bs with
  | nil =>
    obtain rfl := Except.ok.inj h
    exact .nil
  | cons a l ih =>
    rw [List.mapM_cons] at h
    obtain ⟨b, hb, h⟩ := bind_eq_ok h
    obtain ⟨bs, hbs, h⟩ := bind_eq_ok h
    obtain rfl := Except.ok.inj h
    exact .cons hb (ih hbs)

theorem exists_mem_of_forall₂ {R : α → β → Prop} {l : List α} {m : List β}
    (h : List.Forall₂ R l m) : ∀ b ∈ m, ∃ a ∈ l, R a b := by
  induction h with
  | nil => simp
  | cons hab _ ih =>
    intro b hb
    rcases List.mem_cons.mp hb with rfl | hb
    · exact ⟨_, List.mem_cons_self, hab⟩
    · obtain ⟨a, ha, hab⟩ := ih b hb
      exact ⟨a, List.mem_cons_of_mem _ ha, hab⟩

/-- What related elements have in common, their lists have. -/
theorem map_eq_map_of_forall₂ {γ : Type} {R : α → β → Prop} {g : α → γ} {k : β → γ} {l : List α}
    {m : List β} (h : List.Forall₂ R l m) (hR : ∀ a ∈ l, ∀ b, R a b → g a = k b) :
    l.map g = m.map k := by
  have hpairs := ((List.forall₂_and_left _ _).mpr ⟨hR, h⟩).imp fun a b hab => hab.1 b hab.2
  have hmaps := List.forall₂_map_left_iff.mpr (List.forall₂_map_right_iff.mpr hpairs)
  rwa [List.forall₂_eq_eq_eq] at hmaps

theorem Tree.rule_of_expect {x : Unit} (h : t.expect source r = .ok x) : t.rule = r :=
  expect_eq_ok_iff.mp h

theorem Tree.child?_of_required (h : t.required source r = .ok u) : t.child? r = some u := by
  unfold required at h
  split at h
  · rename_i v hv
    rw [hv, Except.ok.inj h]
  · simp at h

theorem Identifier.eq_of_ofTree {x : Identifier} (h : Identifier.ofTree source t = .ok x) :
    x = ⟨t.text source.content, t.span⟩ := by
  obtain ⟨_, -, h⟩ := bind_eq_ok h
  exact (Except.ok.inj h).symm

theorem Tree.optional_eq_ok {lower : Tree → Lowered α} {x : Option α}
    (h : t.optional r lower = .ok x) :
    t.child? r = none ∧ x = none ∨ ∃ u a, t.child? r = some u ∧ lower u = .ok a ∧ x = some a := by
  unfold optional at h
  split at h
  · rename_i u hu
    obtain ⟨a, ha, rfl⟩ := map_eq_ok h
    exact .inr ⟨u, a, hu, ha, rfl⟩
  · exact .inl ⟨‹_›, (Except.ok.inj h).symm⟩

theorem Tree.firstChild_eq_ok {expected : String} (h : t.firstChild source expected = .ok u) :
    ∃ us, t.children = u :: us := by
  unfold firstChild at h
  split at h
  · rename_i v us hc
    obtain rfl := Except.ok.inj h
    exact ⟨us, hc⟩
  · simp at h

end Lowered

/-! ## Expressions -/

section Expressions

variable {source : Source} {t : Tree} {e : Expr} {es : List Expr}

/-- The arguments of a call: the children of that rule of the first child for arguments, or none
without such a child. -/
def Tree.argumentNodes (t : Tree) : List Tree :=
  (t.child? .arguments).elim [] fun u => u.childrenNamed .argument

theorem Tree.mem_of_argumentNodes {a : Tree} (h : a ∈ t.argumentNodes) :
    ∃ u ∈ t.children, a ∈ u.children := by
  unfold argumentNodes at h
  cases hu : t.child? .arguments with
  | none => simp [hu] at h
  | some u =>
    rw [hu] at h
    exact ⟨u, (mem_of_child? hu).1, (mem_of_childrenNamed h).1⟩

/-- The rules that only wrap an expression choose between rules. -/
theorem Rule.wraps {r : Rule} (hr : r = .valueReturningCode ∨ r = .atomicValue ∨ r = .argument) :
    ∃ q qs, r.production = .spaced (.anyOf q qs) := by
  rcases hr with rfl | rfl | rfl
  · exact ⟨_, _, rfl⟩
  · exact ⟨_, _, rfl⟩
  · exact ⟨.valueReturningCode, [], rfl⟩

/-- The ways in which an expression comes from the tree `t`. -/
inductive Expr.FromTree (source : Source) (t : Tree) : Expr → Prop
  | wrapped {u : Tree} {us : List Tree} {e : Expr}
    (hr : t.rule = .valueReturningCode ∨ t.rule = .atomicValue ∨ t.rule = .argument)
    (hc : t.children = u :: us) (h : Expr.ofTree source u = .ok e) : FromTree source t e
  | call {u : Tree} {x : Identifier} {es : List Expr} (hr : t.rule = .functionCall)
    (hu : t.required source .name = .ok u) (hx : Identifier.ofTree source u = .ok x)
    (hes : List.Forall₂ (fun a e => Expr.ofTree source a = .ok e) t.argumentNodes es) :
    FromTree source t (.call x es t.span)
  | array {a : InPlaceArray} (hr : t.rule = .inPlaceArray)
    (h : InPlaceArray.ofTree source t = .ok a) : FromTree source t (.array a)
  | number {n : Number} (hr : t.rule = .number) (h : Number.ofTree source t = .ok n) :
    FromTree source t (.literal (.number n))
  | string {s : StringLiteral} (hr : t.rule = .string) (h : StringLiteral.ofTree source t = .ok s) :
    FromTree source t (.literal (.string s))
  | boolean {b : Boolean} (hr : t.rule = .boolean) (h : Boolean.ofTree source t = .ok b) :
    FromTree source t (.literal (.boolean b))
  | access {v : AccessedVariable} (hr : t.rule = .accessedVariable)
    (h : AccessedVariable.ofTree source t = .ok v) : FromTree source t (.access v)

theorem Expr.forall₂_of_ofArguments {ts : List Tree} (h : ofArguments source ts = .ok es) :
    List.Forall₂ (fun a e => Expr.ofTree source a = .ok e) (ts.filter (·.rule = .argument)) es := by
  induction ts generalizing es with
  | nil =>
    obtain rfl := Except.ok.inj h
    exact .nil
  | cons t ts ih =>
    rw [ofArguments] at h
    split at h
    · rename_i hr
      obtain ⟨e, he, h⟩ := bind_eq_ok h
      obtain ⟨es, hes, h⟩ := bind_eq_ok h
      obtain rfl := Except.ok.inj h
      rw [List.filter_cons_of_pos (by simpa using hr)]
      exact .cons he (ih hes)
    · rename_i hr
      rw [List.filter_cons_of_neg (by simpa using hr)]
      exact ih h

theorem Expr.forall₂_of_argumentsIn (h : argumentsIn source t.children = .ok es) :
    List.Forall₂ (fun a e => Expr.ofTree source a = .ok e) t.argumentNodes es := by
  obtain ⟨q, x, ts⟩ := t
  rw [Tree.argumentNodes, Tree.child?]
  induction ts with
  | nil =>
    obtain rfl := Except.ok.inj h
    exact .nil
  | cons t ts ih =>
    obtain ⟨r, y, us⟩ := t
    simp only [argumentsIn] at h
    split at h
    · rename_i hr
      rw [List.find?_cons_of_pos (by simpa using hr)]
      exact forall₂_of_ofArguments h
    · rename_i hr
      rw [List.find?_cons_of_neg (by simpa using hr)]
      exact ih h

/-- Where a tree is lowered to an expression, it is in one of these ways. -/
theorem Expr.fromTree_of_ofTree (h : Expr.ofTree source t = .ok e) : FromTree source t e := by
  obtain ⟨r, x, ts⟩ := t
  have wrapped (hr : r = .valueReturningCode ∨ r = .atomicValue ∨ r = .argument)
      (h : ofFirst source ⟨r, x, ts⟩ ts = .ok e) : FromTree source ⟨r, x, ts⟩ e := by
    cases ts with
    | nil => simp [ofFirst] at h
    | cons u us => exact .wrapped hr rfl h
  cases r <;> simp only [Expr.ofTree, reduceCtorEq] at h
  case valueReturningCode => exact wrapped (.inl rfl) h
  case atomicValue => exact wrapped (.inr (.inl rfl)) h
  case argument => exact wrapped (.inr (.inr rfl)) h
  case functionCall =>
    obtain ⟨u, hu, h⟩ := bind_eq_ok h
    obtain ⟨y, hy, h⟩ := bind_eq_ok h
    obtain ⟨es, hes, h⟩ := bind_eq_ok h
    obtain rfl := Except.ok.inj h
    exact .call rfl hu hy (forall₂_of_argumentsIn hes)
  case inPlaceArray =>
    obtain ⟨a, ha, rfl⟩ := map_eq_ok h
    exact .array rfl ha
  case number =>
    obtain ⟨n, hn, rfl⟩ := map_eq_ok h
    exact .number rfl hn
  case string =>
    obtain ⟨s, hs, rfl⟩ := map_eq_ok h
    exact .string rfl hs
  case boolean =>
    obtain ⟨b, hb, rfl⟩ := map_eq_ok h
    exact .boolean rfl hb
  case accessedVariable =>
    obtain ⟨v, hv, rfl⟩ := map_eq_ok h
    exact .access rfl hv

/-- A call that is lowered on its own is lowered to the same expression. -/
theorem Expr.ofTree_of_functionCall {c : FunctionCall} (hr : t.rule = .functionCall)
    (hc : FunctionCall.ofTree source t = .ok c) : Expr.ofTree source t = .ok c.toExpr := by
  rw [Ready.ofTree_functionCall hr, hc]
  rfl

end Expressions

/-! ## Chains -/

namespace Chain

variable {ω α : Type} {source : Source} {p : Parts ω α} {t : Tree}

/-- The trees are operators and operands in turn, and lowered to the pairs. -/
inductive Follows (p : Parts ω α) : List Tree → List (Spanned ω × α) → Prop
  | nil : Follows p [] []
  | cons {u v : Tree} {us : List Tree} {o : Spanned ω} {x : α} {ys : List (Spanned ω × α)}
    (hu : u.rule = p.operatorRule) (ho : p.operator u = .ok o) (hv : v.rule = p.operandRule)
    (hx : p.operand v = .ok x) (h : Follows p us ys) : Follows p (u :: v :: us) ((o, x) :: ys)

theorem follows_of_afterOperand (n : Nat) {us : List Tree} {ys : List (Spanned ω × α)}
    (hn : us.length ≤ n) (h : afterOperand source p t us = .ok ys) : Follows p us ys := by
  induction n generalizing us ys with
  | zero =>
    obtain rfl := List.length_eq_zero_iff.mp (Nat.le_zero.mp hn)
    obtain rfl := Except.ok.inj h
    exact .nil
  | succ n ih =>
    cases us with
    | nil =>
      obtain rfl := Except.ok.inj h
      exact .nil
    | cons u us =>
      rw [afterOperand] at h
      split at h
      · rename_i hu
        obtain ⟨o, ho, h⟩ := bind_eq_ok h
        cases us with
        | nil => simp [afterOperator] at h
        | cons v us =>
          rw [afterOperator] at h
          split at h
          · rename_i hv
            obtain ⟨x, hx, h⟩ := bind_eq_ok h
            obtain ⟨zs, hzs, h⟩ := bind_eq_ok h
            obtain rfl := Except.ok.inj h
            simp only [List.length_cons] at hn
            exact .cons hu ho hv hx (ih (by omega) hzs)
          · simp at h
      · split at h
        · obtain ⟨x, -, h⟩ := bind_eq_ok h
          simp at h
        · simp at h

/-- A chain comes from an operand and what follows it. -/
theorem follows_of_ofTree {c : Chain ω α} (h : ofTree source p t = .ok c) :
    c.span = t.span ∧ ∃ u us, t.children = u :: us ∧ u.rule = p.operandRule ∧
      p.operand u = .ok c.first ∧ Follows p us c.rest := by
  unfold ofTree at h
  split at h
  · simp at h
  · rename_i u us hc
    split at h
    · rename_i hu
      obtain ⟨x, hx, h⟩ := bind_eq_ok h
      obtain ⟨ys, hys, h⟩ := bind_eq_ok h
      obtain rfl := Except.ok.inj h
      exact ⟨rfl, u, us, hc, hu, hx, follows_of_afterOperand us.length (Nat.le_refl _) hys⟩
    · simp at h

theorem Follows.forall₂ (hp : p.operandRule ≠ p.operatorRule) {us : List Tree}
    {ys : List (Spanned ω × α)} (h : Follows p us ys) :
    List.Forall₂ (fun u x => p.operand u = .ok x) (us.filter (·.rule = p.operandRule))
        (ys.map Prod.snd) ∧
      List.Forall₂ (fun u o => p.operator u = .ok o) (us.filter (·.rule = p.operatorRule))
        (ys.map Prod.fst) := by
  induction h with
  | nil => exact ⟨.nil, .nil⟩
  | cons hu ho hv hx _ ih =>
    obtain ⟨hoperands, hoperators⟩ := ih
    constructor
    · rw [List.filter_cons_of_neg (by simpa [hu] using hp.symm),
        List.filter_cons_of_pos (by simpa using hv)]
      exact .cons hx hoperands
    · rw [List.filter_cons_of_pos (by simpa using hu),
        List.filter_cons_of_neg (by simpa [hv] using hp)]
      exact .cons ho hoperators

/-- The operands and the operators of a chain come from the children of their rules, in order. -/
theorem forall₂_of_ofTree {c : Chain ω α} (hp : p.operandRule ≠ p.operatorRule)
    (h : ofTree source p t = .ok c) :
    List.Forall₂ (fun u x => p.operand u = .ok x) (t.childrenNamed p.operandRule) c.operands ∧
      List.Forall₂ (fun u o => p.operator u = .ok o) (t.childrenNamed p.operatorRule)
        (c.rest.map Prod.fst) := by
  obtain ⟨-, u, us, hc, hu, hx, hfollows⟩ := follows_of_ofTree h
  obtain ⟨hoperands, hoperators⟩ := hfollows.forall₂ hp
  rw [Tree.childrenNamed, Tree.childrenNamed, hc]
  constructor
  · rw [List.filter_cons_of_pos (by simpa using hu)]
    exact .cons hx hoperands
  · rw [List.filter_cons_of_neg (by simpa [hu] using hp)]
    exact hoperators

end Chain

end FreeForm
