import FreeForm.Lowering.Expr
import FreeForm.Proofs.SpelledVariables

/-!
# Spelled expressions

`Expr.exists_tree` goes by induction on the expression: the arguments of a call leave their trees,
and so does the call.
-/

namespace FreeForm

variable {source : Source} {n : Nat} {u : Text}

theorem Literal.begins {x : Literal} (hx : x.isWellFormed) : x.spell.Begins := by
  cases x with
  | number x => exact Number.begins hx
  | string x => exact StringLiteral.begins hx
  | boolean x => exact x.begins

theorem Expr.begins {e : Expr} (he : e.isWellFormed) : e.spell.Begins := by
  cases e with
  | call x es s =>
    rw [isWellFormed, Bool.and_eq_true] at he
    rw [spell]
    exact (Identifier.begins he.1).append _
  | array a =>
    rw [spell]
    exact Text.begins_cons (by decide) _
  | literal l =>
    rw [isWellFormed] at he
    rw [spell]
    exact Literal.begins he
  | access v =>
    rw [isWellFormed, Bool.and_eq_true] at he
    rw [spell]
    exact AccessedVariable.begins he.1

/-! ## The rules around a value -/

/-- The tree is lowered to the expression again, up to the spans inside. -/
def Expr.LeavesIn (source : Source) (t : Tree) (e : Expr) : Prop :=
  ∃ y, Expr.ofTree source t = .ok y ∧ y.bare = e.bare ∧ y.span = t.span

theorem Expr.LeavesIn.recovers {t : Tree} {e : Expr} (h : e.LeavesIn source t) :
    Recovers bare (Expr.ofTree source t) e :=
  have ⟨y, hy, hb, _⟩ := h
  ⟨y, hy, hb⟩

/-- The rules that only wrap a value leave the value as it is. -/
theorem Expr.exists_wrapped {r q : Rule} {w : Text} {t : Tree} {e : Expr}
    (hr : r ∈ [Rule.valueReturningCode, .atomicValue, .argument])
    (hp : ∀ ts, (Phrase.call q).Spells Cursor.skipGap w n u ts →
      ∃ a, r.production = .spaced a ∧ a.Spells Cursor.skipGap w n u ts)
    (ht : t.Spells Cursor.skipGap q w n u)
    (hop : r = .valueReturningCode → t.Operand Tree.HasRegion) (he : e.LeavesIn source t) :
    ∃ v : Tree, v.Spells Cursor.skipGap r w n u ∧ e.LeavesIn source v := by
  obtain ⟨a, ha, hspells⟩ := hp _ ht.derives
  obtain ⟨y, hy, hb, hspan⟩ := he
  refine ⟨_, Rule.spells_asking ha hspells ?_, y, ?_, hb, by rw [hspan, ht.span]⟩
  · exact List.forall_mem_singleton.mpr ⟨hop, ht.settled⟩
  · simp only [List.mem_cons, List.not_mem_nil, or_false] at hr
    rcases hr with rfl | rfl | rfl
    all_goals simp only [Expr.ofTree, Expr.ofFirst, hy]

/-- What is spelled by one of the rules for values is spelled by the rule for all of them. -/
theorem Expr.exists_value {q : Rule} {w : Text} {t : Tree} {e : Expr}
    (hq : q ∈ [Rule.functionCall, .inPlaceArray, .atomicValue, .accessedVariable])
    (ht : t.Spells Cursor.skipGap q w n u) (hop : t.Operand Tree.HasRegion)
    (he : e.LeavesIn source t) :
    ∃ v : Tree, v.Spells Cursor.skipGap .valueReturningCode w n u ∧ e.LeavesIn source v :=
  exists_wrapped (by decide) (fun _ h => ⟨_, rfl, h.anyOf hq⟩) ht (fun _ => hop) he

theorem Tree.operand_of_rule {Q : Tree → Prop} {t : Tree} {q : Rule} (h : t.rule = q)
    (hq : q ≠ .accessedVariable) : t.Operand Q := fun hr => absurd (h.symm.trans hr) hq

theorem Expr.exists_literal (l : Literal) (hl : l.isWellFormed) (hu : u.Stops .wordChar)
    (hat : (Cursor.start (l.spell ++ u) n).At source.content) :
    ∃ t : Tree, t.Spells Cursor.skipGap .valueReturningCode l.spell n u ∧
      (Expr.literal l).LeavesIn source t := by
  have hatomic : ∀ {q : Rule} {t : Tree}, q ∈ [Rule.boolean, .string, .number] →
      t.Spells Cursor.skipGap q l.spell n u → (Expr.literal l).LeavesIn source t →
      ∃ v : Tree, v.Spells Cursor.skipGap .valueReturningCode l.spell n u ∧
        (Expr.literal l).LeavesIn source v := by
    intro q t hq ht he
    obtain ⟨v, hv, he⟩ := exists_wrapped (r := .atomicValue) (by decide)
      (fun _ h => ⟨_, rfl, h.anyOf hq⟩) ht (fun h => absurd h (by decide)) he
    exact exists_value (by decide) hv (Tree.operand_of_rule hv.rule (by decide)) he
  cases l with
  | number x =>
    obtain ⟨⟨r, s, ts⟩, ht, y, hy, hb, hspan⟩ := x.exists_tree hl hu hat
    obtain rfl : r = _ := ht.rule
    refine hatomic (by decide) ht.of_id ⟨.literal (.number y), ?_, ?_, hspan⟩
    · simp [Expr.ofTree, hy]
    · rw [bare, bare, Literal.bare, Literal.bare, hb]
  | string x =>
    obtain ⟨⟨r, s, ts⟩, ht, y, hy, hb, hspan⟩ := x.exists_tree hl hat
    obtain rfl : r = _ := ht.rule
    refine hatomic (by decide) ht.of_id ⟨.literal (.string y), ?_, ?_, hspan⟩
    · simp [Expr.ofTree, hy]
    · rw [bare, bare, Literal.bare, Literal.bare, hb]
  | boolean x =>
    obtain ⟨⟨r, s, ts⟩, ht, y, hy, hb, hspan⟩ := x.exists_tree hat
    obtain rfl : r = _ := ht.rule
    refine hatomic (by decide) ht ⟨.literal (.boolean y), ?_, ?_, hspan⟩
    · simp [Expr.ofTree, hy]
    · rw [bare, bare, Literal.bare, Literal.bare, hb]

/-! ## Arguments -/

/-- Wherever the spelling of the expression stands, it leaves a tree for the expression. -/
def Expr.IsRead (source : Source) (e : Expr) : Prop :=
  ∀ (n : Nat) (u : Text), u.Stops .wordChar → (Cursor.start (e.spell ++ u) n).At source.content →
    ∃ t : Tree, t.Spells Cursor.skipGap .valueReturningCode e.spell n u ∧ e.LeavesIn source t

theorem Expr.recovers_ofArguments {es : List Expr} {ts : List Tree}
    (hts : ∀ t ∈ ts, t.rule = .argument)
    (h : List.Forall₂ (fun e t => Recovers bare (Expr.ofTree source t) e) es ts) :
    Recovers (List.map bare) (Expr.ofArguments source ts) es := by
  induction h with
  | nil => exact ⟨[], rfl, rfl⟩
  | @cons e t es ts he _ ih =>
    obtain ⟨ht, hts⟩ := List.forall_mem_cons.mp hts
    obtain ⟨y, hy, hb⟩ := he
    obtain ⟨ys, hys, hbs⟩ := ih hts
    refine ⟨y :: ys, ?_, by rw [List.map_cons, List.map_cons, hb, hbs]⟩
    rw [Expr.ofArguments, if_pos ht, hy, lowered_ok_bind, hys]
    rfl

theorem Expr.argumentsIn_cons (t : Tree) (ts : List Tree) :
    Expr.argumentsIn source (t :: ts) =
      if t.rule = .arguments then Expr.ofArguments source t.children
      else Expr.argumentsIn source ts := by
  cases t
  rw [Expr.argumentsIn]

theorem exists_arguments {es : List Expr} (hes : ∀ e ∈ es, e.isWellFormed ∧ e.IsRead source)
    (hne : es ≠ []) (hu : u.Stops .wordChar)
    (hat : (Cursor.start (commaSeparated (es.map Expr.spell) ++ u) n).At source.content) :
    ∃ t : Tree, t.Spells Cursor.skipGap .arguments (commaSeparated (es.map Expr.spell)) n u ∧
      Recovers (List.map Expr.bare) (Expr.ofArguments source t.children) es := by
  have hitem : ∀ e ∈ es, Rule.argument.SpellsItem source.content Expr.spell
      (fun e t => Recovers Expr.bare (Expr.ofTree source t) e) e := by
    refine fun e he => ⟨fun n u hu hat => ?_, Expr.begins (hes e he).1⟩
    obtain ⟨t, ht, hleaves⟩ := (hes e he).2 n u hu hat
    obtain ⟨v, hv, hleaves⟩ := Expr.exists_wrapped (r := .argument) (by decide)
      (fun _ h => ⟨_, rfl, h⟩) ht (fun h => absurd h (by decide)) hleaves
    exact ⟨v, hv, hleaves.recovers⟩
  obtain ⟨ts, hlist, hts, hP⟩ := Rule.exists_commaList hitem hne hu hat
  exact ⟨_, Rule.spells_spaced rfl (by decide) hlist fun t ht => (hts t ht).2,
    Expr.recovers_ofArguments (fun t ht => (hts t ht).1) hP⟩

/-- The arguments of a call with the parenthesis behind them.  Without arguments no tree is left. -/
theorem exists_closedArguments {es : List Expr}
    (hes : ∀ e ∈ es, e.isWellFormed ∧ e.IsRead source)
    (hat : (Cursor.start (commaSeparated (es.map Expr.spell) ++ ')' :: u) n).At source.content) :
    ∃ ts : List Tree, (Phrase.seq (.opt (.call .arguments)) (.punct [')'])).Spells Cursor.skipGap
        (commaSeparated (es.map Expr.spell) ++ [')']) n u ts ∧
      (∀ t ∈ ts, t.rule = .arguments ∧ t.Settled (Rule.Asks Tree.HasRegion)) ∧
      (es = [] ∧ ts = [] ∨ ∃ t, ts = [t] ∧
        Recovers (List.map Expr.bare) (Expr.ofArguments source t.children) es) := by
  have hclose : ∀ w, Text.Begins (')' :: w) := Text.begins_cons (by decide)
  cases es with
  | nil =>
    exact ⟨[], .absent_seq (Cursor.gap_nil (hclose u)) (.punct [')']), by simp, .inl ⟨rfl, rfl⟩⟩
  | cons e es =>
    obtain ⟨t, ht, hrec⟩ := exists_arguments hes (List.cons_ne_nil e es)
      (Text.stops_cons (by decide) u) hat
    exact ⟨[t], ht.derives.present.seq (g := []) (Cursor.gap_nil (hclose u)) (.punct [')']),
      by simpa using ⟨ht.rule, ht.settled⟩, .inr ⟨t, rfl, hrec⟩⟩

theorem begins_closedArguments {es : List Expr} (hes : ∀ e ∈ es, e.isWellFormed) :
    (commaSeparated (es.map Expr.spell) ++ [')']).Begins := by
  cases es with
  | nil => exact Text.begins_cons (by decide) []
  | cons e es =>
    exact (begins_commaSeparated (List.cons_ne_nil e es) fun e he =>
      Expr.begins (hes e he)).append _

/-! ## Expressions -/

theorem Expr.isRead_call {x : Identifier} {es : List Expr} {s : Span} (hx : x.isWellFormed)
    (hes : ∀ e ∈ es, e.isWellFormed ∧ e.IsRead source) : (call x es s).IsRead source := by
  intro n u hu hat
  rw [spell, spellings_eq_map] at hat ⊢
  obtain ⟨v, hv, hname⟩ := x.exists_tree hx (Text.stops_cons (by decide) _)
    (List.append_assoc _ _ _ ▸ hat)
  obtain ⟨ts, hts, hall, hargs⟩ := exists_closedArguments hes hat.inside
  have hseq := hv.of_id.derives.seq (g := []) (Cursor.gap_nil (begins_parenthesized _ u))
    (hts.parenthesized (begins_closedArguments fun e he => (hes e he).1))
  rw [List.singleton_append] at hseq
  have ht := Rule.spells_spaced (r := .functionCall) rfl (by decide) hseq
    (List.forall_mem_cons.mpr ⟨hv.settled, fun t ht => (hall t ht).2⟩)
  have hne : v.rule ≠ .arguments := by rw [hv.rule]; decide
  obtain ⟨ys, hys, hb⟩ : Recovers (List.map bare) (Expr.argumentsIn source (v :: ts)) es := by
    rw [Expr.argumentsIn_cons, if_neg hne]
    rcases hargs with ⟨rfl, rfl⟩ | ⟨t, rfl, hrec⟩
    · exact ⟨[], rfl, rfl⟩
    · rw [Expr.argumentsIn_cons, if_pos (hall t (List.mem_singleton_self t)).1]
      exact hrec
  refine exists_value (by decide) ht (Tree.operand_of_rule ht.rule (by decide))
    ⟨.call ⟨x.name, ⟨n, n + Text.size x.name⟩⟩ ys _, ?_, ?_, rfl⟩
  · rw [Expr.ofTree, Tree.required_of_eq hv.rule]
    simp only [lowered_ok_bind, hname, hys]
    rfl
  · rw [bare, bare, bares_eq_map, bares_eq_map, hb]
    rfl

theorem Expr.isRead_array (a : InPlaceArray) (ha : a.isWellFormed) : (array a).IsRead source := by
  intro n u hu hat
  rw [spell] at hat ⊢
  obtain ⟨⟨r, s, ts⟩, ht, y, hy, hb, hspan⟩ := a.exists_tree ha hat
  obtain rfl : r = _ := ht.rule
  refine exists_value (by decide) ht (Tree.operand_of_rule ht.rule (by decide))
    ⟨.array y, ?_, ?_, hspan⟩
  · simp [Expr.ofTree, hy]
  · rw [bare, bare, hb]

theorem Expr.isRead_access (v : AccessedVariable) (hv : v.isWellFormed) (hop : v.isOperand) :
    (access v).IsRead source := by
  intro n u hu hat
  rw [spell] at hat ⊢
  obtain ⟨⟨r, s, ts⟩, ht, ⟨y, hy, hb, hspan⟩, hoperand⟩ := v.exists_tree hv hu hat
  obtain rfl : r = _ := ht.rule
  refine exists_value (by decide) ht (hoperand hop) ⟨.access y, ?_, ?_, hspan⟩
  · simp [Expr.ofTree, hy]
  · rw [bare, bare, hb]

/-- **The spelling of a well-formed expression is read as this expression**, wherever it stands. -/
theorem Expr.isRead (source : Source) (e : Expr) (he : e.isWellFormed) : e.IsRead source := by
  induction e using Expr.induction with
  | call x es s ih =>
    rw [isWellFormed, areWellFormed_eq_all, Bool.and_eq_true, List.all_eq_true] at he
    exact isRead_call he.1 fun e hmem => ⟨he.2 e hmem, ih e hmem (he.2 e hmem)⟩
  | array a =>
    rw [isWellFormed] at he
    exact isRead_array a he
  | literal l =>
    rw [isWellFormed] at he
    intro n u hu hat
    rw [spell] at hat ⊢
    exact exists_literal l he hu hat
  | access v =>
    rw [isWellFormed, Bool.and_eq_true] at he
    exact isRead_access v he.1 he.2

end FreeForm
