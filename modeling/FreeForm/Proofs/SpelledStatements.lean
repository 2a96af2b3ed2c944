import FreeForm.Lowering.Construct
import FreeForm.Proofs.SpelledExpressions

/-!
# Spelled chains and statements

The lemmas `exists_tree` for operators, chains and statements.  The three levels of chains are one
lemma, `Chain.exists_tree`: it asks how operators and operands are read, and a chain of one level is
an operand of the next.
-/

namespace FreeForm

variable {source : Source} {n : Nat} {u : Text}

/-! ## Operators -/

/-- The rule of an operator. -/
def ArithmeticOperator.rule : ArithmeticOperator → Rule
  | add => .addition
  | subtract => .subtraction
  | multiply => .multiplication
  | divide => .division
  | power => .power

/-- The rule of an operator. -/
def RelationalOperator.rule : RelationalOperator → Rule
  | equal => .equality
  | notEqual => .inequality
  | less => .less
  | greater => .greater
  | lessEqual => .lessEqual
  | greaterEqual => .greaterEqual

/-- The rule of an operator. -/
def LogicalOperator.rule : LogicalOperator → Rule
  | and => .logicalAnd
  | or => .logicalOr
  | eqv => .logicalEqv
  | neqv => .logicalNeqv

/-- The operators of a chain are read wherever they stand. -/
structure Chain.ReadsOperators {ω α : Type} (p : Chain.Parts ω α) (spell : ω → Text) : Prop where
  exists_tree : ∀ (o : ω) (n : Nat) (u : Text),
    ∃ t : Tree, t.Spells Cursor.skipGap p.operatorRule (spell o) n u ∧
      ∃ s, p.operator t = .ok ⟨o, s⟩
  begins : ∀ o, (spell o).Begins

theorem exists_operator {ω : Type} {family q r : Rule} {rs : List Rule} {p : Pattern} {w : Text}
    {o : ω} {ofRule? : Rule → Option ω} (described : String)
    (hfamily : family.production = .spaced (.anyOf r rs)) (hne : family ≠ .valueReturningCode)
    (hq : q ∈ r :: rs) (hqf : q ≠ family) (hp : q.production = .spaced (.token p))
    (ho : ofRule? q = some o) (hw : p.split? (w ++ u) = some (w, u)) :
    ∃ t : Tree, t.Spells Cursor.skipGap family w n u ∧
      ∃ s, operatorOfTree source family ofRule? described t = .ok ⟨o, s⟩ := by
  have ht := Rule.spells_mark (n := n) hp hw
  refine ⟨_, Rule.spells_spaced hfamily hne (ht.of_id.derives.anyOf hq) (by simpa using ht.settled),
    ⟨n, n + Text.size w⟩, ?_⟩
  simp [operatorOfTree, operatorOfFirst, hqf, ho]

theorem ArithmeticOperator.readsOperators :
    Chain.ReadsOperators ⟨.valueReturningCode, .arithmeticOperator, Expr.ofTree source,
      ArithmeticOperator.ofTree source⟩ spell where
  exists_tree o n u := by
    have hp : o.rule.production = .spaced (.punct o.spell) := by cases o <;> rfl
    have hne : o.rule ≠ .arithmeticOperator := by cases o <;> decide
    have hfamily : Rule.arithmeticOperator ≠ .valueReturningCode := by decide
    exact exists_operator _ rfl hfamily (by cases o <;> decide) hne hp (by cases o <;> rfl)
      (Pattern.split?_lit_self _ u)
  begins o := by cases o <;> exact Text.begins_cons (by decide) _

theorem RelationalOperator.split?_spell (words : Bool) (o : RelationalOperator) (u : Text) :
    (Pattern.symbolOrWord (spell false o) (spell true o)).split? (spell words o ++ u) =
      some (spell words o, u) := by
  refine Pattern.split?_alt_eq_some.mpr ?_
  cases words with
  | false => exact .inl (Pattern.split?_lit_self _ u)
  | true => exact .inr ⟨by cases o <;> rfl, Pattern.split?_word_self _ u⟩

theorem RelationalOperator.readsOperators (words : Bool) :
    Chain.ReadsOperators ⟨.arithmeticStatement, .relationalOperator, arithmeticOfTree source,
      RelationalOperator.ofTree source⟩ (spell words) where
  exists_tree o n u := by
    have hp : o.rule.production =
        .spaced (.token (.symbolOrWord (spell false o) (spell true o))) := by cases o <;> rfl
    have hne : o.rule ≠ .relationalOperator := by cases o <;> decide
    have hfamily : Rule.relationalOperator ≠ .valueReturningCode := by decide
    exact exists_operator _ rfl hfamily (by cases o <;> decide) hne hp (by cases o <;> rfl)
      (split?_spell words o u)
  begins o := by cases words <;> cases o <;> exact Text.begins_cons (by decide) _

theorem LogicalOperator.readsOperators :
    Chain.ReadsOperators ⟨.relationalStatement, .logicalOperator, relationalOfTree source,
      LogicalOperator.ofTree source⟩ spell where
  exists_tree o n u := by
    have hp : o.rule.production = .spaced (.token (.word o.spell)) := by cases o <;> rfl
    have hne : o.rule ≠ .logicalOperator := by cases o <;> decide
    have hfamily : Rule.logicalOperator ≠ .valueReturningCode := by decide
    exact exists_operator _ rfl hfamily (by cases o <;> decide) hne hp (by cases o <;> rfl)
      (Pattern.split?_word_self _ u)
  begins o := by cases o <;> exact Text.begins_cons (by decide) _

/-! ## Chains -/

namespace Chain

variable {ω α : Type} {p : Parts ω α} {operator : ω → Text} {operand : α → Text}
  {bareOperand : α → α}

/-- An operator and an operand have left these two trees. -/
def IsPair (p : Parts ω α) (bareOperand : α → α) (x : Spanned ω × α) (ts : List Tree) : Prop :=
  ∃ o t, ts = [o, t] ∧ (∀ v ∈ ts, v.Settled (Rule.Asks Tree.HasRegion)) ∧
    o.rule = p.operatorRule ∧ (∃ s, p.operator o = .ok ⟨x.1.value, s⟩) ∧
    t.rule = p.operandRule ∧ Recovers bareOperand (p.operand t) x.2

/-- The operand is read wherever it stands. -/
abbrev ReadsOperand (s : Text) (p : Parts ω α) (operand : α → Text) (bareOperand : α → α) (x : α) :
    Prop :=
  p.operandRule.SpellsItem s operand (fun x t => Recovers bareOperand (p.operand t) x) x

theorem spellsItem_pair {s : Text} (ho : ReadsOperators p operator) {x : Spanned ω × α}
    (hx : ReadsOperand s p operand bareOperand x.2) :
    (Phrase.seq (.call p.operatorRule) (.call p.operandRule)).SpellsItem Cursor.skipGap s [' ']
      (fun y => operator y.1.value ++ ([' '] ++ operand y.2)) (IsPair p bareOperand) x where
  exists_spells n u hu hat := by
    rw [List.append_assoc, List.append_assoc] at hat
    obtain ⟨o, hos, hlower⟩ := ho.exists_tree x.1.value n ([' '] ++ (operand x.2 ++ u))
    obtain ⟨t, ht, hrec⟩ := hx.exists_tree _ u hu hat.behind.behind
    have hseq := hos.derives.seq (Cursor.gap_blank (hx.begins.append u)) ht.derives
    exact ⟨[o, t], hseq, o, t, rfl, by simpa using ⟨hos.settled, ht.settled⟩, hos.rule, hlower,
      ht.rule, hrec⟩
  gap u := Cursor.gap_blank (((ho.begins x.1.value).append _).append u)
  stops u := Text.stops_cons (by decide) _

theorem recovers_afterOperand (source : Source) {l : List (Spanned ω × α)}
    {tss : List (List Tree)} (t : Tree) (h : List.Forall₂ (IsPair p bareOperand) l tss) :
    Recovers (List.map fun x => ((⟨x.1.value, default⟩, bareOperand x.2) : Spanned ω × α))
      (afterOperand source p t tss.flatten) l := by
  induction h with
  | nil => exact ⟨[], by rw [List.flatten_nil, afterOperand], rfl⟩
  | @cons x ts l tss hx _ ih =>
    obtain ⟨o, v, rfl, -, ho, ⟨s, hos⟩, hv, y, hy, hb⟩ := hx
    obtain ⟨ys, hys, hbs⟩ := ih
    refine ⟨(⟨x.1.value, s⟩, y) :: ys, ?_, by rw [List.map_cons, List.map_cons, hbs, hb]⟩
    rw [List.flatten_cons, List.cons_append, List.singleton_append, afterOperand, if_pos ho, hos,
      lowered_ok_bind, afterOperator, if_pos hv, hy, lowered_ok_bind, hys]
    rfl

/-- The spelling of a chain is read as this chain, if operators and operands are. -/
theorem exists_tree {r : Rule} (hr : r.production = .spaced (.chain p.operandRule p.operatorRule))
    (hne : r ≠ .valueReturningCode)
    (ho : ReadsOperators p operator) {c : Chain ω α}
    (hc : ∀ x ∈ c.operands, ReadsOperand source.content p operand bareOperand x)
    (hu : u.Stops .wordChar)
    (hat : (Cursor.start (c.spell operator operand ++ u) n).At source.content) :
    ∃ t : Tree, t.Spells Cursor.skipGap r (c.spell operator operand) n u ∧
      ∃ y, ofTree source p t = .ok y ∧ y.bare bareOperand = c.bare bareOperand ∧
        y.span = t.span := by
  obtain ⟨hfirst, hrest⟩ := List.forall_mem_cons.mp hc
  have hpairs := fun x hx => spellsItem_pair ho (hrest (Prod.snd x) (List.mem_map_of_mem hx))
  have hw : c.spell operator operand =
      operand c.first ++ Text.rounds [' ']
        (fun y => operator y.1.value ++ ([' '] ++ operand y.2)) c.rest := rfl
  rw [hw] at hat ⊢
  rw [List.append_assoc] at hat
  obtain ⟨v, hv, y, hy, hb⟩ := hfirst.exists_tree n _ (Text.stops_rounds hpairs hu) hat
  obtain ⟨tss, htss, hseq⟩ := hv.derives.seq_rounds .spaced hpairs hu hat
  rw [List.singleton_append] at hseq
  refine ⟨_, Rule.spells_spaced hr hne hseq ?_, ?_⟩
  · refine List.forall_mem_cons.mpr ⟨hv.settled, fun t ht => ?_⟩
    obtain ⟨ts, hts, ht⟩ := List.mem_flatten.mp ht
    obtain ⟨x, -, _, _, -, hset, -⟩ := exists_of_mem_left htss.flip hts
    exact hset t ht
  · obtain ⟨ys, hys, hbs⟩ := recovers_afterOperand source _ htss
    refine ⟨⟨y, ys, _⟩, ?_, by rw [bare, bare, hb, hbs], rfl⟩
    simp only [ofTree, if_pos hv.rule, hy, lowered_ok_bind]
    rw [hys]
    rfl

theorem begins {c : Chain ω α} (hc : ∀ x ∈ c.operands, (operand x).Begins) :
    (c.spell operator operand).Begins := (hc _ List.mem_cons_self).append _

end Chain

theorem ArithmeticStatement.exists_tree (c : ArithmeticStatement) (hc : c.isWellFormed)
    (hu : u.Stops .wordChar) (hat : (Cursor.start (c.spell ++ u) n).At source.content) :
    ∃ t : Tree, t.Spells Cursor.skipGap .arithmeticStatement c.spell n u ∧
      ∃ y, arithmeticOfTree source t = .ok y ∧ y.bare = c.bare ∧ y.span = t.span := by
  have hes := List.all_eq_true.mp hc
  obtain ⟨t, ht, y, hy, hb, hspan⟩ := Chain.exists_tree (r := .arithmeticStatement) rfl (by decide)
    ArithmeticOperator.readsOperators (fun e he => ⟨fun n u hu hat =>
      have ⟨t, ht, hleaves⟩ := e.isRead source (hes e he) n u hu hat
      ⟨t, ht, hleaves.recovers⟩, Expr.begins (hes e he)⟩) hu hat
  refine ⟨t, ht, y, ?_, hb, hspan⟩
  rw [arithmeticOfTree, Tree.expect_eq_ok_iff.mpr ht.rule, lowered_ok_bind, hy]

theorem ArithmeticStatement.begins {c : ArithmeticStatement} (hc : c.isWellFormed) :
    c.spell.Begins :=
  Chain.begins fun e he => Expr.begins (List.all_eq_true.mp hc e he)

theorem RelationalStatement.exists_tree (words : Bool) (c : RelationalStatement)
    (hc : c.isWellFormed) (hu : u.Stops .wordChar)
    (hat : (Cursor.start (c.spell words ++ u) n).At source.content) :
    ∃ t : Tree, t.Spells Cursor.skipGap .relationalStatement (c.spell words) n u ∧
      ∃ y, relationalOfTree source t = .ok y ∧ y.bare = c.bare ∧ y.span = t.span := by
  have hcs := List.all_eq_true.mp hc
  obtain ⟨t, ht, y, hy, hb, hspan⟩ := Chain.exists_tree (r := .relationalStatement) rfl (by decide)
    (RelationalOperator.readsOperators words) (fun c hc => ⟨fun n u hu hat =>
      have ⟨t, ht, y, hy, hb, _⟩ := ArithmeticStatement.exists_tree c (hcs c hc) hu hat
      ⟨t, ht, y, hy, hb⟩, ArithmeticStatement.begins (hcs c hc)⟩) hu hat
  refine ⟨t, ht, y, ?_, hb, hspan⟩
  rw [relationalOfTree, Tree.expect_eq_ok_iff.mpr ht.rule, lowered_ok_bind, hy]

theorem RelationalStatement.begins (words : Bool) {c : RelationalStatement}
    (hc : c.isWellFormed) : (c.spell words).Begins :=
  Chain.begins fun c hc' => ArithmeticStatement.begins (List.all_eq_true.mp hc c hc')

theorem LogicalStatement.exists_tree (words : Bool) (c : LogicalStatement) (hc : c.isWellFormed)
    (hu : u.Stops .wordChar) (hat : (Cursor.start (c.spell words ++ u) n).At source.content) :
    ∃ t : Tree, t.Spells Cursor.skipGap .logicalStatement (c.spell words) n u ∧
      ∃ y, logicalOfTree source t = .ok y ∧ y.bare = c.bare ∧ y.span = t.span := by
  have hcs := List.all_eq_true.mp hc
  obtain ⟨t, ht, y, hy, hb, hspan⟩ := Chain.exists_tree (r := .logicalStatement) rfl (by decide)
    LogicalOperator.readsOperators (fun c hc => ⟨fun n u hu hat =>
      have ⟨t, ht, y, hy, hb, _⟩ := RelationalStatement.exists_tree words c (hcs c hc) hu hat
      ⟨t, ht, y, hy, hb⟩, RelationalStatement.begins words (hcs c hc)⟩) hu hat
  refine ⟨t, ht, y, ?_, hb, hspan⟩
  rw [logicalOfTree, Tree.expect_eq_ok_iff.mpr ht.rule, lowered_ok_bind, hy]

/-! ## Statements -/

theorem Assignment.exists_tree (a : Assignment) (ha : a.isWellFormed) (hu : u.Stops .wordChar)
    (hat : (Cursor.start (a.spell ++ u) n).At source.content) :
    ∃ t : Tree, t.Spells Cursor.skipGap .assignment a.spell n u ∧
      ∃ y, Assignment.ofTree source t = .ok y ∧ y.bare = a.bare ∧ y.span = t.span := by
  obtain ⟨hx, he⟩ := Bool.and_eq_true_iff.mp ha
  have hw : a.spell = a.target.spell ++ ([' '] ++ (['='] ++ ([' '] ++ a.value.spell))) := by
    simp [spell]
  rw [hw] at hat ⊢
  simp only [List.append_assoc] at hat
  obtain ⟨t, ht, ⟨x, hxt, hxb, -⟩, -⟩ := a.target.exists_tree hx (Text.stops_cons (by decide) _) hat
  obtain ⟨v, hv, y, hy, hyb, -⟩ := a.value.isRead source he _ u hu hat.behind.behind.behind.behind
  have hvalue := Phrase.Spells.seq (.punct ['=']) (Cursor.gap_blank ((Expr.begins he).append u))
    hv.derives
  have hseq := ht.derives.seq (Cursor.gap_blank (Text.begins_cons (by decide) _)) hvalue
  have htrees : [t] ++ ([] ++ [v]) = [t, v] := rfl
  rw [htrees] at hseq
  refine ⟨_, Rule.spells_spaced rfl (by decide) hseq (by simpa using ⟨ht.settled, hv.settled⟩),
    ⟨x, y, _⟩, ?_, by rw [bare, bare, hxb, hyb], rfl⟩
  have hne : t.rule ≠ .valueReturningCode := by rw [ht.rule]; decide
  rw [Assignment.ofTree, Tree.expect_mk, Tree.required_of_eq ht.rule, Tree.required,
    Tree.child?_of_ne hne, Tree.child?_of_eq hv.rule]
  simp only [lowered_ok_bind, hxt, hy]
  rfl

theorem exists_callKeyword (n : Nat) (v : Text) :
    ∃ t : Tree, t.Spells id .callKeyword ['c', 'a', 'l', 'l'] n (' ' :: v) := by
  have hno : (Pattern.avoid (.one .wordChar)).split? (' ' :: v) = some ([], ' ' :: v) := rfl
  have hcall := Pattern.split?_seq_eq_some.mpr ⟨_, _, _,
    Pattern.split?_word_self ['c', 'a', 'l', 'l'] (' ' :: v), hno, rfl⟩
  exact ⟨_, Rule.spells_lexeme rfl hcall⟩

/-- The name of a subroutine, with the arguments behind it or without arguments. -/
theorem exists_calledName {x : Identifier} {arguments : Option (List Expr)} (hx : x.isWellFormed)
    (hes : arguments.all fun es => es.all Expr.isWellFormed) (hu : u.Stops .wordChar)
    (hat : (Cursor.start (x.spell ++ SubroutineCall.spellArguments arguments ++ u) n).At
      source.content) :
    ∃ (v : Tree) (ts : List Tree) (y : Identifier), (Phrase.seq (.call .name)
        (.opt (.inParentheses (.opt (.call .arguments))))).Spells Cursor.skipGap
        (x.spell ++ SubroutineCall.spellArguments arguments) n u (v :: ts) ∧
      (∀ t ∈ v :: ts, t.Settled (Rule.Asks Tree.HasRegion)) ∧ v.rule = .name ∧
      Identifier.ofTree source v = .ok y ∧ y.bare = x.bare ∧
      ∀ (s : Span) (k : Tree), k.rule = .callKeyword →
        s.stop = n + Text.size (x.spell ++ SubroutineCall.spellArguments arguments) →
        Recovers (Option.map (List.map Expr.bare)) (SubroutineCall.argumentsIn source
          ⟨.subroutineCall, s, k :: v :: ts⟩ y) arguments := by
  have hskip : ∀ {s : Span} {k v : Tree} {ts : List Tree}, k.rule = .callKeyword →
      v.rule = .name → (⟨.subroutineCall, s, k :: v :: ts⟩ : Tree).child? .arguments =
        (⟨.subroutineCall, s, ts⟩ : Tree).child? .arguments := by
    intro s k v ts hk hv
    rw [Tree.child?_of_ne (by rw [hk]; decide), Tree.child?_of_ne (by rw [hv]; decide)]
  cases arguments with
  | none =>
    rw [SubroutineCall.spellArguments, List.append_nil] at hat ⊢
    obtain ⟨v, hv, hname⟩ := x.exists_tree hx hu hat
    refine ⟨v, [], _, hv.of_id.derives.seq_absent .spaced, by simpa using hv.settled, hv.rule,
      hname, rfl, fun s k hk hs => ⟨none, ?_, rfl⟩⟩
    have hstop : ¬n + Text.size x.name < s.stop := by
      rw [hs]
      exact Nat.lt_irrefl _
    rw [SubroutineCall.argumentsIn, hskip hk hv.rule]
    simp [Tree.child?, hstop]
  | some es =>
    have hes' := List.all_eq_true.mp (by simpa using hes : es.all Expr.isWellFormed)
    have hargs : ∀ e ∈ es, e.isWellFormed ∧ e.IsRead source := fun e he =>
      ⟨hes' e he, e.isRead source (hes' e he)⟩
    rw [SubroutineCall.spellArguments] at hat ⊢
    obtain ⟨v, hv, hname⟩ := x.exists_tree hx (Text.stops_cons (by decide) _)
      (List.append_assoc _ _ _ ▸ hat)
    obtain ⟨ts, hts, hall, hlower⟩ := exists_closedArguments hargs hat.inside
    have hseq := hv.of_id.derives.seq (g := []) (Cursor.gap_nil (begins_parenthesized _ u))
      (hts.parenthesized (begins_closedArguments hes')).present
    refine ⟨v, ts, _, hseq, ?_, hv.rule, hname, rfl, fun s k hk hs => ?_⟩
    · exact List.forall_mem_cons.mpr ⟨hv.settled, fun t ht => (hall t ht).2⟩
    rw [SubroutineCall.argumentsIn, hskip hk hv.rule]
    rcases hlower with ⟨rfl, rfl⟩ | ⟨t, rfl, ys, hys, hb⟩
    · have hstop : n + Text.size x.name < s.stop := by
        rw [hs, Text.size_append, Identifier.spell]
        have hsize : 0 < Text.size (parenthesized (commaSeparated [])) := by decide
        simp only [List.map_nil]
        omega
      exact ⟨some [], by simp [Tree.child?, hstop], rfl⟩
    · have ht := (hall t (List.mem_singleton_self t)).1
      refine ⟨some ys, ?_, by rw [Option.map_some, Option.map_some, hb]⟩
      rw [Tree.child?_of_eq ht]
      simp only [argumentsOfTree, Tree.expect_eq_ok_iff.mpr ht, lowered_ok_bind, hys]
      rfl

theorem SubroutineCall.exists_tree (c : SubroutineCall) (hc : c.isWellFormed)
    (hu : u.Stops .wordChar) (hat : (Cursor.start (c.spell ++ u) n).At source.content) :
    ∃ t : Tree, t.Spells Cursor.skipGap .subroutineCall c.spell n u ∧
      ∃ y, SubroutineCall.ofTree source t = .ok y ∧ y.bare = c.bare ∧ y.span = t.span := by
  obtain ⟨hx, hes⟩ := Bool.and_eq_true_iff.mp hc
  have hw : c.spell = ['c', 'a', 'l', 'l'] ++
      ([' '] ++ (c.name.spell ++ spellArguments c.arguments)) := rfl
  rw [hw] at hat ⊢
  simp only [List.append_assoc] at hat
  obtain ⟨k, hk⟩ := exists_callKeyword n (c.name.spell ++ (spellArguments c.arguments ++ u))
  have hat' := hat.behind.behind
  rw [← List.append_assoc] at hat'
  obtain ⟨v, ts, x, hts, hset, hv, hname, hxb, hlower⟩ := exists_calledName hx hes hu hat'
  have hbegins := ((Identifier.begins hx).append (spellArguments c.arguments)).append u
  rw [← List.append_assoc] at hk
  have hseq := Phrase.Spells.seq hk.of_id.derives (Cursor.gap_blank hbegins) hts
  have htrees : [k] ++ v :: ts = k :: v :: ts := rfl
  rw [htrees] at hseq
  obtain ⟨y, hy, hb⟩ := hlower ⟨n, n + Text.size (['c', 'a', 'l', 'l'] ++
    ([' '] ++ (c.name.spell ++ spellArguments c.arguments)))⟩ k hk.rule (by simp [Nat.add_assoc])
  refine ⟨_, Rule.spells_spaced rfl (by decide) hseq (List.forall_mem_cons.mpr ⟨hk.settled, hset⟩),
    ⟨x, y, _⟩, ?_, by rw [bare, bare, hxb, hb], rfl⟩
  · have hne : k.rule ≠ .name := by rw [hk.rule]; decide
    rw [SubroutineCall.ofTree, Tree.expect_mk, Tree.required, Tree.child?_of_ne hne,
      Tree.child?_of_eq hv]
    simp only [lowered_ok_bind, hname, hy]
    rfl

end FreeForm
