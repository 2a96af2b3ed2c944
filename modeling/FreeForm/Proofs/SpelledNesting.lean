import FreeForm.Proofs.NestingScan
import FreeForm.Proofs.SpelledLiterals

/-!
# The nesting of spelled parentheses

The pass that measures the nesting of parentheses finds in a spelling what `parenDepth` says
(`Fragment.nestingDepth_spell`).  Each part of a spelling leaves the pass as it was, except that the
part may have been deeper than all before it (`Text.Nests`).
-/

namespace FreeForm

/-! ## Parts of a text -/

/-- A pass over the text ends as it began, `k` parentheses deep at most. -/
def Text.Nests (w : Text) (k : Nat) : Prop :=
  ∀ m : Nesting, m.Outside → m.depth ≤ m.deepest →
    w.foldl Nesting.next m = { m with deepest := max m.deepest (m.depth + k) }

namespace Text

variable {v w : Text} {j k : Nat}

theorem nests_of_notMem (h : ∀ c ∈ w, c ∉ Nesting.marks) : w.Nests 0 := by
  intro m hm hd
  have hfold : w.foldl Nesting.next m = m := by
    induction w with
    | nil => rfl
    | cons c w ih =>
      obtain ⟨hc, hw⟩ := List.forall_mem_cons.mp h
      rw [List.foldl_cons, Nesting.next_of_notMem hm hc, ih hw]
  rw [hfold, Nat.add_zero, Nat.max_eq_left hd]

theorem nests_of_all (h : w.all (· ∉ Nesting.marks)) : w.Nests 0 :=
  nests_of_notMem fun c hc => of_decide_eq_true (List.all_eq_true.mp h c hc)

theorem nests_of_wordChar (h : ∀ c ∈ w, CharClass.wordChar.holds c) : w.Nests 0 := by
  have hmarks : Nesting.marks.all fun m => !CharClass.wordChar.holds m := by decide
  exact nests_of_notMem fun c hc hm => by simpa [h c hc] using List.all_eq_true.mp hmarks c hm

theorem Nests.append (hw : w.Nests j) (hv : v.Nests k) : (w ++ v).Nests (max j k) := by
  intro m hm hd
  have hm' : Nesting.Outside { m with deepest := max m.deepest (m.depth + j) } := ⟨hm.1, hm.2⟩
  rw [List.foldl_append, hw m hm hd, hv _ hm' (by simp only; omega)]
  simp only [Nesting.mk.injEq, true_and]
  omega

/-- Parentheses around a text are one deeper than the text. -/
theorem Nests.parenthesized (hw : w.Nests k) : (parenthesized w).Nests (k + 1) := by
  intro m hm hd
  have hopen : m.next '(' =
      { m with depth := m.depth + 1, deepest := max m.deepest (m.depth + 1) } := by
    simp [Nesting.next, hm.quote, hm.inComment]
  have hm' : Nesting.Outside (m.next '(') := by
    rw [hopen]
    exact ⟨hm.1, hm.2⟩
  have hdeep : (m.next '(').depth ≤ (m.next '(').deepest := by
    rw [hopen]
    exact Nat.le_max_right ..
  rw [FreeForm.parenthesized, List.foldl_cons, List.foldl_append, hw _ hm' hdeep, hopen]
  simp [Nesting.next, hm.quote, hm.inComment]
  omega

/-- What stands in quotes does not count. -/
theorem nests_quoted {q : Char} (hq : q = '"' ∨ q = '\'') (hw : q ∉ w) :
    Nests (q :: (w ++ [q])) 0 := by
  intro m hm hd
  have hopen : m.next q = { m with quote := some q } := by
    rcases hq with rfl | rfl
    · simp [Nesting.next, hm.quote, hm.inComment]
    · simp [Nesting.next, hm.quote, hm.inComment]
  have hinside : w.foldl Nesting.next { m with quote := some q } = { m with quote := some q } := by
    induction w with
    | nil => rfl
    | cons c w ih =>
      simp only [List.mem_cons, not_or] at hw
      have hc : Nesting.next { m with quote := some q } c = { m with quote := some q } := by
        simp [Nesting.next, hm.inComment, Ne.symm hw.1]
      rw [List.foldl_cons, hc, ih hw.2]
  have hclose : Nesting.next { m with quote := some q } q = m := by
    obtain ⟨quote, inComment, depth, deepest⟩ := m
    obtain ⟨rfl, rfl⟩ := hm
    simp [Nesting.next]
  rw [List.foldl_cons, hopen, List.foldl_append, hinside, List.foldl_cons, hclose, List.foldl_nil,
    Nat.add_zero, Nat.max_eq_left hd]

theorem nests_commaSeparated {α : Type} {spell : α → Text} {depth : α → Nat} {l : List α}
    (h : ∀ x ∈ l, (spell x).Nests (depth x)) :
    (commaSeparated (l.map spell)).Nests (deepest (l.map depth)) := by
  induction l with
  | nil => exact nests_of_all rfl
  | cons x l ih =>
    obtain ⟨hx, hl⟩ := List.forall_mem_cons.mp h
    cases l with
    | nil => simpa [commaSeparated, deepest] using hx
    | cons y l =>
      have hcomma : Nests [',', ' '] 0 := nests_of_all (by decide)
      have hall := (hx.append hcomma).append (ih hl)
      rw [Nat.max_zero] at hall
      rw [List.map_cons, List.map_cons, commaSeparated, List.intercalate_cons_cons]
      exact hall

theorem nests_commaSeparated_zero {α : Type} {spell : α → Text} {l : List α}
    (h : ∀ x ∈ l, (spell x).Nests 0) : (commaSeparated (l.map spell)).Nests 0 := by
  have hmax : deepest (l.map fun _ => 0) = 0 := by
    induction l with
    | nil => rfl
    | cons x l ih => exact ih fun y hy => h y (List.mem_cons_of_mem x hy)
  have hall := nests_commaSeparated h
  rwa [hmax] at hall

end Text

theorem nestingDepth_of_nests {w : Text} {k : Nat} (h : w.Nests k) : nestingDepth w = k := by
  rw [nestingDepth, h .initial ⟨rfl, rfl⟩ (Nat.le_refl 0)]
  simp [Nesting.initial]

/-! ## Names and literals -/

theorem nests_of_isName {w : Text} (hw : isName w) : w.Nests 0 := by
  cases w with
  | nil => simp [isName] at hw
  | cons c w =>
    simp only [isName, Bool.and_eq_true, List.all_eq_true] at hw
    refine Text.nests_of_wordChar (List.forall_mem_cons.mpr ⟨?_, hw.2⟩)
    simp [CharClass.holds, Char.isAlphanum, hw.1]

theorem nests_of_isDigitRun {w : Text} (hw : isDigitRun w) : w.Nests 0 := by
  simp only [isDigitRun, Bool.and_eq_true, List.all_eq_true] at hw
  exact Text.nests_of_wordChar fun c hc => by simp [CharClass.holds, Char.isAlphanum, hw.2 c hc]

theorem nests_kindSuffix {kind : Option Text} (hk : kind.all isKind) :
    (kindSuffix kind).Nests 0 := by
  cases kind with
  | none => exact Text.nests_of_all rfl
  | some k =>
    have hmark : Text.Nests ['_'] 0 := Text.nests_of_all (by decide)
    rcases Bool.or_eq_true_iff.mp (by simpa using hk : isKind k) with hk | hk
    · exact hmark.append (nests_of_isName hk)
    · exact hmark.append (nests_of_isDigitRun hk)

theorem nests_signPrefix (g : Option Sign) : (signPrefix g).Nests 0 := by
  rcases g with _ | _ | _ <;> exact Text.nests_of_all (by decide)

theorem IntegerLiteral.nests {x : IntegerLiteral} (hx : x.isWellFormed) : x.spell.Nests 0 := by
  obtain ⟨hd, hk⟩ := Bool.and_eq_true_iff.mp hx
  exact (nests_of_isDigitRun hd).append (nests_kindSuffix hk)

theorem FloatLiteral.nests {x : FloatLiteral} (hx : x.isWellFormed) : x.spell.Nests 0 := by
  simp only [isWellFormed, Bool.and_eq_true] at hx
  obtain ⟨⟨hw, hf⟩, hk⟩ := hx
  have hpoint : Text.Nests ['.'] 0 := Text.nests_of_all (by decide)
  have hbehind := hpoint.append ((nests_of_isDigitRun hf).append (nests_kindSuffix hk))
  exact (nests_of_isDigitRun hw).append hbehind

theorem Number.nests {x : Number} (hx : x.isWellFormed) : x.spell.Nests 0 := by
  obtain ⟨sign, literal, span⟩ := x
  refine (nests_signPrefix sign).append (k := 0) ?_
  cases literal with
  | integer y => exact IntegerLiteral.nests hx
  | float y => exact FloatLiteral.nests hx

theorem StringLiteral.nests {x : StringLiteral} (hx : x.isWellFormed) : x.spell.Nests 0 := by
  simp only [isWellFormed, Bool.and_eq_true, Bool.or_eq_true, decide_eq_true_eq,
    Bool.not_eq_true', List.contains_eq_mem, decide_eq_false_iff_not] at hx
  exact Text.nests_quoted hx.1 hx.2

theorem Boolean.nests (x : Boolean) : x.spell.Nests 0 := by
  have hword : (truthWord x.literal).Nests 0 := by
    cases x.literal <;> exact Text.nests_of_all (by decide)
  have hnot : Text.Nests ['.', 'n', 'o', 't', '.', ' '] 0 := Text.nests_of_all (by decide)
  rw [spell]
  split
  · exact hnot.append hword
  · exact hword

theorem Literal.nests {x : Literal} (hx : x.isWellFormed) : x.spell.Nests 0 := by
  cases x with
  | number x => exact Number.nests hx
  | string x => exact StringLiteral.nests hx
  | boolean x => exact x.nests

theorem ArrayItems.nests {x : ArrayItems} (hx : x.isWellFormed) : x.spell.Nests 0 := by
  cases x with
  | booleans bs => exact Text.nests_commaSeparated_zero fun b _ => b.nests
  | strings ss =>
    simp only [isWellFormed, Bool.and_eq_true, List.all_eq_true] at hx
    exact Text.nests_commaSeparated_zero fun s hs => StringLiteral.nests (hx.2 s hs)
  | numbers ns =>
    simp only [isWellFormed, Bool.and_eq_true, List.all_eq_true] at hx
    exact Text.nests_commaSeparated_zero fun x hmem => Number.nests (hx.2 x hmem)

theorem InPlaceArray.nests {x : InPlaceArray} (hx : x.isWellFormed) : x.spell.Nests 1 := by
  have hleft : Text.Nests ['/', ' '] 0 := Text.nests_of_all (by decide)
  have hright : Text.Nests [' ', '/'] 0 := Text.nests_of_all (by decide)
  exact (hleft.append ((ArrayItems.nests hx).append hright)).parenthesized

/-! ## Variables -/

theorem Bound.nests {x : Bound} (hx : x.isWellFormed) : x.spell.Nests 0 := by
  cases x with
  | integer x => exact IntegerLiteral.nests hx
  | name x => exact nests_of_isName hx

theorem IndexRegion.nests {x : IndexRegion} (hx : x.isWellFormed) : x.spell.Nests 0 := by
  have hbound : ∀ {b : Option Bound}, b.all Bound.isWellFormed →
      Text.Nests (b.elim [] Bound.spell) 0 := by
    intro b hb
    cases b with
    | none => exact Text.nests_of_all rfl
    | some b => exact Bound.nests (by simpa using hb)
  obtain ⟨hl, hu⟩ := Bool.and_eq_true_iff.mp hx
  have hcolon : Text.Nests [':'] 0 := Text.nests_of_all (by decide)
  exact (hbound hl).append (hcolon.append (hbound hu))

theorem ArrayIndex.nests {x : ArrayIndex} (hx : x.isWellFormed) : x.spell.Nests 0 := by
  cases x with
  | region x => exact IndexRegion.nests hx
  | integer x => exact IntegerLiteral.nests hx
  | name x => exact nests_of_isName hx

theorem AccessedVariable.nests {x : AccessedVariable} (hx : x.isWellFormed) :
    x.spell.Nests x.parenDepth := by
  obtain ⟨sign, target, span⟩ := x
  cases target with
  | indexed a =>
    have ha : a.isWellFormed := hx
    simp only [IndexedArray.isWellFormed, Bool.and_eq_true, List.all_eq_true] at ha
    have hindices := Text.nests_commaSeparated_zero fun i hi => ArrayIndex.nests (ha.2 i hi)
    exact (nests_signPrefix sign).append ((nests_of_isName ha.1.1).append hindices.parenthesized)
  | plain y => exact (nests_signPrefix sign).append (nests_of_isName hx)

/-! ## Expressions and statements -/

theorem Expr.nests (e : Expr) (he : e.isWellFormed) : e.spell.Nests e.parenDepth := by
  induction e using Expr.induction with
  | call x es s ih =>
    rw [isWellFormed, areWellFormed_eq_all, Bool.and_eq_true, List.all_eq_true] at he
    rw [spell, spellings_eq_map, parenDepth, parenDepths_eq_map]
    have hargs := Text.nests_commaSeparated fun e hmem => ih e hmem (he.2 e hmem)
    have hcall := (nests_of_isName he.1).append hargs.parenthesized
    rwa [Nat.zero_max] at hcall
  | array a =>
    rw [isWellFormed] at he
    rw [spell, parenDepth]
    exact InPlaceArray.nests he
  | literal l =>
    rw [isWellFormed] at he
    rw [spell, parenDepth]
    exact Literal.nests he
  | access v =>
    rw [isWellFormed, Bool.and_eq_true] at he
    rw [spell, parenDepth]
    exact AccessedVariable.nests he.1

theorem Chain.nests {ω α : Type} {operator : ω → Text} {operand : α → Text} {depth : α → Nat}
    {c : Chain ω α} (ho : ∀ o, (operator o).Nests 0)
    (hc : ∀ x ∈ c.operands, (operand x).Nests (depth x)) :
    (c.spell operator operand).Nests (c.parenDepth depth) := by
  obtain ⟨hfirst, hrest⟩ := List.forall_mem_cons.mp hc
  refine hfirst.append (k := deepest ((c.rest.map Prod.snd).map depth)) ?_
  generalize c.rest = l at hrest
  induction l with
  | nil => exact Text.nests_of_all rfl
  | cons x l ih =>
    rw [List.map_cons] at hrest
    obtain ⟨hx, hl⟩ := List.forall_mem_cons.mp hrest
    have hblank : Text.Nests [' '] 0 := Text.nests_of_all (by decide)
    have hround := hblank.append ((ho x.1.value).append (hblank.append hx))
    rw [Nat.zero_max, Nat.zero_max, Nat.zero_max] at hround
    exact hround.append (ih hl)

theorem ArithmeticStatement.nests {c : ArithmeticStatement} (hc : c.isWellFormed) :
    c.spell.Nests c.parenDepth :=
  Chain.nests (fun o => Text.nests_of_all (by cases o <;> decide))
    fun e he => e.nests (List.all_eq_true.mp hc e he)

theorem RelationalStatement.nests (words : Bool) {c : RelationalStatement} (hc : c.isWellFormed) :
    (c.spell words).Nests c.parenDepth :=
  Chain.nests (fun o => Text.nests_of_all (by cases words <;> cases o <;> decide))
    fun c hmem => ArithmeticStatement.nests (List.all_eq_true.mp hc c hmem)

theorem LogicalStatement.nests (words : Bool) {c : LogicalStatement} (hc : c.isWellFormed) :
    (c.spell words).Nests c.parenDepth :=
  Chain.nests (fun o => Text.nests_of_all (by cases o <;> decide))
    fun c hmem => RelationalStatement.nests words (List.all_eq_true.mp hc c hmem)

theorem Assignment.nests {a : Assignment} (ha : a.isWellFormed) : a.spell.Nests a.parenDepth := by
  obtain ⟨hx, he⟩ := Bool.and_eq_true_iff.mp ha
  have hsign : Text.Nests [' ', '=', ' '] 0 := Text.nests_of_all (by decide)
  have hall := ((AccessedVariable.nests hx).append hsign).append (a.value.nests he)
  rwa [Nat.max_zero] at hall

theorem SubroutineCall.nests {c : SubroutineCall} (hc : c.isWellFormed) :
    c.spell.Nests c.parenDepth := by
  obtain ⟨name, arguments, span⟩ := c
  obtain ⟨hx, hes⟩ := Bool.and_eq_true_iff.mp hc
  have hcall : Text.Nests ['c', 'a', 'l', 'l', ' '] 0 := Text.nests_of_all (by decide)
  cases arguments with
  | none =>
    have hnone : Text.Nests (spellArguments none) 0 :=
      Text.nests_of_all rfl
    exact hcall.append ((nests_of_isName hx).append hnone)
  | some es =>
    have hes' := List.all_eq_true.mp (by simpa using hes : es.all Expr.isWellFormed)
    have hargs := Text.nests_commaSeparated fun (e : Expr) hmem => e.nests (hes' e hmem)
    have hall := hcall.append ((nests_of_isName hx).append hargs.parenthesized)
    rwa [Nat.zero_max, Nat.zero_max] at hall

/-- **The parentheses of a spelling nest as deeply as those of the fragment.** -/
theorem Fragment.nestingDepth_spell (words : Bool) {x : Fragment} (hx : x.isWellFormed) :
    nestingDepth (x.spell words) = x.parenDepth := by
  refine nestingDepth_of_nests ?_
  cases x with
  | expr e => exact e.nests hx
  | arithmetic c => exact ArithmeticStatement.nests hx
  | relational c => exact RelationalStatement.nests words hx
  | logical c => exact LogicalStatement.nests words hx
  | assignment a => exact Assignment.nests hx
  | subroutineCall c => exact SubroutineCall.nests hx

end FreeForm
