import FreeForm.Lowering.Variable
import FreeForm.Proofs.SpelledLiterals

/-!
# Spelled variables

The lemmas `exists_tree` for the access to variables.  A variable that is spelled like a call can
still be read as a variable, but not as an expression.  So `AccessedVariable.exists_tree` says
besides that the tree of a variable that can be an expression is no call (`Tree.Operand`).
-/

namespace FreeForm

variable {source : Source} {n : Nat} {u : Text}

/-! ## Indices -/

theorem Identifier.begins {x : Identifier} (hx : x.isWellFormed) : x.spell.Begins :=
  begins_of_isName hx

theorem Bound.exists_tree {r : Rule} (hr : r.production = .spaced (.anyOf .integer [.name]))
    (hne : r ≠ .valueReturningCode) (x : Bound) (hx : x.isWellFormed) (hu : u.Stops .wordChar)
    (hat : (Cursor.start (x.spell ++ u) n).At source.content) :
    ∃ t : Tree, t.Spells Cursor.skipGap r x.spell n u ∧
      Recovers bare (Bound.ofTree source t) x := by
  cases x with
  | integer x =>
    obtain ⟨t, ht, y, hy, hb⟩ := x.exists_tree hx hu hat
    refine ⟨_, Rule.spells_spaced hr hne (ht.of_id.derives.anyOf (by decide))
      (by simpa using ht.settled), .integer y, ?_, by rw [bare, hb, bare]⟩
    simp [Bound.ofTree, ht.rule, hy]
  | name x =>
    obtain ⟨t, ht, hy⟩ := x.exists_tree hx hu hat
    refine ⟨_, Rule.spells_spaced hr hne (ht.of_id.derives.anyOf (by decide))
      (by simpa using ht.settled), .name ⟨x.name, ⟨n, n + Text.size x.name⟩⟩, ?_, rfl⟩
    simp only [Bound.ofTree, Tree.firstChild_mk, lowered_ok_bind, ht.rule, hy]
    rfl

theorem Bound.begins {x : Bound} (hx : x.isWellFormed) : x.spell.Begins := by
  cases x with
  | integer x => exact IntegerLiteral.begins hx
  | name x => exact Identifier.begins hx

/-- The colon of a region and the bound behind it. -/
theorem exists_upperBound {upper : Option Bound} (hx : upper.all Bound.isWellFormed)
    (hu : u.Stops .wordChar)
    (hat : (Cursor.start (':' :: upper.elim [] Bound.spell ++ u) n).At source.content) :
    ∃ ts : List Tree, (Phrase.seq (.punct [':']) (.opt (.call .upperBound))).Spells
        Cursor.skipGap (':' :: upper.elim [] Bound.spell) n u ts ∧
      (∀ t ∈ ts, t.rule = .upperBound ∧ t.Settled (Rule.Asks Tree.HasRegion)) ∧
      ∀ s, Recovers (Option.map Bound.bare)
        ((⟨.arrayIndexRegion, s, ts⟩ : Tree).optional .upperBound (Bound.ofTree source)) upper := by
  cases upper with
  | none =>
    exact ⟨[], (Phrase.Spells.punct [':']).seq_absent .spaced, by simp, fun s => ⟨_, rfl, rfl⟩⟩
  | some b =>
    have hb : b.isWellFormed := by simpa using hx
    have hat' : (Cursor.start ([':'] ++ ([] ++ (b.spell ++ u))) n).At source.content := hat
    obtain ⟨t, ht, y, hy, hbare⟩ :=
      b.exists_tree (r := .upperBound) rfl (by decide) hb hu hat'.behind.behind
    have hgap := Cursor.gap_nil ((Bound.begins hb).append u)
    refine ⟨[t], .seq (.punct [':']) hgap ht.derives.present, by simpa using ⟨ht.rule, ht.settled⟩,
      fun s => ⟨some y, ?_, by simp [hbare]⟩⟩
    rw [Tree.optional_of_eq ht.rule, hy]
    rfl

theorem IndexRegion.exists_tree (x : IndexRegion) (hx : x.isWellFormed) (hu : u.Stops .wordChar)
    (hat : (Cursor.start (x.spell ++ u) n).At source.content) :
    ∃ t : Tree, t.Spells Cursor.skipGap .arrayIndexRegion x.spell n u ∧
      Recovers bare (IndexRegion.ofTree source t) x := by
  obtain ⟨lower, upper, span⟩ := x
  obtain ⟨hl, hup⟩ := Bool.and_eq_true_iff.mp hx
  have hcolon : ∀ w, Text.Begins (':' :: w) := Text.begins_cons (by decide)
  cases lower with
  | none =>
    obtain ⟨ts, hts, hall, hrec⟩ := exists_upperBound hup hu hat
    obtain ⟨y, hy, hb⟩ := hrec ⟨n, n + Text.size (spell ⟨none, upper, span⟩)⟩
    have hseq := Phrase.Spells.absent_seq (a := .call .lowerBound) (Cursor.gap_nil (hcolon _)) hts
    refine ⟨_, Rule.spells_spaced rfl (by decide) hseq fun t ht => (hall t ht).2,
      ⟨none, y, ⟨n, n + Text.size (spell ⟨none, upper, span⟩)⟩⟩, ?_, ?_⟩
    · have hno := Tree.rule_ne_of_forall (r := .lowerBound) (fun t ht => (hall t ht).1) (by decide)
      rw [IndexRegion.ofTree, Tree.expect_mk, Tree.optional_of_forall_ne hno, hy]
      rfl
    · rw [bare, bare, hb]
  | some b =>
    have hb : b.isWellFormed := by simpa using hl
    have hat' : (Cursor.start (b.spell ++ ([] ++ (':' :: upper.elim [] Bound.spell ++ u))) n).At
        source.content := by simpa [spell] using hat
    obtain ⟨t, ht, y, hy, hbare⟩ := b.exists_tree (r := .lowerBound) rfl (by decide) hb
      (Text.stops_cons (by decide) _) hat'
    obtain ⟨ts, hts, hall, hrec⟩ := exists_upperBound hup hu hat'.behind.behind
    obtain ⟨z, hz, hzbare⟩ := hrec ⟨n, n + Text.size (spell ⟨some b, upper, span⟩)⟩
    have hseq := ht.derives.present.seq (g := []) (Cursor.gap_nil (hcolon _)) hts
    refine ⟨_, Rule.spells_spaced rfl (by decide) hseq
        (List.forall_mem_cons.mpr ⟨ht.settled, fun v hv => (hall v hv).2⟩),
      ⟨some y, z, ⟨n, n + Text.size (spell ⟨some b, upper, span⟩)⟩⟩, ?_, ?_⟩
    · have hne : t.rule ≠ .upperBound := by rw [ht.rule]; decide
      rw [IndexRegion.ofTree, Tree.expect_mk, List.singleton_append, Tree.optional_of_eq ht.rule,
        Tree.optional_of_ne hne, hy, hz]
      rfl
    · rw [bare, bare, hzbare, Option.map_some, Option.map_some, hbare]

theorem ArrayIndex.exists_tree (x : ArrayIndex) (hx : x.isWellFormed) (hu : u.Stops .wordChar)
    (hat : (Cursor.start (x.spell ++ u) n).At source.content) :
    ∃ t : Tree, t.Spells Cursor.skipGap .arrayIndex x.spell n u ∧
      Recovers bare (ArrayIndex.ofTree source t) x ∧
      (x.isRegion → ∃ v ∈ t.children, v.rule = .arrayIndexRegion) := by
  cases x with
  | region x =>
    obtain ⟨t, ht, y, hy, hb⟩ := x.exists_tree hx hu hat
    refine ⟨_, Rule.spells_spaced rfl (by decide) (ht.derives.anyOf (by decide))
        (by simpa using ht.settled),
      ⟨.region y, ?_, by rw [bare, hb, bare]⟩, fun _ => ⟨t, List.mem_singleton_self t, ht.rule⟩⟩
    simp [ArrayIndex.ofTree, ht.rule, hy]
  | integer x =>
    obtain ⟨t, ht, y, hy, hb⟩ := x.exists_tree hx hu hat
    refine ⟨_, Rule.spells_spaced rfl (by decide) (ht.of_id.derives.anyOf (by decide))
        (by simpa using ht.settled),
      ⟨.integer y, ?_, by rw [bare, hb, bare]⟩, by simp [isRegion]⟩
    simp [ArrayIndex.ofTree, ht.rule, hy]
  | name x =>
    obtain ⟨t, ht, hy⟩ := x.exists_tree hx hu hat
    refine ⟨_, Rule.spells_spaced rfl (by decide) (ht.of_id.derives.anyOf (by decide))
        (by simpa using ht.settled),
      ⟨.name ⟨x.name, ⟨n, n + Text.size x.name⟩⟩, ?_, rfl⟩, by simp [isRegion]⟩
    simp only [ArrayIndex.ofTree, Tree.expect_mk, Tree.firstChild_mk, lowered_ok_bind, ht.rule, hy]
    rfl

theorem ArrayIndex.begins {x : ArrayIndex} (hx : x.isWellFormed) : x.spell.Begins := by
  cases x with
  | region x =>
    obtain ⟨lower, upper, span⟩ := x
    obtain ⟨hl, -⟩ := Bool.and_eq_true_iff.mp hx
    cases lower with
    | none => exact Text.begins_cons (by decide) _
    | some b => exact (Bound.begins (by simpa using hl)).append _
  | integer x => exact IntegerLiteral.begins hx
  | name x => exact Identifier.begins hx

/-! ## Variables -/

/-- What stands in the parentheses behind a part. -/
theorem Cursor.At.inside {s v w : Text} (h : (start (v ++ parenthesized w ++ u) n).At s) :
    (start (w ++ ')' :: u) (n + Text.size v + Text.size ['('])).At s := by
  rw [List.append_assoc] at h
  have hopen : (start (['('] ++ (w ++ ([')'] ++ u))) (n + Text.size v)).At s := by
    simpa [parenthesized] using h.behind
  exact hopen.behind

theorem begins_parenthesized (w u : Text) : (parenthesized w ++ u).Begins :=
  Text.begins_cons (by decide) _

/-- A parenthesis, and a phrase that ends with the other one. -/
theorem Phrase.Spells.parenthesized {a : Phrase} {w : Text} {ts : List Tree}
    (ha : a.Spells Cursor.skipGap (w ++ [')']) (n + Text.size ['(']) u ts)
    (hw : (w ++ [')']).Begins) :
    (Phrase.seq (.punct ['(']) a).Spells Cursor.skipGap (FreeForm.parenthesized w) n u ts :=
  Phrase.Spells.seq (g := []) (.punct ['(']) (Cursor.gap_nil (hw.append u)) ha

theorem exists_of_mem_left {α β : Type} {R : α → β → Prop} {l : List α} {m : List β}
    (h : List.Forall₂ R l m) {x : α} (hx : x ∈ l) : ∃ y ∈ m, R x y := by
  induction h with
  | nil => simp at hx
  | @cons a b l m hab _ ih =>
    rcases List.mem_cons.mp hx with rfl | hx
    · exact ⟨b, List.mem_cons_self, hab⟩
    · obtain ⟨y, hy, hR⟩ := ih hx
      exact ⟨y, List.mem_cons_of_mem b hy, hR⟩

theorem IndexedArray.exists_tree (x : IndexedArray) (hx : x.isWellFormed)
    (hat : (Cursor.start (x.spell ++ u) n).At source.content) :
    ∃ t : Tree, t.Spells Cursor.skipGap .indexedArray x.spell n u ∧
      Recovers bare (IndexedArray.ofTree source t) x ∧
      (x.indices.any ArrayIndex.isRegion → t.HasRegion) := by
  simp only [isWellFormed, Bool.and_eq_true, List.all_eq_true, Bool.not_eq_true',
    List.isEmpty_eq_false_iff] at hx
  obtain ⟨⟨hxn, hne⟩, hxi⟩ := hx
  have hitem : ∀ i ∈ x.indices, Rule.arrayIndex.SpellsItem source.content ArrayIndex.spell
      (fun i t => Recovers ArrayIndex.bare (ArrayIndex.ofTree source t) i ∧
        (i.isRegion → ∃ v ∈ t.children, v.rule = .arrayIndexRegion)) i := fun i hi =>
    ⟨fun _ _ hu hat => i.exists_tree (hxi i hi) hu hat, ArrayIndex.begins (hxi i hi)⟩
  have hbegins := begins_commaSeparated hne fun i hi => ArrayIndex.begins (hxi i hi)
  obtain ⟨ts, hlist, hts, hP⟩ :=
    Rule.exists_commaList hitem hne (Text.stops_cons (by decide) u) hat.inside
  have hclose := hlist.seq (g := []) (Cursor.gap_nil (Text.begins_cons (by decide) _))
    (.punct [')'])
  obtain ⟨v, hv, hname⟩ := x.name.exists_tree hxn (Text.stops_cons (by decide) _)
    (List.append_assoc _ _ _ ▸ hat)
  have hseq := hv.of_id.derives.seq (g := []) (Cursor.gap_nil (begins_parenthesized _ u))
    (hclose.assoc.parenthesized (hbegins.append _))
  rw [List.append_nil, List.singleton_append] at hseq
  refine ⟨_, Rule.spells_spaced rfl (by decide) hseq
    (List.forall_mem_cons.mpr ⟨hv.settled, fun t ht => (hts t ht).2⟩), ?_, fun hr => ?_⟩
  · obtain ⟨ys, hys, hb⟩ := recovers_mapM (hP.imp fun _ _ h => h.1)
    have hne : v.rule ≠ .arrayIndex := by rw [hv.rule]; decide
    refine ⟨⟨⟨x.name.name, ⟨n, n + Text.size x.name.name⟩⟩, ys, ⟨n, n + Text.size x.spell⟩⟩, ?_,
      by rw [bare, hb]; rfl⟩
    rw [IndexedArray.ofTree, Tree.expect_mk, Tree.required_of_eq hv.rule,
      Tree.childrenNamed_of_ne hne, Tree.childrenNamed_of_forall fun t ht => (hts t ht).1]
    simp only [lowered_ok_bind, hname, hys]
    rfl
  · obtain ⟨i, hi, hregion⟩ := List.any_eq_true.mp hr
    obtain ⟨t, ht, -, htree⟩ := exists_of_mem_left hP hi
    exact ⟨t, List.mem_cons_of_mem v ht, htree hregion⟩

theorem VariableRef.exists_tree (x : VariableRef) (hx : x.isWellFormed) (hu : u.Stops .wordChar)
    (hat : (Cursor.start (x.spell ++ u) n).At source.content) :
    ∃ t : Tree, (Phrase.anyOf .indexedArray [.name]).Spells Cursor.skipGap x.spell n u [t] ∧
      t.Settled (Rule.Asks Tree.HasRegion) ∧ t.rule ≠ .sign ∧ t.span.start = n ∧
      (x.isNoCall → t.rule = .indexedArray → t.HasRegion) ∧
      ∀ (s : Span) (ts : List Tree), (∀ v ∈ ts, v.rule = .sign) →
        Recovers bare (VariableRef.ofTree source ⟨.accessedVariable, s, ts ++ [t]⟩) x := by
  cases x with
  | indexed x =>
    obtain ⟨t, ht, ⟨y, hy, hb⟩, hregion⟩ := x.exists_tree hx hat
    refine ⟨t, ht.derives.anyOf (by decide), ht.settled, by rw [ht.rule]; decide, by rw [ht.span],
      fun hr _ => hregion hr, fun s ts hts => ⟨.indexed y, ?_, by rw [bare, hb, bare]⟩⟩
    have hskip := Tree.rule_ne_of_forall (r := .indexedArray) hts (by decide)
    rw [VariableRef.ofTree, Tree.child?_append_of_ne hskip, Tree.child?_of_eq ht.rule]
    simp only [hy]
    rfl
  | plain x =>
    obtain ⟨t, ht, hy⟩ := x.exists_tree hx hu hat
    have hne : t.rule ≠ .indexedArray := by rw [ht.rule]; decide
    refine ⟨t, ht.of_id.derives.anyOf (by decide), ht.settled, by rw [ht.rule]; decide,
      by rw [ht.span], fun _ hr => absurd hr hne,
      fun s ts hts => ⟨.plain ⟨x.name, ⟨n, n + Text.size x.name⟩⟩, ?_, rfl⟩⟩
    have hskip := fun {q} (hq : Rule.sign ≠ q) => Tree.rule_ne_of_forall hts hq
    rw [VariableRef.ofTree, Tree.child?_append_of_ne (hskip (by decide)), Tree.child?_of_ne hne,
      Tree.required, Tree.child?_append_of_ne (hskip (by decide)), Tree.child?_of_eq ht.rule]
    simp only [Tree.child?, List.find?_nil, lowered_ok_bind, hy]
    rfl

theorem VariableRef.begins {x : VariableRef} (hx : x.isWellFormed) : x.spell.Begins := by
  cases x with
  | indexed x =>
    simp only [isWellFormed, IndexedArray.isWellFormed, Bool.and_eq_true] at hx
    exact (Identifier.begins hx.1.1).append _
  | plain x => exact Identifier.begins hx

theorem AccessedVariable.begins {x : AccessedVariable} (hx : x.isWellFormed) : x.spell.Begins :=
  begins_signPrefix (VariableRef.begins hx)

theorem AccessedVariable.exists_tree (x : AccessedVariable) (hx : x.isWellFormed)
    (hu : u.Stops .wordChar) (hat : (Cursor.start (x.spell ++ u) n).At source.content) :
    ∃ t : Tree, t.Spells Cursor.skipGap .accessedVariable x.spell n u ∧
      (∃ y, AccessedVariable.ofTree source t = .ok y ∧ y.bare = x.bare ∧ y.span = t.span) ∧
      (x.isOperand → t.Operand Tree.HasRegion) := by
  have hbegins := (VariableRef.begins hx).append u
  rw [spell, List.append_assoc] at hat
  obtain ⟨t, ht, hset, hr, hstart, hregion, hlower⟩ := x.target.exists_tree hx hu hat.behind
  cases hg : x.sign with
  | none =>
    rw [hg] at ht hstart
    have hw : x.spell = x.target.spell := by rw [spell, hg]; rfl
    rw [hw]
    have hseq := Phrase.Spells.absent_seq (a := .call .sign) (Cursor.gap_nil hbegins) ht
    obtain ⟨y, hy, hb⟩ := hlower ⟨n, n + Text.size x.target.spell⟩ [] (by simp)
    rw [List.nil_append] at hy
    refine ⟨_, Rule.spells_spaced rfl (by decide) hseq (by simpa using hset),
      ⟨⟨none, y, _⟩, ?_, by simp [bare, hb, hg], rfl⟩, fun hop _ v hv hvr _ => ?_⟩
    · rw [AccessedVariable.ofTree, Tree.expect_mk, hy, Tree.optional_of_ne hr]
      rfl
    · rw [List.mem_singleton.mp hv] at hvr ⊢
      exact hregion (by simpa [isOperand, hg] using hop) hvr
  | some g =>
    rw [hg] at ht hstart hat
    have hw : x.spell = signPrefix (some g) ++ ([] ++ x.target.spell) := by rw [spell, hg]; rfl
    rw [hw]
    obtain ⟨v, hv, hsign⟩ := exists_sign source g n (x.target.spell ++ u)
    have hseq := hv.of_id.derives.present.seq (g := []) (Cursor.gap_nil hbegins) ht
    obtain ⟨y, hy, hb⟩ := hlower
      ⟨n, n + Text.size (signPrefix (some g) ++ ([] ++ x.target.spell))⟩ [v]
      (by simpa using hv.rule)
    rw [List.singleton_append] at hy hseq
    refine ⟨_, Rule.spells_spaced rfl (by decide) hseq (by simpa using ⟨hv.settled, hset⟩),
      ⟨⟨some g, y, _⟩, ?_, by simp [bare, hb, hg], rfl⟩, fun hop _ v' hv' hvr hpos => ?_⟩
    · rw [AccessedVariable.ofTree, Tree.expect_mk, hy, Tree.optional_of_eq hv.rule, hsign hat]
      rfl
    · -- behind a sign, an array access does not stand where the variable starts
      rcases List.mem_cons.mp hv' with rfl | hv'
      · exact absurd (hv.rule.symm.trans hvr) (by decide)
      · rw [List.mem_singleton.mp hv', hstart] at hpos
        have hsize : 0 < Text.size (signPrefix (some g)) := by cases g <;> decide
        simp only at hpos
        omega

end FreeForm
