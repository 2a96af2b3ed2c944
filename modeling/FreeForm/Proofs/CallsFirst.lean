import FreeForm.Proofs.Assembly
import FreeForm.Proofs.Reparse

/-!
# Calls come before array accesses

A name with a list in parentheses may be a call or an array access, and where a value is read the
call is tried first.  In a text that does not begin with noise it is tried at the very place where a
variable without a sign begins.  So an array access is left only where the call fails, and this is
where one of its indices is a region (`regionIndex_of_parse`).
-/

namespace FreeForm

/-- The tree is an array access with a region among its indices. -/
def Tree.HasRegionIndex (t : Tree) : Prop :=
  ∃ i ∈ t.childrenNamed .arrayIndex, ∃ j ∈ i.children, j.rule = .arrayIndexRegion

/-- In a text, regions stand in the indices of array accesses only. -/
theorem Tree.hasRegion_iff {s : Text} {t : Tree} (h : ∀ n ∈ t.nodes, n.GrownIn s)
    (hr : t.rule = .indexedArray) : t.HasRegion ↔ t.HasRegionIndex := by
  constructor
  · rintro ⟨i, hi, j, hj, hregion⟩
    refine ⟨i, ?_, j, hj, hregion⟩
    have hir := (h t t.self_mem_nodes).rule_mem_calls i hi
    have hjr := (h i (mem_nodes_of_child hi)).rule_mem_calls j hj
    rw [hr] at hir
    have hcases : i.rule = .name ∨ i.rule = .arrayIndex := by
      simpa [Rule.production, Production.calls, Phrase.calls, Phrase.inOrder, Phrase.punct] using hir
    rcases hcases with hname | hindex
    · rw [hname] at hjr
      exact absurd hjr List.not_mem_nil
    · exact List.mem_filter.mpr ⟨hi, by simpa using hindex⟩
  · rintro ⟨i, hi, j, hj, hregion⟩
    exact ⟨i, List.mem_of_mem_filter hi, j, hj, hregion⟩

/-- A variable without a sign begins with its name or its array access, if no noise stands where it
begins. -/
theorem Tree.GrownClean.start_of_unsigned {s : Text} {v : Tree} (h : v.GrownClean s)
    (hr : v.rule = .accessedVariable) (hsign : v.child? .sign = none) :
    ∀ x ∈ v.children, x.span.start = v.span.start := by
  obtain ⟨c, d, -, -, hclean, hd, hspan⟩ := h
  rw [hr] at hd
  obtain ⟨us, x, vs, hopt, hvar, hts⟩ := derives_seq_iff.mp hd
  rcases derives_opt_iff.mp hopt with ⟨rfl, rfl⟩ | hcall
  · rw [hclean] at hvar
    obtain ⟨q, -, hq⟩ := derives_anyOf hvar
    obtain ⟨ws, rfl, -⟩ := derives_call_iff.mp hq
    rw [hts, hspan]
    simp
  · obtain ⟨ws, rfl, -⟩ := derives_call_iff.mp hcall
    have hfirst : v.child? .sign = some ⟨.sign, ⟨c.pos, x.stop⟩, ws⟩ := by
      rw [child?, hts]
      simp
    rw [hfirst] at hsign
    exact absurd hsign (by simp)

namespace Rule

variable {c d : Cursor} {t x : Tree}

/-- Where an array access can be read, a value is a call if and only if no index is a region. -/
theorem isCall_iff_of_found (h : (valueReturningCode.read c).found = some ([t], d))
    {e : Cursor} (hx : (indexedArray.read c).found = some ([x], e)) :
    (∃ f, t.children = [f] ∧ f.rule = functionCall ∧ f.span = x.span) ↔ ¬x.HasRegion := by
  obtain ⟨us, ht, hval⟩ := found_production_of_found h
  obtain ⟨ws, hxs, -⟩ := found_production_of_found hx
  obtain rfl := List.head_eq_of_cons_eq ht
  obtain rfl := List.head_eq_of_cons_eq hxs
  have halt : ((functionCall.read c).orElse fun _ => (Phrase.anyOf inPlaceArray
      [atomicValue, accessedVariable]).read Rule.read Cursor.skipGap c).found = some (us, d) := hval
  constructor
  · rintro ⟨f, rfl, hf, -⟩ hregion
    rw [Reading.found_orElse_of_none (tellsCalls_hasRegion c _ e hx hregion)] at halt
    obtain ⟨q, hq, hq'⟩ := Phrase.exists_of_found_anyOf halt
    have hqf : q = functionCall :=
      ((root_of_found hq' f (List.mem_singleton_self f)).1).symm.trans hf
    rw [hqf] at hq
    exact absurd hq (by decide)
  · intro hregion
    obtain ⟨vs, hcall⟩ := found_functionCall_of_indices hx hregion
    rw [Reading.found_orElse_of_some hcall] at halt
    obtain ⟨rfl, rfl⟩ := Prod.mk.inj (Option.some.inj halt)
    obtain ⟨fs, rfl, -⟩ := found_production_of_found hcall
    exact ⟨_, rfl, rfl, rfl⟩

end Rule

/-- **Calls win over array accesses exactly where they can.**  In the tree of a text that does not
begin with noise, an array access without a sign that is a value has a region among its indices.
Where a value begins and an array access can be read, the value is a call of the same extent if and
only if none of the indices is a region. -/
theorem regionIndex_of_parse {s : Text} {r : Rule} {o : Options} {t : Tree}
    (hs : skipNoise s 0 = 0) (h : parse s r o = .ok t) :
    ∀ n ∈ t.nodes, n.rule = .valueReturningCode →
      (∀ v ∈ n.children, v.rule = .accessedVariable → v.child? .sign = none →
        ∀ x ∈ v.children, x.rule = .indexedArray → x.HasRegionIndex) ∧
      ∀ p x, parseRange s ⟨n.span.start, Text.size s⟩ .indexedArray p = .ok x →
        ((∃ f, n.children = [f] ∧ f.rule = .functionCall ∧ f.span = x.span) ↔
          ¬x.HasRegionIndex) := by
  intro n hn hr
  have hread := readIn_of_parse h n hn
  constructor
  · intro v hv hvr hsign x hx hxr
    have hvt : v ∈ t.nodes := Tree.mem_nodes_trans hn (Tree.mem_nodes_of_child hv)
    have hgrown : ∀ m ∈ x.nodes, m.GrownIn s := fun m hm => grownIn_of_parse h m
      (Tree.mem_nodes_trans hvt (Tree.mem_nodes_trans (Tree.mem_nodes_of_child hx) hm))
    have hstart := (grownClean_of_parse hs h v hvt).start_of_unsigned hvr hsign x hx
    exact (Tree.hasRegion_iff hgrown hxr).mp
      (Tree.settled_of_readIn hread n n.self_mem_nodes v hv hr hvr x hx hxr hstart)
  · intro p x hx
    obtain ⟨c, d, hc, hpos, hf⟩ := hread
    obtain ⟨e, hxf⟩ := hc.found_of_parseRange (hpos.symm ▸ hx)
    rw [hr] at hf
    rw [Rule.isCall_iff_of_found hf hxf]
    exact not_congr (Tree.hasRegion_iff (grownIn_of_parseRange hx) (by
      obtain ⟨us, hxs, -⟩ := Rule.found_production_of_found hxf
      rw [List.head_eq_of_cons_eq hxs]))

/-- In `f(a(:),b(i))` the first argument is an array access, for it has a region.  The second one can
be read as an array access too, and is a call. -/
theorem regionIndex_of_arguments :
    let s : Text := ['f', '(', 'a', '(', ':', ')', ',', 'b', '(', 'i', ')', ')']
    let x : Tree := ⟨.indexedArray, ⟨2, 6⟩, [⟨.name, ⟨2, 3⟩, []⟩,
      ⟨.arrayIndex, ⟨4, 5⟩, [⟨.arrayIndexRegion, ⟨4, 5⟩, []⟩]⟩]⟩
    let y : Tree := ⟨.indexedArray, ⟨7, 11⟩, [⟨.name, ⟨7, 8⟩, []⟩,
      ⟨.arrayIndex, ⟨9, 10⟩, [⟨.name, ⟨9, 10⟩, []⟩]⟩]⟩
    let i : Tree := ⟨.valueReturningCode, ⟨9, 10⟩,
      [⟨.accessedVariable, ⟨9, 10⟩, [⟨.name, ⟨9, 10⟩, []⟩]⟩]⟩
    let f : Tree := ⟨.functionCall, ⟨7, 11⟩, [⟨.name, ⟨7, 8⟩, []⟩,
      ⟨.arguments, ⟨9, 10⟩, [⟨.argument, ⟨9, 10⟩, [i]⟩]⟩]⟩
    let m : Tree := ⟨.valueReturningCode, ⟨2, 6⟩, [⟨.accessedVariable, ⟨2, 6⟩, [x]⟩]⟩
    let n : Tree := ⟨.valueReturningCode, ⟨7, 11⟩, [f]⟩
    let t : Tree := ⟨.functionCall, ⟨0, 12⟩, [⟨.name, ⟨0, 1⟩, []⟩,
      ⟨.arguments, ⟨2, 11⟩, [⟨.argument, ⟨2, 6⟩, [m]⟩, ⟨.argument, ⟨7, 11⟩, [n]⟩]⟩]⟩
    skipNoise s 0 = 0 ∧ parse s .functionCall {} = .ok t ∧ m ∈ t.nodes ∧ x.HasRegionIndex ∧
      n ∈ t.nodes ∧ parseRange s ⟨7, 12⟩ .indexedArray {} = .ok y ∧ ¬y.HasRegionIndex := by
  intro s x y i f m n t
  have ht : parse s .functionCall {} = .ok t := by decide +kernel
  have hs : skipNoise s 0 = 0 := by decide
  have hm : m ∈ t.nodes := by decide
  have hn : n ∈ t.nodes := by decide
  have hy : parseRange s ⟨7, 12⟩ .indexedArray {} = .ok y := by decide +kernel
  refine ⟨hs, ht, hm, ?_, hn, hy, ?_⟩
  · exact (regionIndex_of_parse hs ht m hm rfl).1 _ (List.mem_singleton_self _) rfl rfl x
      (List.mem_singleton_self x) rfl
  · exact ((regionIndex_of_parse hs ht n hn rfl).2 {} y hy).mp ⟨f, rfl, rfl, rfl⟩

end FreeForm
