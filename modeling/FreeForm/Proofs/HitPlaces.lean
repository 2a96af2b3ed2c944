import FreeForm.Proofs.SourceParts

/-!
# Where hits stand

The hits of a search follow the statements of the source.  A hit starts behind the prologue of a
logical line and ends on this line (`span_of_locateOn?`); logical lines stand one behind the other,
so that hits do so too, with at most one on each line.  All cuts that the search makes are inside
the text that is cut, on character boundaries: those for the lines (`cutsFit_of_mem_logicalLines`)
and those for the nodes found on them (`Tree.cutsFit_of_grownIn`).  All together are
`locate_follows`.
-/

namespace FreeForm

open Text

/-! ## Cuts -/

theorem Text.codeFrom_prefix (q : Option Char) (w : Text) : codeFrom q w <+: w := by
  induction w generalizing q with
  | nil => cases q <;> exact List.prefix_rfl
  | cons c w ih =>
    cases q with
    | some q => exact (List.prefix_cons_inj c).mpr (ih _)
    | none =>
      rw [codeFrom]
      split
      · exact List.nil_prefix
      · exact (List.prefix_cons_inj c).mpr (ih _)

/-- The code of a line is what stands in front of the place where it is cut off. -/
theorem Text.slice?_code (w : Text) : w.slice? 0 (size w.code) = some w.code := by
  obtain ⟨r, hr⟩ := codeFrom_prefix none w
  have hslice := slice?_size_append [] w.code r
  rwa [List.nil_append, size_nil, Nat.zero_add, code, hr] at hslice

/-- The cuts that a search makes for the logical line `l` of the source `s`: the text of the line,
what follows the digits of a label, the text from the statement on, and the range that is parsed. -/
structure LogicalLine.CutsFit (s : Text) (l : LogicalLine) : Prop where
  line : s.slice? l.span.start l.span.stop = some l.text
  label : let w := l.text.dropWhile CharClass.blank.holds
    dropBytes? (size (w.takeWhile Char.isDigit)) w = some (w.dropWhile Char.isDigit)
  statement : (s.dropBytes? l.statementStart).isSome
  range : (s.slice? l.statementStart l.span.stop).isSome

theorem cutsFit_of_mem_logicalLines {s : Text} {l : LogicalLine} (hl : l ∈ logicalLines s) :
    l.CutsFit s := by
  obtain ⟨g, v, htext, hg⟩ := l.exists_prologue
  obtain ⟨a, b, hs, hspan, -, -⟩ := bordered_of_mem_logicalLines hl
  have hstart : l.statementStart = size (a ++ g) := by
    rw [LogicalLine.statementStart_of_prologue htext hg, hspan, ← size_append]
  have hstop : l.span.stop = size (a ++ g) + size v := by
    rw [hspan, htext]
    simp only [size_append]
    omega
  refine ⟨(slice?_of_mem_logicalLines hl).1, ?_, ?_, ?_⟩
  · have hdrop := dropBytes?_size_append
      ((l.text.dropWhile CharClass.blank.holds).takeWhile Char.isDigit)
      ((l.text.dropWhile CharClass.blank.holds).dropWhile Char.isDigit)
    rwa [List.takeWhile_append_dropWhile] at hdrop
  · have hdrop := dropBytes?_size_append (a ++ g) (v ++ b)
    have happ : s = a ++ g ++ (v ++ b) := by rw [hs, htext]; simp
    rw [hstart, happ, hdrop]
    rfl
  · have hslice := slice?_size_append (a ++ g) v b
    have happ : s = a ++ g ++ v ++ b := by rw [hs, htext]; simp
    rw [hstart, hstop, happ, hslice]
    rfl

/-- The places that a search for the end of a node, from the offset `n` on, may come to: it goes
over noise and over single characters. -/
inductive Text.Trims (s : Text) (n : Nat) : Nat → Prop
  | start : Trims s n n
  | noise {p : Nat} (h : Trims s n p) : Trims s n (skipNoise s p)
  | character {p : Nat} {x : Char} {r : Text} (h : Trims s n p)
    (hr : s.dropBytes? p = some (x :: r)) : Trims s n (p + x.utf8Size)

theorem Text.Trims.isSome_dropBytes? {s : Text} {n p : Nat} (h : s.Trims n p)
    (hn : (s.dropBytes? n).isSome) : (s.dropBytes? p).isSome := by
  induction h with
  | start => exact hn
  | @noise p _ ih =>
    obtain ⟨r, hr⟩ := Option.isSome_iff_exists.mp ih
    obtain ⟨u, rfl, rfl⟩ := eq_append_of_dropBytes? hr
    have hat : (Cursor.start r (size u)).At (u ++ r) := ⟨u, rfl, rfl⟩
    obtain ⟨w, -, hw, -⟩ := Cursor.passes_skipGap (Cursor.start r (size u))
    have hdrop := (hat.passes hw).dropBytes?
    rw [← hat.skipNoise] at hdrop
    exact Option.isSome_of_eq_some hdrop
  | @character p x r _ hr _ =>
    obtain ⟨u, rfl, rfl⟩ := eq_append_of_dropBytes? hr
    have hdrop := dropBytes?_size_append (u ++ [x]) r
    rw [List.append_assoc, List.singleton_append, size_append, size_cons, size_nil] at hdrop
    exact Option.isSome_of_eq_some hdrop

/-- The cuts that a search makes for the node `n`: its text, and what is left at every place on the
way to its end. -/
structure Tree.CutsFit (s : Text) (n : Tree) : Prop where
  text : s.slice? n.span.start n.span.stop = some (n.text s)
  trimming : ∀ p, s.Trims (lastStop n.span.start n.children) p → (s.dropBytes? p).isSome

theorem Tree.cutsFit_of_grownIn {s : Text} {t : Tree} (h : ∀ n ∈ t.nodes, n.GrownIn s) :
    ∀ n ∈ t.nodes, n.CutsFit s := by
  intro n hn
  have hsound := (h n hn).wellSpanned
  refine ⟨hsound.text_eq, fun p hp => hp.isSome_dropBytes? ?_⟩
  unfold lastStop
  cases hlast : n.children.getLast? with
  | none => exact hsound.start_boundary
  | some u =>
    have hu : u ∈ t.nodes := mem_nodes_trans hn (mem_nodes_of_child (List.mem_of_getLast? hlast))
    exact (h u hu).wellSpanned.stop_boundary

/-! ## Spans -/

/-- A match in a range covers something from the start of the range on, inside the range. -/
theorem span_of_parseRange {s : Text} {range : Span} {r : Rule} {o : Options} {t : Tree}
    (h : parseRange s range r o = .ok t) :
    t.span.start = range.start ∧ t.span.start < t.span.stop ∧ t.span.stop ≤ range.stop := by
  obtain ⟨w, d, ts, hw, -, rfl, hd⟩ := derives_of_parseRange h
  obtain ⟨u, v, -, hu, hstop⟩ := eq_append_of_slice? hw
  have hin : (Cursor.start w range.start).In (u ++ w) :=
    ⟨⟨u, [], (List.append_nil _).symm, hu.symm⟩, Nat.le_refl _⟩
  have hgrown : Tree.GrownIn (u ++ w) ⟨r, ⟨range.start, d.stop⟩, ts⟩ := ⟨_, d, hin, hd, rfl⟩
  have hsize := hgrown.wellSpanned.stop_le_size
  rw [size_append, hu, hstop] at hsize
  exact ⟨rfl, hgrown.wellSpanned.start_lt_stop, hsize⟩

/-- A hit covers something from the start of the statement on, on its line. -/
theorem span_of_locateOn? {s : Text} {r : Rule} {o : Options} {l : LogicalLine} {t : Tree}
    (h : locateOn? s r o l = some t) :
    t.span.start = l.statementStart ∧ t.span.start < t.span.stop ∧ l.span.contains t.span := by
  obtain ⟨-, -, hparse⟩ := locateOn?_eq_some_iff.mp h
  obtain ⟨hstart, hlt, hstop⟩ := span_of_parseRange hparse
  obtain ⟨g, v, htext, hg⟩ := l.exists_prologue
  have hprologue := LogicalLine.statementStart_of_prologue htext hg
  dsimp only at hstart hstop
  refine ⟨hstart, hlt, ?_⟩
  simp only [Span.contains, Bool.and_eq_true, decide_eq_true_eq]
  omega

/-- What covers something on two logical lines is on one line. -/
theorem eq_of_contains {s : Text} {l m : LogicalLine} {x : Span} (hl : l ∈ logicalLines s)
    (hm : m ∈ logicalLines s) (hx : x.start < x.stop) (hlx : l.span.contains x)
    (hmx : m.span.contains x) : l = m := by
  by_contra hne
  have hsymm : Std.Symm fun l m : LogicalLine =>
      l.span.stop ≤ m.span.start ∨ m.span.stop ≤ l.span.start := ⟨fun _ _ h => h.symm⟩
  have hpairs : (logicalLines s).Pairwise fun l m =>
      l.span.stop ≤ m.span.start ∨ m.span.stop ≤ l.span.start :=
    (logicalLines_ordered s).imp .inl
  have hordered := hpairs.forall hl hm hne
  simp only [Span.contains, Bool.and_eq_true, decide_eq_true_eq] at hlx hmx
  omega

/-! ## Hits -/

section Hits

variable {s : Text} {r : Rule} {o : Options} {t : Tree} {l : LogicalLine}

theorem mem_locate_iff : t ∈ locate s r o ↔ ∃ l ∈ logicalLines s, locateOn? s r o l = some t :=
  List.mem_filterMap

/-- Hits stand one behind the other, as their lines do. -/
theorem locate_ordered (s : Text) (r : Rule) (o : Options) : (locate s r o).Pairwise fun t u =>
    t.span.start < t.span.stop ∧ t.span.stop ≤ u.span.start := by
  refine List.pairwise_filterMap.mpr ((logicalLines_ordered s).imp fun h t ht u hu => ?_)
  obtain ⟨-, hlt, htl⟩ := span_of_locateOn? ht
  obtain ⟨-, -, hum⟩ := span_of_locateOn? hu
  simp only [Span.contains, Bool.and_eq_true, decide_eq_true_eq] at htl hum
  omega

/-- A hit inside a logical line is the one that the search makes on this line. -/
theorem locateOn?_of_contains (ht : t ∈ locate s r o) (hl : l ∈ logicalLines s)
    (h : l.span.contains t.span) : locateOn? s r o l = some t := by
  obtain ⟨m, hm, htm⟩ := mem_locate_iff.mp ht
  obtain ⟨-, hpos, hmt⟩ := span_of_locateOn? htm
  rwa [eq_of_contains hl hm hpos h hmt]

/-- A hit starts behind the prologue of a logical line, and ends on this line. -/
theorem exists_line_of_mem_locate (ht : t ∈ locate s r o) : ∃ l ∈ logicalLines s,
    l.span.contains t.span ∧ ∃ g v, l.text = g ++ v ∧ g.Prologue v ∧
      t.span.start = l.span.start + size g := by
  obtain ⟨l, hl, htl⟩ := mem_locate_iff.mp ht
  obtain ⟨hstart, -, hcontains⟩ := span_of_locateOn? htl
  obtain ⟨g, v, htext, hg⟩ := l.exists_prologue
  have hprologue := LogicalLine.statementStart_of_prologue htext hg
  exact ⟨l, hl, hcontains, g, v, htext, hg, hstart.trans hprologue⟩

theorem not_comment_of_mem_locate (ht : t ∈ locate s r o) {u v : Text} (hs : s = u ++ '!' :: v) :
    size u ≠ t.span.start := by
  intro hu
  obtain ⟨l, -, htl⟩ := mem_locate_iff.mp ht
  obtain ⟨hstart, -, -⟩ := span_of_locateOn? htl
  obtain ⟨-, hcomment, -⟩ := locateOn?_eq_some_iff.mp htl
  rw [hs, ← hstart, ← hu, startsComment_append] at hcomment
  exact hcomment (by decide)

/-- What the rule matches behind a prologue is a hit, if no comment stands there. -/
theorem mem_locate_of_parseRange (hl : l ∈ logicalLines s) {g v : Text} {c : Char}
    (htext : l.text = g ++ c :: v) (hg : g.Prologue (c :: v)) (hc : c ≠ '!')
    (ht : parseRange s ⟨l.span.start + size g, l.span.stop⟩ r o = .ok t) : t ∈ locate s r o := by
  obtain ⟨a, b, hs, hspan, -, -⟩ := bordered_of_mem_logicalLines hl
  obtain ⟨hpos, hlt, hstop⟩ := span_of_parseRange ht
  refine mem_locate_iff.mpr ⟨l, hl, locateOn?_eq_some_iff.mpr ?_⟩
  rw [LogicalLine.statementStart_of_prologue htext hg]
  refine ⟨?_, ?_, ht⟩
  · dsimp only at hpos hstop
    omega
  · have happ : s = a ++ g ++ c :: (v ++ b) := by rw [hs, htext]; simp
    have hsize : l.span.start + size g = size (a ++ g) := by rw [hspan, ← size_append]
    rw [hsize, happ, startsComment_append]
    simpa using hc

end Hits

/-- The hits `ts` of the rule `r` follow the statements of the source `s`, and the search for them
stays inside the source. -/
structure Text.HitsFollow (s : Text) (r : Rule) (o : Options) (ts : List Tree) : Prop where
  increasing : ts.Pairwise fun t u => t.span.start < u.span.start
  disjoint : ts.Pairwise fun t u => t.span.stop ≤ u.span.start
  onePerLine : ∀ l ∈ logicalLines s, ∀ t ∈ ts, ∀ u ∈ ts, l.span.contains t.span →
    l.span.contains u.span → t = u
  onStatement : ∀ t ∈ ts, ∃ l ∈ logicalLines s, l.span.contains t.span ∧
    ∃ g v, l.text = g ++ v ∧ g.Prologue v ∧ t.span.start = l.span.start + size g
  noComment : ∀ t ∈ ts, ∀ u v, s = u ++ '!' :: v → size u ≠ t.span.start
  complete : ∀ l ∈ logicalLines s, ∀ g c v t, l.text = g ++ c :: v → g.Prologue (c :: v) →
    c ≠ '!' → parseRange s ⟨l.span.start + size g, l.span.stop⟩ r o = .ok t → t ∈ ts
  codeCuts : ∀ w ∈ s.physicalLines, w.body.slice? 0 (size w.body.code) = some w.body.code
  lineCuts : ∀ l ∈ logicalLines s, l.CutsFit s
  nodeCuts : ∀ l ∈ logicalLines s, ∀ o' t,
    parseRange s ⟨l.statementStart, l.span.stop⟩ r o' = .ok t → ∀ n ∈ t.nodes, n.CutsFit s

/-- **Hits follow the statements**, at most one on each logical line, and every statement that the
rule matches has one. -/
theorem locate_follows (s : Text) (r : Rule) (o : Options) : s.HitsFollow r o (locate s r o) where
  increasing := (locate_ordered s r o).imp fun h => Nat.lt_of_lt_of_le h.1 h.2
  disjoint := (locate_ordered s r o).imp fun h => h.2
  onePerLine := by
    intro l hl t ht u hu hlt hlu
    have htu := (locateOn?_of_contains ht hl hlt).symm.trans (locateOn?_of_contains hu hl hlu)
    exact Option.some.inj htu
  onStatement := fun _ ht => exists_line_of_mem_locate ht
  noComment := fun _ ht _ _ hs => not_comment_of_mem_locate ht hs
  complete := fun _ hl _ _ _ _ htext hg hc ht => mem_locate_of_parseRange hl htext hg hc ht
  codeCuts := fun w _ => slice?_code w.body
  lineCuts := fun _ hl => cutsFit_of_mem_logicalLines hl
  nodeCuts := fun _ _ _ _ ht => Tree.cutsFit_of_grownIn (grownIn_of_parseRange ht)

end FreeForm
