import FreeForm.Proofs.CompleteHits
import FreeForm.Proofs.LinePartition

/-!
# Sources in two parts

A source may be cut behind a line feed where no logical line is open.  The scan for logical lines
then goes over the second part as it would go over it alone, further on in the source
(`LineScan.run_advance`), so the logical lines are those of the first part and then those of the
second.  What is found on a logical line depends on the text of the line only
(`locateOn?_of_slice?`), so the hits are those of both parts as well (`locate_append`).
-/

namespace FreeForm

namespace Text

theorem dropBytes?_append_right (a b : Text) (n : Nat) :
    (a ++ b).dropBytes? (size a + n) = b.dropBytes? n := by
  induction a with
  | nil => simp
  | cons c a ih =>
    have hpos := c.utf8Size_pos
    rw [List.cons_append, dropBytes?, if_neg (by rw [size_cons]; omega),
      if_pos (by rw [size_cons]; omega), ← ih]
    congr 1
    rw [size_cons]
    omega

theorem slice?_append_right (a b : Text) (i j : Nat) :
    (a ++ b).slice? (size a + i) (size a + j) = b.slice? i j := by
  rw [slice?, slice?, dropBytes?_append_right, Nat.add_sub_add_left]
  simp only [Nat.add_le_add_iff_left]

theorem slice?_append_left {a w : Text} {i j : Nat} (h : a.slice? i j = some w) (b : Text) :
    (a ++ b).slice? i j = some w := by
  obtain ⟨u, v, rfl, rfl, rfl⟩ := eq_append_of_slice? h
  have hslice := slice?_size_append u w (v ++ b)
  rwa [← List.append_assoc] at hslice

/-- Line breaks at the end of a text are those of its second part, or go on into the first. -/
theorem size_body_append (a b : Text) :
    (b.body ≠ [] ∧ size (a ++ b).body = size a + size b.body) ∨
      (b.body = [] ∧ size (a ++ b).body ≤ size a) := by
  by_cases hb : b.body = []
  · obtain ⟨z, hz, hall⟩ := exists_body b
    rw [hb, List.nil_append] at hz
    refine .inr ⟨hb, ?_⟩
    rw [body, hz, trimEnd_append_of_all hall]
    exact size_trimEnd_le _ a
  · refine .inl ⟨hb, ?_⟩
    rw [body, trimEnd_append_of_ne_nil hb, size_append]
    rfl

end Text

/-! ## Logical lines -/

namespace LineScan

open Text

/-- The same scan further on in a source: behind `k` bytes, which hold the logical lines `xs`. -/
def advance (k : Nat) (xs : List Span) (n : LineScan) : LineScan :=
  ⟨k + n.offset, n.pending.map (k + ·), xs ++ n.lines.map (Span.relocate (k + ·))⟩

theorem next_advance (k : Nat) (xs : List Span) (n : LineScan) (w : Text) :
    (n.advance k xs).next w = (n.next w).advance k xs := by
  have hstart : (n.pending.map (k + ·)).getD (k + n.offset) = k + n.pending.getD n.offset := by
    cases n.pending <;> rfl
  unfold next advance
  dsimp only
  rw [Option.isSome_map, hstart]
  split_ifs
  · simp only [Nat.add_assoc]
  · simp only [Nat.add_assoc, Option.map_some]
  · simp only [Nat.add_assoc, Option.map_none, List.map_append, List.map_cons, List.map_nil,
      List.append_assoc, Span.relocate]

/-- A scan goes on in the same way wherever it stands. -/
theorem run_advance (k : Nat) (xs : List Span) (n : LineScan) (ls : List Text) :
    (n.advance k xs).run ls = (n.run ls).advance k xs := by
  induction ls generalizing n with
  | nil => rfl
  | cons w ls ih => rw [run_cons, run_cons, next_advance, ih]

theorem spans_advance (a b : Text) (xs : List Span) (n : LineScan) :
    (n.advance (size a) xs).spans (a ++ b) =
      xs ++ (n.spans b).map (Span.relocate (size a + ·)) := by
  cases hp : n.pending with
  | none => simp only [spans, advance, hp, Option.map_none]
  | some m =>
    have hmax : max (size (a ++ b).body) (size a + m) = size a + max (size b.body) m := by
      rcases size_body_append a b with ⟨-, hsize⟩ | ⟨hnil, hsize⟩
      · rw [hsize, Nat.add_max_add_left]
      · rw [hnil, size_nil]
        omega
    simp only [spans, advance, hp, Option.map_some, hmax, List.map_append, List.map_cons,
      List.map_nil, List.append_assoc, Span.relocate]

end LineScan

open Text

/-- The same line `k` bytes further on. -/
def LogicalLine.advance (k : Nat) (l : LogicalLine) : LogicalLine :=
  ⟨l.span.relocate (k + ·), l.text⟩

/-- The logical lines of a source whose first part leaves no logical line open. -/
theorem logicalLines_append {a : Text} (ha : Complete a)
    (hp : (LineScan.run ⟨0, none, []⟩ a.physicalLines).pending = none) (b : Text) :
    logicalLines (a ++ b) =
      logicalLines a ++ (logicalLines b).map (LogicalLine.advance (size a)) := by
  have hoff : (LineScan.run ⟨0, none, []⟩ a.physicalLines).offset = size a := by
    rw [LineScan.offset_run, flatten_physicalLines, Nat.zero_add]
  have hleft : ∀ l ∈ logicalLines a, (⟨l.span, l.span.text (a ++ b)⟩ : LogicalLine) = l := by
    intro l hl
    have hslice := slice?_append_left (slice?_of_mem_logicalLines hl).1 b
    rw [Span.text, hslice, Option.getD_some]
  have hright : ∀ x : Span, (x.relocate (size a + ·)).text (a ++ b) = x.text b := by
    intro x
    exact congrArg (Option.getD · []) (slice?_append_right a b x.start x.stop)
  have hfirst : logicalLines a =
      (LineScan.run ⟨0, none, []⟩ a.physicalLines).lines.map fun x => ⟨x, x.text a⟩ := by
    rw [logicalLines, LineScan.spans, hp]
  obtain ⟨n, hn⟩ : ∃ n, n = LineScan.run ⟨0, none, []⟩ a.physicalLines := ⟨_, rfl⟩
  rw [← hn] at hp hoff hfirst
  -- the scan stands behind `a` as it stands at the front of `b`
  have hstate : n = (⟨0, none, []⟩ : LineScan).advance (size a) n.lines := by
    obtain ⟨o, p, xs⟩ := n
    dsimp only at hp hoff
    rw [hp, hoff, LineScan.advance]
    simp
  have hspans : LineScan.spans (a ++ b) (LineScan.run ⟨0, none, []⟩ (a ++ b).physicalLines) =
      n.lines ++ ((LineScan.run ⟨0, none, []⟩ b.physicalLines).spans b).map
        (Span.relocate (size a + ·)) := by
    rw [physicalLines_append ha, LineScan.run_append, ← hn, ← LineScan.spans_advance,
      ← LineScan.run_advance, ← hstate]
  rw [logicalLines, hspans, List.map_append]
  congr 1
  · rw [hfirst]
    refine List.map_congr_left fun x hx => hleft ⟨x, x.text a⟩ ?_
    rw [hfirst]
    exact List.mem_map_of_mem hx
  · rw [logicalLines, List.map_map, List.map_map]
    refine List.map_congr_left fun x _ => ?_
    show (⟨_, Span.text (a ++ b) _⟩ : LogicalLine) = ⟨_, x.text b⟩
    rw [hright]

/-! ## Hits -/

/-- A parse in a range, if it succeeds, is the parse of what the range holds. -/
theorem toOption_parseRange {o : Options} (ho : o.requireComplete = false) (s : Text) (x : Span)
    (r : Rule) : (parseRange s x r o).toOption =
      (s.slice? x.start x.stop).bind fun w =>
        (parse w r o).toOption.map (Tree.relocate (x.start + ·)) := by
  cases hw : s.slice? x.start x.stop with
  | none =>
    rw [parseRange, hw]
    rfl
  | some w =>
    rw [parseRange_relocate hw ho, toOption_relocateResult, Option.bind_some]

theorem startsComment_append (u : Text) (c : Char) (v : Text) :
    startsComment (u ++ c :: v) (size u) = decide (c = '!') := by
  rw [startsComment, dropBytes?_size_append]

/-- The statement on a line starts where it starts in the text of the line. -/
theorem LogicalLine.statementStart_eq (l : LogicalLine) (x : Span) :
    l.statementStart + x.start = l.span.start + statementStart ⟨x, l.text⟩ := by
  simp only [statementStart]
  omega

/-- What is found on a line depends on the text of the line only. -/
theorem locateOn?_of_slice? {s : Text} {l : LogicalLine} {o : Options}
    (hl : s.slice? l.span.start l.span.stop = some l.text) (ho : o.requireComplete = false)
    (r : Rule) : locateOn? s r o l =
      (locateOn? l.text r o ⟨⟨0, size l.text⟩, l.text⟩).map
        (Tree.relocate (l.span.start + ·)) := by
  obtain ⟨g, t, htext, hstart, -⟩ := LogicalLine.exists_label ⟨⟨0, size l.text⟩, l.text⟩
  have hshift := l.statementStart_eq ⟨0, size l.text⟩
  obtain ⟨u, v, hs, hu, hstop⟩ := eq_append_of_slice? hl
  dsimp only at htext
  rw [hstart, Nat.zero_add, Nat.add_zero] at hshift
  rw [Nat.zero_add] at hstart
  unfold locateOn?
  dsimp only
  rw [hstart, hshift, ← hstop, ← hu]
  cases t with
  | nil =>
    -- the line has no statement
    rw [htext, List.append_nil, if_pos (.inl (Nat.le_refl _)), if_pos (.inl (Nat.le_refl _))]
    rfl
  | cons c t =>
    have hsource : s = u ++ g ++ (c :: (t ++ v)) := by
      rw [hs, htext]
      simp
    have hcomment := startsComment_append (u ++ g) c (t ++ v)
    have hcomment' := startsComment_append g c t
    rw [← hsource, size_append] at hcomment
    rw [← htext] at hcomment'
    simp only [hcomment, hcomment', Nat.add_le_add_iff_left]
    split_ifs with hnone
    · rfl
    · have hslice : s.slice? (size u + size g) (size u + size l.text) = some (c :: t) := by
        have h := slice?_size_append (u ++ g) (c :: t) v
        rw [size_append, Nat.add_assoc, ← size_append g, ← htext] at h
        rw [hsource]
        simpa using h
      have hslice' : l.text.slice? (size g) (size l.text) = some (c :: t) := by
        have h := slice?_size_append g (c :: t) []
        rwa [List.append_nil, ← size_append, ← htext] at h
      rw [toOption_parseRange ho, toOption_parseRange ho, hslice, hslice', Option.bind_some,
        Option.bind_some, Option.map_map]
      congr 1
      funext t
      rw [Function.comp, Tree.relocate_relocate]
      simp only [Function.comp_def, Nat.add_assoc]

/-- **Scanning is compositional.**  If a source is cut behind a line feed where no logical line is
open, then its logical lines are those of the first part and, moved by the size of this part, those
of the second, and so are its hits. -/
theorem locate_append {a b : Text} (ha : Complete a)
    (hp : (LineScan.run ⟨0, none, []⟩ a.physicalLines).pending = none) :
    logicalLines (a ++ b) =
        logicalLines a ++ (logicalLines b).map (LogicalLine.advance (size a)) ∧
      ∀ (r : Rule) (o : Options), o.requireComplete = false →
        locate (a ++ b) r o = locate a r o ++ (locate b r o).map (Tree.relocate (size a + ·)) := by
  have hlines := logicalLines_append ha hp b
  refine ⟨hlines, fun r o ho => ?_⟩
  have hleft : ∀ l ∈ logicalLines a, locateOn? (a ++ b) r o l = locateOn? a r o l := by
    intro l hl
    have hslice := (slice?_of_mem_logicalLines hl).1
    rw [locateOn?_of_slice? hslice ho, locateOn?_of_slice? (slice?_append_left hslice b) ho]
  have hright : ∀ l ∈ logicalLines b, locateOn? (a ++ b) r o (l.advance (size a)) =
      (locateOn? b r o l).map (Tree.relocate (size a + ·)) := by
    intro l hl
    have hslice := (slice?_of_mem_logicalLines hl).1
    have hslice' := slice?_append_right a b l.span.start l.span.stop
    rw [hslice] at hslice'
    rw [locateOn?_of_slice? hslice ho, locateOn?_of_slice? (l := l.advance (size a)) hslice' ho,
      Option.map_map]
    congr 1
    funext t
    rw [Function.comp, Tree.relocate_relocate]
    simp only [Function.comp_def, ← Nat.add_assoc]
    rfl
  unfold locate
  rw [hlines, List.filterMap_append, List.filterMap_map, List.map_filterMap]
  congr 1
  · exact List.filterMap_congr hleft
  · exact List.filterMap_congr hright

/-- A call over two lines, with a comment behind the mark, and behind it a labelled call. -/
theorem locate_append_of_calls :
    let a : Text := ['f', '(', '&', '!', ')', '\n', '&', ')', '\n']
    let b : Text := ['7', ' ', 'g', '(', ')']
    logicalLines (a ++ b) = [⟨⟨0, 8⟩, a.take 8⟩, ⟨⟨9, 14⟩, b⟩] ∧
      locate (a ++ b) .functionCall {} =
        [⟨.functionCall, ⟨0, 8⟩, [⟨.name, ⟨0, 1⟩, []⟩]⟩,
          ⟨.functionCall, ⟨11, 14⟩, [⟨.name, ⟨11, 12⟩, []⟩]⟩] := by
  intro a b
  have ha : Complete a := .inr ⟨a.take 8, by rfl⟩
  have hp : (LineScan.run ⟨0, none, []⟩ a.physicalLines).pending = none := by decide
  obtain ⟨hlines, hhits⟩ := locate_append (b := b) ha hp
  have hleft : logicalLines a = [⟨⟨0, 8⟩, a.take 8⟩] := by decide +kernel
  have hright : logicalLines b = [⟨⟨0, 5⟩, b⟩] := by decide +kernel
  have hfirst : locate a .functionCall {} =
      [⟨.functionCall, ⟨0, 8⟩, [⟨.name, ⟨0, 1⟩, []⟩]⟩] := by decide +kernel
  have hsecond : locate b .functionCall {} =
      [⟨.functionCall, ⟨2, 5⟩, [⟨.name, ⟨2, 3⟩, []⟩]⟩] := by decide +kernel
  refine ⟨?_, ?_⟩
  · rw [hlines, hleft, hright]
    rfl
  · rw [hhits .functionCall {} rfl, hfirst, hsecond]
    rfl

end FreeForm
