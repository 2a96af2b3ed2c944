import FreeForm.Proofs.LineEnds
import FreeForm.Proofs.NestingScan
import FreeForm.Proofs.RangeParse
import FreeForm.Proofs.StatementStart
import FreeForm.Proofs.Tiled
import FreeForm.Proofs.TrailingNoise

/-!
# The rest of a line behind a complete hit

A hit that has to be complete leaves nothing of its logical line but noise and line breaks, or the
line breaks off inside a continuation that is completed behind it (`rest_of_complete_hit`).  The
second happens where the scan for logical lines takes a place for the end of a line at which the
grammar does not.  Without quotes and carriage returns both take the same places: the pass over the
text in front of a continuation (`Text.Tiled.between`) finds no comment there, and so no logical
line ends inside the continuation (`logicalLines_stop`).
-/

namespace FreeForm

open Text Nesting

/-! ## Between lexemes -/

section Between

variable {n : Nesting} {c : Char} {s t r w x y : Text}

/-- A character that is no mark ends a comment, or changes nothing but the depth. -/
theorem Nesting.Between.scan_plain (h : n.Between (c :: w)) (hc : c ∉ Pattern.marks) :
    (n.scan [c]).Outside := by
  by_cases hfeed : c = '\n' ∨ c = '\r'
  · have hnewline : Pattern.newline.split? [c] = some ([c], []) := by
      rcases hfeed with rfl | rfl <;> decide
    rw [Pattern.scan_newline h.quote hnewline]
    exact ⟨h.quote, rfl⟩
  have hout : n.Outside :=
    ⟨h.quote, Bool.eq_false_iff.mpr fun hin => hfeed (h.inComment hin c rfl)⟩
  by_cases ho : c = '('
  · rw [ho, Pattern.scan_opens (p := .lit ['(']) (by decide) hout (s := ['(']) rfl]
    exact ⟨hout.quote, hout.inComment⟩
  by_cases hcl : c = ')'
  · rw [hcl, Pattern.scan_closes (p := .lit [')']) (by decide) hout (s := [')']) rfl]
    exact ⟨hout.quote, hout.inComment⟩
  simp only [Pattern.marks, Pattern.quotes, Pattern.noiseMarks, List.cons_append,
    List.nil_append, List.mem_cons, List.not_mem_nil, or_false, not_or] at hc
  rwa [scan_of_notMem hout (List.forall_mem_singleton.mpr (by simp [Nesting.marks, hc, ho, hcl]))]

/-- A pass over a tiled text stands between two lexemes. -/
theorem Text.Tiled.between (h : Tiled y x) (hn : n.Between (x ++ y)) : (n.scan x).Between y := by
  induction h generalizing n with
  | nil => exact hn
  | @plain c x hc _ ih =>
    exact ih ((hn.scan_plain hc).between _)
  | @quotation q b x hq hb _ ih =>
    have happ : q :: (b ++ q :: x) = q :: (b ++ [q]) ++ x := by simp
    have hself := Pattern.split?_quotation hq hb (x ++ y)
    have hout := hn.outside (p := Pattern.quotation) (by decide)
      (by simpa using Option.isSome_of_eq_some hself)
    have hscan : n.scan (q :: (b ++ [q])) = n := by
      rcases Pattern.split?_alt_eq_some.mp hself with hs | ⟨-, hs⟩
      · exact Pattern.scan_quotation (.inl rfl) hout hs
      · exact Pattern.scan_quotation (.inr rfl) hout hs
    rw [happ, Nesting.scan_append, hscan]
    exact ih (hout.between _)
  | @noise g x hg hs _ _ ih =>
    obtain ⟨c, g, rfl⟩ := List.exists_cons_of_ne_nil hg
    have hmark := Text.mem_noiseMarks_of_split? hs hg
    rw [List.append_assoc] at hn
    have hout : n.Outside := by
      refine ⟨hn.quote, Bool.eq_false_iff.mpr fun hin => ?_⟩
      rcases hn.inComment hin c rfl with rfl | rfl <;> exact absurd hmark (by decide)
    rw [Nesting.scan_append]
    exact ih (Pattern.scan_noise hout hs).2

/-- So does a pass over noise and line breaks. -/
theorem between_of_trailing (hn : n.Between s) (h : Pattern.trailing.split? s = some (t, r)) :
    (n.scan t).Between r := by
  refine Pattern.many_induction (P := fun s t r => ∀ n : Nesting, n.Between s →
    (n.scan t).Between r) (a := Pattern.trailingItem) (by decide) (fun _ _ _ hn => hn) ?_ h n hn
  intro s t r u v ht _ ih n hn
  rw [Nesting.scan_append]
  refine ih _ ?_
  rcases Pattern.split?_alt_eq_some.mp ht with ht | ⟨-, ht⟩
  · have hout := hn.outside (by decide) (Option.isSome_of_eq_some ht)
    rcases Pattern.split?_alt_eq_some.mp ht with ht | ⟨-, ht⟩
    · rw [Pattern.scan_whitespace hout ht]
      exact hout.between r
    · obtain ⟨hs, hr⟩ := Pattern.scan_comment hout ht
      rw [hs]
      exact ⟨hout.quote, fun _ => hr⟩
  · cases s with
    | nil => simp [Pattern.split?] at ht
    | cons c s =>
      simp only [Pattern.split?, Option.ite_none_right_eq_some, Option.some.injEq,
        Prod.mk.injEq] at ht
      obtain ⟨hc, rfl, rfl⟩ := ht
      have hmark : c ∉ Pattern.marks := Pattern.notMem_of_holds (by decide) hc
      exact (hn.scan_plain hmark).between s

/-- Where no quote stands, a pass stays outside quotes. -/
theorem Nesting.quote_scan (hn : n.quote = none) (hw : ∀ c ∈ w, c ∉ Pattern.quotes) :
    (n.scan w).quote = none := by
  induction w generalizing n with
  | nil => exact hn
  | cons c w ih =>
    refine ih ?_ fun d hd => hw d (List.mem_cons_of_mem c hd)
    have hc := hw c List.mem_cons_self
    simp only [Pattern.quotes, List.mem_cons, List.not_mem_nil, or_false, not_or] at hc
    have hd : ∀ d, d = (if c = '\r' then '\n' else c) → d ≠ '"' ∧ d ≠ '\'' := by
      intro d hd
      split at hd
      · rw [hd]
        decide
      · exact hd ▸ hc
    generalize (if c = '\r' then '\n' else c) = d at hd
    unfold Nesting.next
    grind

/-- Where a pass is in no comment, none begins on the last line, if no quote stands in the text and
lines end in line feeds alone. -/
theorem exists_lastLine (hw : ∀ c ∈ w, c ∉ Pattern.quotes ∧ c ≠ '\r')
    (h : (Nesting.initial.scan w).inComment = false) :
    ∃ a b, w = a ++ b ∧ Complete a ∧ PlainCode b := by
  obtain ⟨a, b, rfl, ha, hb⟩ := exists_complete w
  refine ⟨a, b, rfl, ha, fun c hc => ?_⟩
  have hfree := hw c (List.mem_append_right a hc)
  simp only [Pattern.quotes, List.mem_cons, List.not_mem_nil, or_false, not_or] at hfree
  refine ⟨?_, ?_, hfree.1⟩
  · have hfeed : c ≠ '\n' := fun hn => hb (hn ▸ hc)
    simp [CharClass.lineBreak, CharClass.holds, hfeed, hfree.2]
  · -- behind a comment mark the pass would be in the comment up to the end of the line
    rintro rfl
    obtain ⟨p, q, rfl⟩ := List.append_of_mem hc
    have hquote : (initial.scan (a ++ p)).quote = none := quote_scan rfl fun c hc =>
      (hw c (by rw [← List.append_assoc]; exact List.mem_append_left _ hc)).1
    have hmark : ∀ n : Nesting, n.quote = none → (n.scan ['!']).inComment := by
      rintro ⟨_, i, -, -⟩ rfl
      cases i <;> rfl
    have hrest : ∀ c ∈ q, c ≠ '\n' ∧ c ≠ '\r' := fun c hc =>
      ⟨fun hn => hb (by rw [← hn]; simp [hc]), (hw c (by simp [hc])).2⟩
    rw [← List.append_assoc, ← List.singleton_append, scan_append, scan_append,
      scan_of_inComment (hmark _ hquote) hrest, hmark _ hquote] at h
    exact absurd h (by simp)

end Between

/-! ## The start of a statement -/

/-- In front of the statement on a line stand blanks and digits, and right in front of it a blank,
if anything. -/
theorem LogicalLine.exists_label (l : LogicalLine) :
    ∃ g r, l.text = g ++ r ∧ l.statementStart = l.span.start + Text.size g ∧
      (∀ c ∈ g, CharClass.blank.holds c ∨ c.isDigit) ∧
      ∀ c ∈ g.getLast?, CharClass.blank.holds c := by
  obtain ⟨g, v, htext, hg⟩ := l.exists_prologue
  refine ⟨g, v, htext, statementStart_of_prologue htext hg, ?_⟩
  cases hg with
  | bare hb =>
    exact ⟨fun c hc => .inl (hb c hc), fun c hc => hb c (List.mem_of_getLast? hc)⟩
  | labelled hb _ hdigit hi hblank =>
    refine ⟨fun c hc => ?_, fun c hc => ?_⟩
    · rcases List.mem_append.mp hc with hc | hc
      · exact .inl (hb c hc)
      · exact (List.mem_append.mp hc).elim (fun hc => .inr (hdigit c hc))
          fun hc => .inl (hblank c hc)
    · rw [← List.append_assoc, List.getLast?_append_of_ne_nil _ hi] at hc
      exact hblank c (List.mem_of_getLast? hc)

/-- The statement on a logical line stands on a physical line behind blanks and digits. -/
theorem exists_append_of_statementStart {s : Text} {l : LogicalLine} (hl : l ∈ logicalLines s) :
    ∃ a g r, s = (a ++ g) ++ r ∧ size (a ++ g) = l.statementStart ∧ Complete a ∧
      ∀ c ∈ g, CharClass.blank.holds c ∨ c.isDigit := by
  obtain ⟨a, b, hs, ha, hcomplete⟩ := logicalLines_start hl
  obtain ⟨g, r, htext, hstart, hg, -⟩ := l.exists_label
  have hspan : l.text = l.span.text s := by
    obtain ⟨m, -, rfl⟩ := List.mem_map.mp hl
    rfl
  cases hw : s.slice? l.span.start l.span.stop with
  | none =>
    rw [hspan, Span.text, hw, Option.getD_none, eq_comm, List.append_eq_nil_iff] at htext
    exact ⟨a, g, b, by rw [htext.1, List.append_nil, hs],
      by rw [size_append, ha, hstart], hcomplete, hg⟩
  | some w =>
    obtain ⟨u, v, hsplit, hu, -⟩ := eq_append_of_slice? hw
    rw [hspan, Span.text, hw, Option.getD_some] at htext
    have happ : a ++ b = u ++ (w ++ v) := by rw [← hs, hsplit, List.append_assoc]
    obtain ⟨-, rfl⟩ := append_inj_of_size happ (ha.trans hu.symm)
    refine ⟨a, g, r ++ v, ?_, by rw [size_append, ha, hstart], hcomplete, hg⟩
    rw [hs, htext]
    simp

/-- Behind a complete match only noise and line breaks stand in the range, or the range breaks off
inside a continuation.  What has been matched is tiled, whatever stands outside the range. -/
theorem exists_rest_of_parseRange {s : Text} {range : Span} {r : Rule} {o : Options} {t : Tree}
    (h : parseRange s range r o = .ok t) (ho : o.requireComplete) :
    ∃ g x w v, s = g ++ (x ++ w) ++ v ∧ size g = range.start ∧ size (g ++ x) = t.span.stop ∧
      size (g ++ (x ++ w)) = range.stop ∧ Tiled w x ∧ (w.IsTrailing ∨ w.RunsOver v) := by
  obtain ⟨f, d, hf, hn, hfound, hcomplete⟩ := parseRange_eq_ok_iff.mp h
  obtain ⟨g, v, rfl, hg, hstop⟩ := eq_append_of_slice? hf
  -- the same match in the text of the range alone
  obtain ⟨p, hp, hpn⟩ : ∃ p : Options, p.requireComplete = false ∧ p.maxNesting = o.maxNesting :=
    ⟨⟨o.maxNesting, false, o.sourceName⟩, rfl, rfl⟩
  obtain ⟨u, hu, rfl⟩ : ∃ u, parse f r p = .ok u ∧ t = u.relocate (range.start + ·) := by
    have hrange : parseRange (g ++ f ++ v) range r p = .ok t :=
      parseRange_eq_ok_iff.mpr ⟨f, d, hf, hpn ▸ hn, hfound, by simp [hp]⟩
    rw [parseRange_relocate hf hp] at hrange
    cases hparse : parse f r p with
    | error e => simp [hparse, relocateResult] at hrange
    | ok u =>
      rw [hparse] at hrange
      exact ⟨u, rfl, (Except.ok.inj hrange).symm⟩
  obtain ⟨c, e, -, he, -, hspan⟩ := grownFrom_of_parse hu u u.self_mem_nodes
  obtain ⟨x, w, rfl, hx, htiled⟩ : f.TiledTo u.span.stop := by
    rw [hspan]
    exact he.2
  have hend : (u.relocate (range.start + ·)).span.stop = size (g ++ x) := by
    rw [Tree.span_relocate, size_append, hg, hx]
    rfl
  refine ⟨g, x, w, v, rfl, hg, hend.symm, by rw [size_append, hg, hstop], htiled, ?_⟩
  have hdrop : (g ++ (x ++ w) ++ v).dropBytes? (size (g ++ x)) = some (w ++ v) := by
    rw [← dropBytes?_size_append (g ++ x) (w ++ v)]
    simp
  obtain ⟨⟨y, z⟩, hy⟩ : ∃ y, Pattern.trailing.split? (w ++ v) = some y := ⟨_, rfl⟩
  have hreach := hcomplete ho
  simp only [hend, skipTrailing, hdrop, Option.bind_some, Pattern.width?, hy, Option.map_some,
    Option.getD_some] at hreach
  simp only [size_append] at hreach hstop
  obtain ⟨k, rfl, -⟩ := exists_append_of_size_le (Pattern.split?_eq_append hy) (by omega)
  exact Pattern.isTrailing_or_runsOver hy

/-- No logical line breaks off inside a continuation behind a match, if no quote stands in the
source and its lines end in line feeds alone. -/
theorem not_runsOver_of_mem_logicalLines {g x w v : Text} {l : LogicalLine}
    (hs : ∀ c ∈ g ++ (x ++ w) ++ v, c ∉ Pattern.quotes ∧ c ≠ '\r')
    (hl : l ∈ logicalLines (g ++ (x ++ w) ++ v)) (hg : size g = l.statementStart)
    (hstop : size (g ++ (x ++ w)) = l.span.stop) (hx : Tiled w x) : ¬w.RunsOver v := by
  rintro ⟨p, y, z, r, rfl, hp, hy, hz, rfl, hcont⟩
  obtain ⟨a, k, q, hsplit, hstart, ha, hk⟩ := exists_append_of_statementStart hl
  rw [List.append_assoc] at hsplit
  obtain ⟨rfl, -⟩ := append_inj_of_size hsplit (hg.trans hstart.symm)
  -- the pass over the statement and what follows it stands in no comment
  have hlabel : initial.scan k = initial := by
    refine scan_of_notMem ⟨rfl, rfl⟩ fun c hc => ?_
    rcases hk c hc with hc | hc
    · exact Pattern.notMem_of_holds (k := .blank) (by decide) hc
    · exact Pattern.notMem_of_holds (k := .digit) (by decide) hc
  have hout : (initial.scan (k ++ (x ++ p))).Outside := by
    have hstart : initial.Between (x ++ (p ++ y)) := Outside.between ⟨rfl, rfl⟩ _
    have hbetween := between_of_trailing (hx.between hstart) hp
    rw [scan_append, hlabel, scan_append]
    obtain ⟨c, y, rfl⟩ := List.exists_cons_of_ne_nil hy
    obtain ⟨_, _, _, _, _, hmark, -⟩ := Pattern.split?_continuation_eq_some.mp hcont
    obtain rfl : c = '&' := (List.cons.inj hmark).1
    exact hbetween.outside (p := .lit ['&']) (by decide) rfl
  have hplain : ∀ c ∈ k ++ (x ++ p), c ∉ Pattern.quotes ∧ c ≠ '\r' := fun c hc =>
    hs c (by simp only [List.mem_append] at hc ⊢; tauto)
  obtain ⟨b, d, hline, hb, hd⟩ := exists_lastLine hplain hout.inComment
  have hsource : a ++ k ++ (x ++ (p ++ y)) ++ (z ++ r) = a ++ b ++ (d ++ (y ++ z) ++ r) := by
    have happ := congrArg (a ++ · ++ (y ++ (z ++ r))) hline
    simpa using happ
  rw [hsource] at hl
  have hstops := logicalLines_stop (ha.append hb) hd (by simpa using hcont)
    (fun hr => (hs _ (by simp only [List.mem_append] at hr ⊢; tauto)).2 rfl) hl
  -- the line ends behind the mark and in front of the end of the continuation
  have hsize := congrArg size hline
  have hypos : 0 < size y := Nat.pos_of_ne_zero fun h => hy (eq_nil_of_size h)
  have hzpos : 0 < size z := Nat.pos_of_ne_zero fun h => hz (eq_nil_of_size h)
  simp only [size_append] at hstop hstops hsize
  omega

/-- **A hit that has to be complete is followed, up to the end of its logical line, by noise and
line breaks only**, or the line breaks off inside a continuation that is completed behind it.  The
second is impossible where no quote stands in the source and its lines end in line feeds alone. -/
theorem rest_of_complete_hit {s : Text} {r : Rule} {o : Options} {t : Tree}
    (h : t ∈ locate s r o) (ho : o.requireComplete) :
    ∃ l ∈ logicalLines s, locateOn? s r o l = some t ∧
      ∃ u w v, s = u ++ w ++ v ∧ size u = t.span.stop ∧ size (u ++ w) = l.span.stop ∧
        (w.IsTrailing ∨ w.RunsOver v) ∧
        ((∀ c ∈ s, c ∉ Pattern.quotes ∧ c ≠ '\r') → w.IsTrailing) := by
  obtain ⟨l, hl, ht⟩ := List.mem_filterMap.mp h
  obtain ⟨-, -, hparse⟩ := locateOn?_eq_some_iff.mp ht
  obtain ⟨g, x, w, v, rfl, hg, hend, hstop, hx, hrest⟩ := exists_rest_of_parseRange hparse ho
  refine ⟨l, hl, ht, g ++ x, w, v, by simp, hend, by simpa using hstop, hrest, fun hs => ?_⟩
  exact hrest.resolve_right (not_runsOver_of_mem_logicalLines hs hl hg hstop hx)

/-- A call in front of a comment. -/
theorem rest_of_complete_hit_of_call :
    let s : Text := ['f', '(', ')', ' ', '!', 'c', '\n']
    let o : Options := Options.complete {}
    let t : Tree := ⟨.functionCall, ⟨0, 3⟩, [⟨.name, ⟨0, 1⟩, []⟩]⟩
    t ∈ locate s .functionCall o ∧ ∃ l ∈ logicalLines s, l.span = ⟨0, 6⟩ ∧
      ∃ u w v, s = u ++ w ++ v ∧ size u = 3 ∧ size (u ++ w) = 6 ∧ w.IsTrailing := by
  intro s o t
  have ht : t ∈ locate s .functionCall o := by decide +kernel
  have hlines : logicalLines s = [⟨⟨0, 6⟩, ['f', '(', ')', ' ', '!', 'c']⟩] := by decide +kernel
  obtain ⟨l, hl, -, u, w, v, hs, hu, hw, -, htrail⟩ := rest_of_complete_hit ht rfl
  have hspan : l.span = ⟨0, 6⟩ := by
    rw [hlines, List.mem_singleton] at hl
    rw [hl]
  rw [hspan] at hw
  exact ⟨ht, l, hl, hspan, u, w, v, hs, hu, hw, htrail (by simp [s, Pattern.quotes])⟩

/-- A string that is continued on the next line is closed there.  The scan for logical lines takes
its closing quote for an opening one and the comment mark for a quoted character, so that for it the
line ends without an `&`, and the hit seems complete though the statement goes on. -/
theorem locate_runs_over_of_continued_string :
    let s : Text :=
      ['x', '=', '\'', 'a', '&', '\n', '&', 'b', '\'', ' ', '&', '!', '\n', '&', '+', 'y']
    let o : Options := Options.complete {}
    let t : Tree := ⟨.assignment, ⟨0, 9⟩, [⟨.accessedVariable, ⟨0, 1⟩, [⟨.name, ⟨0, 1⟩, []⟩]⟩,
      ⟨.valueReturningCode, ⟨2, 9⟩, [⟨.atomicValue, ⟨2, 9⟩, [⟨.string, ⟨2, 9⟩, []⟩]⟩]⟩]⟩
    t ∈ locate s .assignment o ∧ ∃ l ∈ logicalLines s, locateOn? s .assignment o l = some t ∧
      ∃ w, s.slice? t.span.stop l.span.stop = some w ∧ ¬w.IsTrailing := by
  intro s o t
  have hlines : logicalLines s = [⟨⟨0, 12⟩, s.take 12⟩, ⟨⟨13, 16⟩, ['&', '+', 'y']⟩] := by
    decide +kernel
  have hrest : Pattern.trailing.split? [' ', '&', '!'] = some ([' '], ['&', '!']) := by decide
  refine ⟨by decide +kernel, ⟨⟨0, 12⟩, s.take 12⟩, by rw [hlines]; exact List.mem_cons_self,
    by decide +kernel, [' ', '&', '!'], by decide, fun h => ?_⟩
  rw [IsTrailing, hrest] at h
  simp at h

end FreeForm
