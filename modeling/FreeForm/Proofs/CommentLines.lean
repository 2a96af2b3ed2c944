import FreeForm.Proofs.LineEnds

/-!
# Comments and the joining of lines

Which physical lines are joined does not depend on comments.  A comment may be put at the end of a
physical line, outside quotes, and a line without code may be put behind a line on which a
continuation is open: logical lines start at the same physical lines as before
(`startsLogical_of_added`).

A scan passes a physical line in two states only, with a logical line open or not, and a logical
line starts exactly where none is open (`mem_starts_run`).  The next state depends on the code of
the line (`joins`), and a comment leaves the code as it is up to blanks (`codeFrom_comment`).
-/

namespace FreeForm

namespace Text

variable {b e k r s t u w : Text} {c p : Char} {ls ms xs ys : List Text}

/-! ## Lines of a text -/

/-- The physical lines of a text can be taken in two parts.  If the second is not empty, the first
ends with a complete line. -/
theorem physicalLines_eq_append : ∀ {l m : List Text}, s.physicalLines = l ++ m →
    physicalLines l.flatten = l ∧ physicalLines m.flatten = m ∧ (m ≠ [] → Complete l.flatten) := by
  induction s using line_induction with
  | nil =>
    intro l m h
    obtain ⟨rfl, rfl⟩ := List.append_eq_nil_iff.mp h.symm
    exact ⟨rfl, rfl, by simp⟩
  | last t hne ht =>
    intro l m h
    rw [physicalLines_last ht hne] at h
    rcases List.append_eq_singleton_iff.mp h.symm with ⟨rfl, rfl⟩ | ⟨rfl, rfl⟩
    · exact ⟨rfl, by simpa using physicalLines_last ht hne, fun _ => .inl rfl⟩
    · exact ⟨by simpa using physicalLines_last ht hne, rfl, by simp⟩
  | line t r ht ih =>
    intro l m h
    rw [physicalLines_line ht] at h
    cases l with
    | nil =>
      obtain rfl : m = _ := h.symm
      refine ⟨rfl, ?_, fun _ => .inl rfl⟩
      rw [List.flatten_cons, flatten_physicalLines, List.append_assoc, List.singleton_append,
        physicalLines_line ht]
    | cons w l =>
      obtain ⟨rfl, hr⟩ := List.cons.inj h
      obtain ⟨hl, hm, hc⟩ := ih hr
      refine ⟨?_, hm, fun hne => ?_⟩
      · rw [List.flatten_cons, List.append_assoc, List.singleton_append, physicalLines_line ht, hl]
      · exact Complete.append (.inr ⟨t, rfl⟩) (hc hne)

/-- A physical line goes up to its line feed, or has none and is the last. -/
theorem physicalLines_eq_singleton (h : w.physicalLines = [w]) :
    (∃ t, '\n' ∉ t ∧ w = t ++ ['\n']) ∨ (w ≠ [] ∧ '\n' ∉ w) := by
  induction w using line_induction with
  | nil => simp [physicalLines] at h
  | last t hne ht => exact .inr ⟨hne, ht⟩
  | line t r ht ih =>
    rw [physicalLines_line ht] at h
    have happ : t ++ ['\n'] = t ++ '\n' :: r := (List.cons.inj h).1
    exact .inl ⟨t, ht, happ.symm⟩

/-- Another line may stand in the place of a line, if it is complete or the last. -/
theorem physicalLines_replace (h : s.physicalLines = ls ++ w :: ms) {n : List Text}
    (hn : physicalLines n.flatten = n) (hc : ms ≠ [] → Complete n.flatten) :
    physicalLines (ls ++ (n ++ ms)).flatten = ls ++ (n ++ ms) := by
  obtain ⟨hls, hrest, hfirst⟩ := physicalLines_eq_append h
  obtain ⟨-, hms, -⟩ := physicalLines_eq_append (l := [w]) (m := ms) hrest
  rw [List.flatten_append, physicalLines_append (hfirst (by simp)), hls, List.flatten_append]
  congr 1
  by_cases hnil : ms = []
  · rw [hnil, List.flatten_nil, List.append_nil, hn, List.append_nil]
  · rw [physicalLines_append (hc hnil), hn, hms]

/-- A line stays a line, and stays complete, if something without line breaks is put in front of
the line break. -/
theorem physicalLines_insert (h : (u ++ b).physicalLines = [u ++ b])
    (hb : ∀ c ∈ b, CharClass.lineBreak.holds c) (hu : u.Unbroken) (hk : '\n' ∉ k) :
    (u ++ k ++ b).physicalLines = [u ++ k ++ b] ∧ (Complete (u ++ b) → Complete (u ++ k ++ b)) := by
  rcases physicalLines_eq_singleton h with ⟨t, ht, happ⟩ | ⟨hne, hfree⟩
  · rcases List.eq_nil_or_concat b with rfl | ⟨a, c, rfl⟩
    · -- the line feed would be the last character of `u`
      rw [List.append_nil] at happ
      exact absurd (by decide) (hu '\n' (by rw [happ]; simp))
    · rw [List.concat_eq_append, ← List.append_assoc] at happ ⊢
      obtain ⟨rfl, hc⟩ := List.append_inj' happ rfl
      obtain rfl : c = '\n' := List.singleton_inj.mp hc
      have hline : '\n' ∉ u ++ k ++ a := by
        simp only [List.mem_append, not_or] at ht ⊢
        exact ⟨⟨ht.1, hk⟩, ht.2⟩
      rw [← List.append_assoc]
      exact ⟨physicalLines_line hline [], fun _ => .inr ⟨_, rfl⟩⟩
  · have hline : '\n' ∉ u ++ k ++ b := by
      simp only [List.mem_append, not_or] at hfree ⊢
      exact ⟨⟨hfree.1, hk⟩, hfree.2⟩
    have hne' : u ++ k ++ b ≠ [] := by
      intro hnil
      simp only [List.append_eq_nil_iff] at hnil
      exact hne (by rw [hnil.1.1, hnil.2]; rfl)
    refine ⟨physicalLines_last hline hne', fun hc => ?_⟩
    rcases hc with hnil | ⟨t, hlast⟩
    · exact absurd hnil hne
    · exact absurd (by rw [hlast]; simp) hfree

/-- The lines of a source with something put in front of the line break of a line. -/
theorem physicalLines_of_insert (hs : s.physicalLines = ls ++ (u ++ b) :: ms)
    (hb : ∀ c ∈ b, CharClass.lineBreak.holds c) (hu : u.Unbroken) (hk : '\n' ∉ k) :
    physicalLines (ls ++ (u ++ k ++ b) :: ms).flatten = ls ++ (u ++ k ++ b) :: ms := by
  obtain ⟨hline, -, hcomplete⟩ := physicalLines_eq_append (l := [u ++ b]) (m := ms)
    (physicalLines_eq_append hs).2.1
  rw [List.flatten_singleton] at hline hcomplete
  obtain ⟨hnew, hstays⟩ := physicalLines_insert hline hb hu hk
  refine physicalLines_replace hs (n := [u ++ k ++ b]) ?_ fun hne => ?_
  · rw [List.flatten_singleton, hnew]
  · rw [List.flatten_singleton]
    exact hstays (hcomplete hne)

/-- The lines of a source with a line put in behind a line feed. -/
theorem physicalLines_of_insert_line (hs : s.physicalLines = ls ++ w :: ms)
    (hw : w.getLast? = some '\n') (ht : '\n' ∉ t) (he : e.IsLineBreak) :
    physicalLines (ls ++ w :: (t ++ e) :: ms).flatten = ls ++ w :: (t ++ e) :: ms := by
  obtain ⟨hline, -, -⟩ := physicalLines_eq_append (l := [w]) (m := ms)
    (physicalLines_eq_append hs).2.1
  rw [List.flatten_singleton] at hline
  have hcomplete : Complete w := .inr (List.getLast?_eq_some_iff.mp hw)
  have hnew : physicalLines (t ++ e) = [t ++ e] := by
    simpa [physicalLines] using physicalLines_lineBreak ht he []
  refine physicalLines_replace hs (n := [w, t ++ e]) ?_ fun _ => ?_
  · rw [List.flatten_cons, List.flatten_singleton, physicalLines_append hcomplete, hline, hnew]
    rfl
  · obtain ⟨i, rfl⟩ := he
    rw [List.flatten_cons, List.flatten_singleton]
    exact hcomplete.append (.inr ⟨t ++ List.replicate i '\r', by simp⟩)

theorem ne_nil_of_mem_physicalLines : ∀ {s : Text}, ∀ w ∈ s.physicalLines, w ≠ [] := by
  intro s
  induction s using line_induction with
  | nil => simp [physicalLines]
  | last t hne ht =>
    rw [physicalLines_last ht hne]
    exact List.forall_mem_singleton.mpr hne
  | line t r ht ih =>
    rw [physicalLines_line ht]
    exact List.forall_mem_cons.mpr ⟨by simp, ih⟩

/-- Lines begin one behind the other. -/
theorem size_take_lt (h : ∀ w ∈ ls, w ≠ []) {i j : Nat} (hij : i < j) (hj : j ≤ ls.length) :
    size (ls.take i).flatten < size (ls.take j).flatten := by
  induction ls generalizing i j with
  | nil => exact absurd hj (by simp only [List.length_nil]; omega)
  | cons w ls ih =>
    obtain ⟨j, rfl⟩ : ∃ k, j = k + 1 := ⟨j - 1, by omega⟩
    rw [List.take_succ_cons, List.flatten_cons, size_append]
    cases i with
    | zero =>
      have hw : size w ≠ 0 := fun hw => h w List.mem_cons_self (eq_nil_of_size hw)
      simp only [List.take_zero, List.flatten_nil, size_nil]
      omega
    | succ i =>
      have hlt := ih (fun w hw => h w (List.mem_cons_of_mem _ hw)) (Nat.lt_of_succ_lt_succ hij)
        (Nat.le_of_succ_le_succ hj)
      rw [List.take_succ_cons, List.flatten_cons, size_append]
      omega

theorem size_take_inj (h : ∀ w ∈ ls, w ≠ []) {i j : Nat} (hi : i < ls.length)
    (hj : j < ls.length) (hsize : size (ls.take i).flatten = size (ls.take j).flatten) : i = j := by
  rcases Nat.lt_trichotomy i j with hlt | heq | hlt
  · exact absurd hsize (Nat.ne_of_lt (size_take_lt h hlt (Nat.le_of_lt hj)))
  · exact heq
  · exact absurd hsize.symm (Nat.ne_of_lt (size_take_lt h hlt (Nat.le_of_lt hi)))

/-! ## What starts a logical line -/

/-- Whether a logical line is open behind the physical line `w`; `o` says it of the place in front
of `w`. -/
def joins (o : Bool) (w : Text) : Bool := o && w.body.isCodeless || w.body.continues

/-- For each of some physical lines, whether no logical line is open in front of it. -/
def opens (o : Bool) : List Text → List Bool
  | [] => []
  | w :: ls => (!o) :: opens (joins o w) ls

theorem opens_append (o : Bool) (xs ys : List Text) :
    opens o (xs ++ ys) = opens o xs ++ opens (xs.foldl joins o) ys := by
  induction xs generalizing o with
  | nil => rfl
  | cons w xs ih => rw [List.cons_append, opens, ih, opens, List.foldl_cons, List.cons_append]

theorem length_opens (o : Bool) (xs : List Text) : (opens o xs).length = xs.length := by
  induction xs generalizing o with
  | nil => rfl
  | cons w xs ih => rw [opens, List.length_cons, ih, List.length_cons]

/-- For each physical line of a source, whether a logical line starts with it. -/
def startsLogical (s : Text) : List Bool :=
  (List.range s.physicalLines.length).map fun i =>
    (logicalLines s).any fun l => l.span.start = size (s.physicalLines.take i).flatten

end Text

namespace LineScan

open Text

/-- The starts of all logical lines that a scan has come to. -/
def starts (n : LineScan) : List Nat := n.lines.map (·.start) ++ n.pending.toList

theorem isSome_pending_next (n : LineScan) (w : Text) :
    (n.next w).pending.isSome = joins n.pending.isSome w := by
  unfold joins
  rcases n.next_cases w with ⟨hopen, hcode, hn⟩ | ⟨hcont, hn⟩ | ⟨hnot, hcont, hn⟩
  · simp [hn, hopen, hcode]
  · simp [hn, hcont]
  · simp only [hn, Option.isSome_none, Bool.eq_false_iff.mpr hcont, Bool.or_false]
    exact (Bool.eq_false_iff.mpr fun h => hnot (Bool.and_eq_true_iff.mp h)).symm

theorem isSome_pending_run (n : LineScan) (ls : List Text) :
    (n.run ls).pending.isSome = ls.foldl joins n.pending.isSome := by
  induction ls generalizing n with
  | nil => rfl
  | cons w ls ih => rw [run_cons, ih, isSome_pending_next, List.foldl_cons]

/-- A physical line starts a logical line where none is open. -/
theorem starts_next (n : LineScan) (w : Text) :
    (n.next w).starts = n.starts ++ if n.pending.isSome then [] else [n.offset] := by
  unfold starts
  rcases n.next_cases w with ⟨hopen, -, hn⟩ | ⟨-, hn⟩ | ⟨-, -, hn⟩ <;> rw [hn]
  · rw [if_pos hopen, List.append_nil]
  · cases n.pending <;> simp
  · cases n.pending <;> simp

theorem mem_starts_run (n : LineScan) (ls : List Text) (x : Nat) :
    x ∈ (n.run ls).starts ↔ x ∈ n.starts ∨ ∃ i, (opens n.pending.isSome ls)[i]? = some true ∧
      x = n.offset + size (ls.take i).flatten := by
  induction ls generalizing n with
  | nil => simp [run, opens]
  | cons w ls ih =>
    rw [run_cons, ih, starts_next, isSome_pending_next, offset_next, List.mem_append, or_assoc]
    refine or_congr_right ⟨?_, ?_⟩
    · rintro (hx | ⟨i, hi, rfl⟩)
      · have hclosed : n.pending.isSome = false := by
          refine Bool.eq_false_iff.mpr fun hopen => ?_
          rw [if_pos hopen] at hx
          exact absurd hx List.not_mem_nil
        rw [if_neg (by simp [hclosed]), List.mem_singleton] at hx
        exact ⟨0, by simp [opens, hclosed], by simpa using hx⟩
      · refine ⟨i + 1, by simpa [opens] using hi, ?_⟩
        rw [List.take_succ_cons, List.flatten_cons, size_append, Nat.add_assoc]
    · rintro ⟨i, hi, rfl⟩
      cases i with
      | zero =>
        left
        have hclosed : n.pending.isSome = false := by simpa [opens] using hi
        simp [hclosed]
      | succ i =>
        refine .inr ⟨i, by simpa [opens] using hi, ?_⟩
        rw [List.take_succ_cons, List.flatten_cons, size_append, Nat.add_assoc]

theorem map_start_spans (s : Text) (n : LineScan) : (n.spans s).map (·.start) = n.starts := by
  unfold spans starts
  cases n.pending <;> simp

end LineScan

namespace Text

variable {b e k s t u w : Text} {c p : Char} {q : Option Char} {ls ms : List Text}

/-- A logical line starts with a physical line where none is open. -/
theorem startsLogical_eq (s : Text) : startsLogical s = opens false s.physicalLines := by
  have hlength : (startsLogical s).length = s.physicalLines.length := by simp [startsLogical]
  have hmem : ∀ x, (∃ l ∈ logicalLines s, l.span.start = x) ↔
      ∃ i, (opens false s.physicalLines)[i]? = some true ∧
        x = size (s.physicalLines.take i).flatten := by
    intro x
    have hstarts : (logicalLines s).map (·.span.start) =
        (LineScan.run ⟨0, none, []⟩ s.physicalLines).starts := by
      rw [logicalLines, List.map_map, ← LineScan.map_start_spans s]
      rfl
    rw [← List.mem_map, hstarts, LineScan.mem_starts_run]
    simp [LineScan.starts]
  refine List.ext_getElem (hlength.trans (length_opens _ _).symm) fun i hi hi' => ?_
  rw [Bool.eq_iff_iff]
  simp only [startsLogical, List.getElem_map, List.getElem_range, List.any_eq_true,
    decide_eq_true_eq, hmem]
  rw [hlength] at hi
  constructor
  · rintro ⟨j, hj, hsize⟩
    obtain ⟨hlt, htrue⟩ := List.getElem?_eq_some_iff.mp hj
    rw [length_opens] at hlt
    obtain rfl := size_take_inj ne_nil_of_mem_physicalLines hi hlt hsize
    exact htrue
  · exact fun h => ⟨i, List.getElem?_eq_some_iff.mpr ⟨hi', h⟩, rfl⟩

/-! ## Comments -/

/-- The quote that is open behind a text, if there is one and no comment has begun; `q` says it of
the place in front of the text. -/
def openQuote : Option Char → Text → Option Char
  | q, [] => q
  | some q, c :: s => openQuote (if c = q then none else some q) s
  | none, c :: s =>
    if c = '!' then none else openQuote (if c = '"' ∨ c = '\'' then some c else none) s

/-- A comment behind a text that leaves no quote open adds no code but the blank in front of it. -/
theorem codeFrom_comment (h : openQuote q u = none) (hp : CharClass.blank.holds p) (k : Text) :
    codeFrom q (u ++ p :: '!' :: k) = codeFrom q u ∨
      codeFrom q (u ++ p :: '!' :: k) = codeFrom q u ++ [p] := by
  have hplain := PlainCode.of_blank (t := [p]) (List.forall_mem_singleton.mpr hp)
  obtain ⟨-, hmark, hdouble, hsingle⟩ := hplain p (List.mem_singleton_self p)
  induction u generalizing q with
  | nil =>
    obtain rfl : q = none := h
    right
    simp [codeFrom, hmark, hdouble, hsingle]
  | cons c u ih =>
    cases q with
    | some q =>
      rw [openQuote] at h
      simp only [List.cons_append, codeFrom, List.cons.injEq, true_and]
      exact ih h
    | none =>
      rw [openQuote] at h
      simp only [List.cons_append, codeFrom]
      by_cases hc : c = '!'
      · -- the comment is part of another one
        rw [if_pos hc, if_pos hc]
        exact .inl rfl
      · rw [if_neg hc] at h
        simp only [if_neg hc, List.cons_append, List.cons.injEq, true_and]
        exact ih h

theorem not_lineBreak_of_comment (hp : CharClass.blank.holds p)
    (hk : ∀ c ∈ k, ¬CharClass.lineBreak.holds c) :
    ∀ c ∈ p :: '!' :: k, ¬CharClass.lineBreak.holds c := by
  have hblank := PlainCode.of_blank (t := [p]) (List.forall_mem_singleton.mpr hp)
  exact List.forall_mem_cons.mpr ⟨(hblank p (List.mem_singleton_self p)).1,
    List.forall_mem_cons.mpr ⟨by decide, hk⟩⟩

/-- A comment in front of the line break of a line changes nothing for the lines behind it. -/
theorem joins_comment (hu : u.Unbroken) (hb : ∀ c ∈ b, CharClass.lineBreak.holds c)
    (h : openQuote none u = none) (hp : CharClass.blank.holds p)
    (hk : ∀ c ∈ k, ¬CharClass.lineBreak.holds c) (o : Bool) :
    joins o (u ++ p :: '!' :: k ++ b) = joins o (u ++ b) := by
  have hcomment := not_lineBreak_of_comment hp hk
  have hbody : body (u ++ b) = u := by rw [body, trimEnd_append_of_all hb, trimEnd_eq_self hu]
  have hbody' : body (u ++ p :: '!' :: k ++ b) = u ++ p :: '!' :: k := by
    rw [body, trimEnd_append_of_all hb,
      trimEnd_eq_self ((Unbroken.of_forall hcomment).append (List.cons_ne_nil _ _) u)]
  unfold joins
  rw [hbody, hbody', isCodeless, isCodeless, continues, continues]
  unfold code
  rcases codeFrom_comment h hp k with hcode | hcode
  · rw [hcode]
  · rw [hcode, List.all_append, trimEnd_append_of_all (List.forall_mem_singleton.mpr hp)]
    simp [hp]

/-- A line of blanks, with a comment or without, leaves a logical line open. -/
theorem joins_codeless (hb : ∀ c ∈ b, CharClass.blank.holds c) (hk : k = [] ∨ k.head? = some '!')
    (he : e.IsLineBreak) : joins true (b ++ k ++ e) = true := by
  have hblank := PlainCode.of_blank hb
  have hcode : (body (b ++ k ++ e)).isCodeless = true := by
    rw [body, trimEnd_append_of_all he.holds, isCodeless]
    rcases hk with rfl | hk
    · have hself : trimEnd CharClass.lineBreak.holds b = b :=
        trimEnd_eq_self (Unbroken.of_forall fun c hc => (hblank c hc).1)
      rw [List.append_nil, hself, hblank.closed.code_eq]
      exact List.all_eq_true.mpr hb
    · obtain ⟨k, rfl⟩ : ∃ m, k = '!' :: m := List.head?_eq_some_iff.mp hk
      obtain ⟨m, hm⟩ := exists_trimEnd (p := CharClass.lineBreak.holds) (c := '!') (by decide) b k
      rw [hm, hblank.closed.code_append, show code ('!' :: m) = [] from rfl, List.append_nil]
      exact List.all_eq_true.mpr hb
  rw [joins, hcode, Bool.true_and, Bool.true_or]

/-- The source `t` is `s` with a blank and a comment put in front of the line break of a physical
line `u ++ b`, where no quote that was opened on this line is open. -/
inductive CommentAdded (s : Text) : Text → Prop
  | intro {ls ms : List Text} {u b k : Text} {p : Char}
    (hs : s.physicalLines = ls ++ (u ++ b) :: ms) (hu : u.Unbroken)
    (hb : ∀ c ∈ b, CharClass.lineBreak.holds c) (hquote : openQuote none u = none)
    (hp : CharClass.blank.holds p) (hk : ∀ c ∈ k, ¬CharClass.lineBreak.holds c) :
    CommentAdded s (ls ++ (u ++ p :: '!' :: k ++ b) :: ms).flatten

/-- The source `t` is `s` with a physical line of blanks, with a comment or without, put in as the
line number `n`, behind a line feed and where the scan has a continuation open. -/
inductive LineAdded (s : Text) : Nat → Text → Prop
  | intro {ls ms : List Text} {w b k e : Text} (hs : s.physicalLines = ls ++ w :: ms)
    (hw : w.getLast? = some '\n')
    (hopen : (LineScan.run ⟨0, none, []⟩ (ls ++ [w])).pending.isSome)
    (hb : ∀ c ∈ b, CharClass.blank.holds c) (hk : k = [] ∨ k.head? = some '!') (hline : '\n' ∉ k)
    (he : e.IsLineBreak) :
    LineAdded s (ls.length + 1) (ls ++ w :: (b ++ k ++ e) :: ms).flatten

end Text

open Text

/-- **Comments do not affect how lines are joined.**  With a comment at the end of a physical line,
logical lines start with the same physical lines as before; with a line of blanks and a comment
inside a continuation, they start with the same of the old lines, and none with the new one. -/
theorem startsLogical_of_added (s t : Text) :
    (CommentAdded s t → startsLogical t = startsLogical s) ∧
      ∀ n, LineAdded s n t → t.physicalLines.eraseIdx n = s.physicalLines ∧
        startsLogical t = (startsLogical s).take n ++ false :: (startsLogical s).drop n := by
  constructor
  · rintro ⟨hs, hu, hb, hquote, hp, hk⟩
    have hlines := physicalLines_of_insert hs hb hu fun hmem =>
      not_lineBreak_of_comment hp hk _ hmem (by decide)
    rw [startsLogical_eq, startsLogical_eq, hlines, hs, opens_append, opens_append, opens, opens,
      joins_comment hu hb hquote hp hk]
  · rintro n ⟨hs, hw, hopen, hb, hk, hline, he⟩
    rename_i ls ms w b k e
    have hfeed : '\n' ∉ b ++ k := fun hmem =>
      (List.mem_append.mp hmem).elim (fun hmem => absurd (hb _ hmem) (by decide)) hline
    have hlines := physicalLines_of_insert_line hs hw hfeed he
    have hstate : (ls ++ [w]).foldl joins false = true := by
      rw [LineScan.isSome_pending_run] at hopen
      exact hopen
    have hlength : (opens false (ls ++ [w])).length = ls.length + 1 := by
      rw [length_opens, List.length_append, List.length_singleton]
    have hold : startsLogical s = opens false (ls ++ [w]) ++ opens true ms := by
      rw [startsLogical_eq, hs, List.append_cons, opens_append, hstate]
    rw [List.append_cons] at hlines hs
    refine ⟨?_, ?_⟩
    · rw [List.append_cons, hlines, hs, List.eraseIdx_append_of_length_le (by simp)]
      simp
    · rw [startsLogical_eq, List.append_cons, hlines, opens_append, hstate, opens,
        joins_codeless hb hk he, hold, List.take_left' hlength, List.drop_left' hlength]
      rfl

/-- A call over two lines and a line behind it: a comment with a quote and a mark behind the mark
of the first line, and a line with such a comment inside the continuation. -/
theorem startsLogical_of_added_of_call :
    let s : Text := ['f', '(', '&', '\r', '\n', '\'', '!', '\'', ')', '\n', 'g']
    let t : Text := ['f', '(', '&', ' ', '!', '\'', '&', '\r', '\n', '\'', '!', '\'', ')', '\n',
      'g']
    let v : Text := ['f', '(', '&', '\r', '\n', '\t', '!', '\'', '&', '\n', '\'', '!', '\'', ')',
      '\n', 'g']
    CommentAdded s t ∧ LineAdded s 1 v ∧ startsLogical s = [true, false, true] ∧
      startsLogical t = [true, false, true] ∧ startsLogical v = [true, false, false, true] := by
  intro s t v
  have hlines : s.physicalLines = [] ++ (['f', '(', '&'] ++ ['\r', '\n']) ::
      [['\'', '!', '\'', ')', '\n'], ['g']] := by decide
  have ht : CommentAdded s t :=
    .intro (p := ' ') (k := ['\'', '&']) hlines (by simp [Unbroken]; decide)
      (List.all_eq_true.mp (by decide)) (by decide) (by decide)
      (by simp [CharClass.lineBreak, CharClass.holds])
  have hv : LineAdded s 1 v :=
    .intro (b := ['\t']) (k := ['!', '\'', '&']) (e := ['\n']) hlines (by decide) (by decide)
      (List.all_eq_true.mp (by decide)) (.inr rfl) (by decide) ⟨0, rfl⟩
  have hs : startsLogical s = [true, false, true] := by decide +kernel
  refine ⟨ht, hv, hs, ?_, ?_⟩
  · rw [(startsLogical_of_added s t).1 ht, hs]
  · rw [((startsLogical_of_added s v).2 1 hv).2, hs]
    rfl

end FreeForm
