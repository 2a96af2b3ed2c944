import FreeForm.Proofs.LineEnds
import Mathlib.Data.List.Chain
import Mathlib.Logic.ExistsUnique

/-!
# Logical lines partition a source

A source is its logical lines with line breaks between them, and line breaks at its end
(`Text.Lined`).  The scan keeps this up: after each physical line, what it has passed ends with a
logical line that is complete or still open (`LineScan.Reads`), and an open one has some character
other than a line break, so that it does not vanish where the source ends (`LineScan.Reads.next`,
`LineScan.Reads.exists_lined`).

From this one statement follow the offsets of the lines, what stands between them, and that every
other character belongs to exactly one of them (`logicalLines_partition`).
-/

namespace FreeForm

namespace Text

variable {p : Char → Bool} {c : Char} {n : Nat} {r s t u v w : Text} {x : Span} {xs : List Span}

/-! ## Trimming at the end -/

theorem trimEnd_append_of_ne_nil (ht : trimEnd p t ≠ []) (s : Text) :
    trimEnd p (s ++ t) = s ++ trimEnd p t := by
  have hne : (t.reverse.dropWhile p).isEmpty = false := by
    rw [List.isEmpty_eq_false_iff]
    intro h
    exact ht (by rw [trimEnd, h, List.reverse_nil])
  rw [trimEnd, trimEnd, List.reverse_append, List.dropWhile_append, hne, if_neg (by decide),
    List.reverse_append, List.reverse_reverse]

theorem not_of_mem_getLast?_trimEnd (hc : c ∈ (trimEnd p s).getLast?) : ¬p c := by
  have hd := List.head?_dropWhile_not p s.reverse
  rw [trimEnd, List.getLast?_reverse, Option.mem_def] at hc
  rw [hc] at hd
  simpa using hd

/-- Behind the body of a text stand line breaks only. -/
theorem exists_body (s : Text) :
    ∃ b, s = s.body ++ b ∧ ∀ c ∈ b, CharClass.lineBreak.holds c := by
  obtain ⟨b, hb, hall⟩ := trimEnd_append CharClass.lineBreak.holds s
  exact ⟨b, hb, List.all_eq_true.mp hall⟩

theorem unbroken_body (s : Text) : s.body.Unbroken := fun _ => not_of_mem_getLast?_trimEnd

/-- Behind the body of a physical line stands one line break. -/
theorem exists_lineBreak (ht : '\n' ∉ t) :
    ∃ b : Text, b.IsLineBreak ∧ t ++ ['\n'] = body (t ++ ['\n']) ++ b := by
  obtain ⟨z, hz, hall⟩ := exists_body t
  have hreturn : ∀ c ∈ z, c = '\r' := by
    intro c hc
    have hbreak := hall c hc
    have hfeed : c ≠ '\n' := by
      rintro rfl
      exact ht (by rw [hz]; exact List.mem_append_right _ hc)
    simpa [CharClass.lineBreak, CharClass.holds, hfeed] using hbreak
  refine ⟨z ++ ['\n'], ⟨z.length, by rw [← List.eq_replicate_of_mem hreturn]⟩, ?_⟩
  have hbody : body (t ++ ['\n']) = body t :=
    trimEnd_append_of_all (List.forall_mem_singleton.mpr (by decide)) t
  rw [hbody, ← List.append_assoc, ← hz]

/-! ## A text laid out in lines -/

/-- The text consists of lines with line breaks between them, and perhaps more line breaks behind
the last one; `xs` are the spans of the lines, if the text begins at the offset `n`. -/
inductive Lined : Nat → Text → List Span → Prop
  | nil {n : Nat} : Lined n [] []
  | last {n : Nat} {w b : Text} (hw : w.Unbroken) (hb : ∀ c ∈ b, CharClass.lineBreak.holds c)
    (hne : w ++ b ≠ []) : Lined n (w ++ b) [⟨n, n + size w⟩]
  | line {n : Nat} {w b r : Text} {x : Span} {xs : List Span} (hw : w.Unbroken)
    (hb : b.IsLineBreak) (h : Lined (n + size (w ++ b)) r (x :: xs)) :
    Lined n (w ++ (b ++ r)) (⟨n, n + size w⟩ :: x :: xs)

/-- A line that ends with a line break may stand in front. -/
theorem Lined.cons (hw : w.Unbroken) (hb : v.IsLineBreak) (h : Lined (n + size (w ++ v)) r xs) :
    Lined n (w ++ (v ++ r)) (⟨n, n + size w⟩ :: xs) := by
  cases h with
  | nil =>
    obtain ⟨k, rfl⟩ := hb
    have hall := IsLineBreak.holds ⟨k, rfl⟩
    rw [List.append_nil]
    exact .last hw hall (by simp)
  | last hw' hb' hne => exact .line hw hb (.last hw' hb' hne)
  | line hw' hb' h => exact .line hw hb (.line hw' hb' h)

theorem Lined.nil_iff (h : Lined n r xs) : xs = [] ↔ r = [] := by
  cases h with
  | nil => simp
  | last _ _ hne => simpa using hne
  | line _ hb _ =>
    obtain ⟨k, rfl⟩ := hb
    simp

theorem Lined.head (h : Lined n r xs) : ∀ x ∈ xs.head?, x.start = n := by
  cases h <;> simp

/-- Lines start one behind the other. -/
theorem Lined.increasing (h : Lined n r xs) :
    (∀ x ∈ xs, n ≤ x.start) ∧ xs.Pairwise fun x y => x.start < y.start := by
  induction h with
  | nil => simp
  | last => simp
  | @line n w b r x xs _ hb _ ih =>
    have hpos : 0 < size b := by
      obtain ⟨k, rfl⟩ := hb
      simp only [size_append, size_cons]
      have := ('\n').utf8Size_pos
      omega
    rw [size_append] at ih
    refine ⟨List.forall_mem_cons.mpr ⟨Nat.le_refl _, fun y hy => ?_⟩,
      List.pairwise_cons.mpr ⟨fun y hy => ?_, ih.2⟩⟩
    · have := ih.1 y hy
      omega
    · have := ih.1 y hy
      show n < y.start
      omega

/-- Lines do not overlap. -/
theorem Lined.ordered (h : Lined n r xs) : xs.Pairwise fun x y => x.stop ≤ y.start := by
  induction h with
  | nil | last => simp
  | @line n w b r x xs _ hb h ih =>
    refine List.pairwise_cons.mpr ⟨fun y hy => ?_, ih⟩
    have hle := h.increasing.1 y hy
    rw [size_append] at hle
    show n + size w ≤ y.start
    omega

/-- Each span cuts out a line, which does not end with a line break. -/
theorem Lined.slice (h : Lined n r xs) : ∀ u, size u = n → ∀ x ∈ xs,
    ∃ w, (u ++ r).slice? x.start x.stop = some w ∧ w.Unbroken := by
  induction h with
  | nil => simp
  | @last n w b hw _ _ =>
    rintro u rfl x hx
    obtain rfl := List.mem_singleton.mp hx
    exact ⟨w, by rw [← List.append_assoc, slice?_size_append], hw⟩
  | @line n w b r x xs hw _ _ ih =>
    rintro u rfl y hy
    rcases List.mem_cons.mp hy with rfl | hy
    · exact ⟨w, by rw [← List.append_assoc, slice?_size_append], hw⟩
    · have hrest := ih (u ++ (w ++ b)) (size_append ..) y hy
      simpa only [List.append_assoc] using hrest

/-- Between two lines stands one line break, and behind the last one only line breaks stand. -/
theorem Lined.breaks (h : Lined n r xs) : ∀ u, size u = n →
    (xs.IsChain fun x y => ∃ b, (u ++ r).slice? x.stop y.start = some b ∧ b.IsLineBreak) ∧
      ∀ x ∈ xs.getLast?, ∃ b, (u ++ r).slice? x.stop (size (u ++ r)) = some b ∧
        ∀ c ∈ b, CharClass.lineBreak.holds c := by
  induction h with
  | nil => simp
  | @last n w b _ hb _ =>
    rintro u rfl
    have hslice := slice?_size_append (u ++ w) b []
    refine ⟨List.isChain_singleton _, ?_⟩
    rintro x ⟨rfl⟩
    exact ⟨b, by simpa [Nat.add_assoc] using hslice, hb⟩
  | @line n w b r x xs _ hb h ih =>
    rintro u rfl
    obtain ⟨hchain, hlast⟩ := ih (u ++ (w ++ b)) (size_append ..)
    have hstart := h.head x rfl
    have hslice := slice?_size_append (u ++ w) b r
    have happ : u ++ (w ++ b) ++ r = u ++ (w ++ (b ++ r)) := by simp
    rw [happ] at hchain hlast
    refine ⟨List.isChain_cons_cons.mpr ⟨⟨b, ?_, hb⟩, hchain⟩, hlast⟩
    rw [hstart]
    simpa [Nat.add_assoc] using hslice

/-- In front of a line stands a line break, if anything, and behind it too. -/
theorem Lined.bordered (h : Lined n r xs) : ∀ u, size u = n →
    (∀ c ∈ u.getLast?, CharClass.lineBreak.holds c) → ∀ x ∈ xs, ∃ a w b, u ++ r = a ++ (w ++ b) ∧
      x = ⟨size a, size (a ++ w)⟩ ∧ (∀ c ∈ a.getLast?, CharClass.lineBreak.holds c) ∧
      ∀ c ∈ b.head?, CharClass.lineBreak.holds c := by
  induction h with
  | nil => simp
  | @last n w b _ hb _ =>
    rintro u rfl hu x hx
    obtain rfl := List.mem_singleton.mp hx
    exact ⟨u, w, b, rfl, by rw [size_append], hu, fun c hc => hb c (List.mem_of_mem_head? hc)⟩
  | @line n w b r x xs _ hb _ ih =>
    rintro u rfl hu y hy
    have hne : b ≠ [] := by
      obtain ⟨k, rfl⟩ := hb
      simp
    rcases List.mem_cons.mp hy with rfl | hy
    · refine ⟨u, w, b ++ r, rfl, by rw [size_append], hu, fun c hc => ?_⟩
      rw [List.head?_append_of_ne_nil _ hne] at hc
      exact hb.holds c (List.mem_of_mem_head? hc)
    · have hlast : ∀ c ∈ (u ++ (w ++ b)).getLast?, CharClass.lineBreak.holds c := by
        intro c hc
        rw [← List.append_assoc, List.getLast?_append_of_ne_nil _ hne] at hc
        exact hb.holds c (List.mem_of_getLast? hc)
      have hrest := ih (u ++ (w ++ b)) (size_append ..) hlast y hy
      simpa only [List.append_assoc] using hrest

/-- A character that is no part of a line break belongs to exactly one line. -/
theorem Lined.unique (h : Lined n r xs) : ∀ u c v, r = u ++ c :: v →
    ¬CharClass.lineBreak.holds c →
    ∃! x, x ∈ xs ∧ x.start ≤ n + size u ∧ n + size u + c.utf8Size ≤ x.stop := by
  have within : ∀ {w b u v : Text} {c : Char}, w ++ b = u ++ c :: v →
      ¬CharClass.lineBreak.holds c → (∀ d ∈ b, CharClass.lineBreak.holds d) →
      size u + c.utf8Size ≤ size w := by
    intro w b u v c hs hc hb
    rcases List.append_eq_append_iff.mp hs with ⟨g, hu, hbg⟩ | ⟨g, hw, hg⟩
    · exact absurd (hb c (by rw [hbg]; simp)) hc
    · cases g with
      | nil => exact absurd (hb c (by rw [← List.nil_append b, ← hg]; simp)) hc
      | cons d g =>
        obtain ⟨rfl, -⟩ := List.cons.inj hg
        rw [hw, size_append, size_cons]
        omega
  induction h with
  | nil => simp
  | @last n w b _ hb _ =>
    intro u c v hs hc
    have hle := within hs hc hb
    refine ⟨⟨n, n + size w⟩, ⟨List.mem_singleton_self _, Nat.le_add_right .., ?_⟩, ?_⟩
    · show n + size u + c.utf8Size ≤ n + size w
      omega
    · exact fun y hy => List.mem_singleton.mp hy.1
  | @line n w b r x xs _ hb h ih =>
    intro u c v hs hc
    have hstart := h.increasing.1
    rw [size_append] at ih hstart
    by_cases hu : size (w ++ b) ≤ size u
    · -- the character stands behind the first line break
      rw [← List.append_assoc] at hs
      obtain ⟨g, rfl, hr⟩ := exists_append_of_size_le hs hu
      rw [size_append, size_append]
      obtain ⟨y, hy, huniq⟩ := ih g c v hr hc
      refine ⟨y, ⟨List.mem_cons_of_mem _ hy.1, by omega, by omega⟩, fun z hz => ?_⟩
      have hpos := c.utf8Size_pos
      rcases List.mem_cons.mp hz.1 with rfl | hmem
      · have hstop : n + (size w + size b + size g) + c.utf8Size ≤ n + size w := hz.2.2
        omega
      · exact huniq z ⟨hmem, by omega, by omega⟩
    · have hle : size u + c.utf8Size ≤ size w := by
        rcases List.append_eq_append_iff.mp ((List.append_assoc w b r).trans hs) with
          ⟨g, rfl, -⟩ | ⟨g, hwb, hg⟩
        · exact absurd (by simp only [size_append]; omega) hu
        · cases g with
          | nil => exact absurd (by rw [hwb, List.append_nil]) hu
          | cons d g =>
            obtain ⟨rfl, -⟩ := List.cons.inj hg
            exact within hwb hc hb.holds
      refine ⟨⟨n, n + size w⟩, ⟨List.mem_cons_self, Nat.le_add_right .., ?_⟩, fun z hz => ?_⟩
      · show n + size u + c.utf8Size ≤ n + size w
        omega
      · rcases List.mem_cons.mp hz.1 with rfl | hmem
        · rfl
        · have := hstart z hmem
          have := hz.2.1
          have := c.utf8Size_pos
          omega

end Text

/-! ## The scan -/

namespace LineScan

open Text

variable {n : LineScan} {u v : Text}

/-- The scan has passed the complete logical lines of `u`, and then `v`: nothing, or the beginning
of a logical line that is still open. -/
structure Reads (n : LineScan) (u v : Text) : Prop where
  offset : n.offset = size (u ++ v)
  pending : (n.pending = none ∧ v = []) ∨ (n.pending = some (size u) ∧ v.body ≠ [])

theorem Reads.start (h : n.Reads u v) : n.pending.getD n.offset = size u := by
  rcases h.pending with ⟨hp, rfl⟩ | ⟨hp, -⟩
  · rw [hp, Option.getD_none, h.offset, List.append_nil]
  · rw [hp, Option.getD_some]

/-- A physical line leaves the logical line open, or ends it with its own body. -/
theorem Reads.next (h : n.Reads u v) (w : Text) :
    ((n.next w).Reads u (v ++ w) ∧ (n.next w).lines = n.lines) ∨
      ((n.next w).Reads (u ++ (v ++ w)) [] ∧
        (n.next w).lines = n.lines ++ [⟨size u, size u + size (v ++ w.body)⟩] ∧
        (v ++ w.body).Unbroken) := by
  have hoff : n.offset + size w = size (u ++ (v ++ w)) := by
    rw [h.offset, ← size_append, List.append_assoc]
  rcases n.next_cases w with ⟨hsome, hcode, hn⟩ | ⟨hcode, hn⟩ | ⟨hcode, -, hn⟩
  · have hopen : n.pending = some (size u) ∧ v.body ≠ [] := by
      refine h.pending.resolve_left fun hnone => ?_
      rw [hnone.1] at hsome
      exact absurd hsome (by decide)
    rw [hn]
    refine .inl ⟨⟨hoff, .inr ⟨hopen.1, ?_⟩⟩, rfl⟩
    by_cases hw : w.body = []
    · obtain ⟨b, hb, hall⟩ := exists_body w
      rw [hw, List.nil_append] at hb
      rw [hb, body, trimEnd_append_of_all hall]
      exact hopen.2
    · rw [body, trimEnd_append_of_ne_nil hw]
      exact List.append_ne_nil_of_right_ne_nil v hw
  · rw [hn, h.start]
    refine .inl ⟨⟨hoff, .inr ⟨rfl, ?_⟩⟩, rfl⟩
    have hw : w.body ≠ [] := by
      intro hnil
      rw [hnil] at hcode
      exact absurd hcode (by decide)
    rw [body, trimEnd_append_of_ne_nil hw]
    exact List.append_ne_nil_of_right_ne_nil v hw
  · rw [hn, h.start]
    refine .inr ⟨⟨?_, .inl ⟨rfl, rfl⟩⟩, ?_, ?_⟩
    · rw [List.append_nil]
      exact hoff
    · show n.lines ++ [⟨size u, n.offset + size w.body⟩] = _
      rw [h.offset, size_append, size_append, Nat.add_assoc]
    · -- a line without code would not have ended an open one
      rcases h.pending with ⟨-, rfl⟩ | ⟨hp, -⟩
      · exact w.unbroken_body
      · refine w.unbroken_body.append (fun hnil => hcode ⟨by rw [hp]; rfl, ?_⟩) v
        rw [hnil]
        rfl

/-- Where the source ends, an open logical line ends with it. -/
theorem Reads.exists_last (h : n.Reads u v) :
    ∃ xs, n.spans (u ++ v) = n.lines ++ xs ∧ Lined (size u) v xs := by
  unfold spans
  rcases h.pending with ⟨hp, rfl⟩ | ⟨hp, hv⟩
  · rw [hp]
    exact ⟨[], (List.append_nil _).symm, .nil⟩
  · obtain ⟨b, hb, hall⟩ := exists_body v
    have hne : v.body ++ b ≠ [] := List.append_ne_nil_of_left_ne_nil hv b
    have hlined := Lined.last (n := size u) v.unbroken_body hall hne
    rw [← hb] at hlined
    refine ⟨_, ?_, hlined⟩
    have hbody : (u ++ v).body = u ++ v.body := trimEnd_append_of_ne_nil hv u
    rw [hp]
    dsimp only
    rw [hbody, size_append, Nat.max_eq_left (Nat.le_add_right ..)]

/-- The logical lines that a scan finds from some place on are laid out from there on. -/
theorem Reads.exists_lined {r : Text} : ∀ {u v : Text} {n : LineScan}, n.Reads u v →
    ∃ xs, (n.run r.physicalLines).spans (u ++ (v ++ r)) = n.lines ++ xs ∧
      Lined (size u) (v ++ r) xs := by
  induction r using line_induction with
  | nil =>
    intro u v n h
    rw [List.append_nil]
    exact h.exists_last
  | last t hne ht =>
    intro u v n h
    rw [physicalLines_last ht hne]
    show ∃ xs, (n.next t).spans _ = _ ∧ _
    rcases h.next t with ⟨hn, hlines⟩ | ⟨hn, hlines, hunb⟩
    · rw [← hlines]
      exact hn.exists_last
    · obtain ⟨xs, hxs, hnil⟩ := hn.exists_last
      obtain rfl : xs = [] := hnil.nil_iff.mpr rfl
      obtain ⟨b, hb, hall⟩ := exists_body t
      have hvt : v ++ body t ++ b = v ++ t := by rw [List.append_assoc, ← hb]
      have hne' : v ++ body t ++ b ≠ [] := by
        rw [hvt]
        exact List.append_ne_nil_of_right_ne_nil v hne
      have hlined := Lined.last (n := size u) hunb hall hne'
      rw [hvt] at hlined
      refine ⟨_, ?_, hlined⟩
      rw [List.append_nil, List.append_nil] at hxs
      rw [hxs, hlines]
  | line t r ht ih =>
    intro u v n h
    obtain ⟨b, hb, hbreak⟩ := exists_lineBreak ht
    have happ : v ++ (t ++ '\n' :: r) = v ++ (t ++ ['\n']) ++ r := by simp
    rw [physicalLines_line ht, run_cons, happ]
    rcases h.next (t ++ ['\n']) with ⟨hn, hlines⟩ | ⟨hn, hlines, hunb⟩
    · rw [← hlines]
      exact ih hn
    · obtain ⟨xs, hxs, hlined⟩ := ih hn
      refine ⟨⟨size u, size u + size (v ++ body (t ++ ['\n']))⟩ :: xs, ?_, ?_⟩
      · rw [List.nil_append] at hxs
        rw [← List.append_assoc, hxs, hlines, List.append_assoc]
        rfl
      · generalize body (t ++ ['\n']) = w at *
        rw [hbreak, ← List.append_assoc v w b, List.append_assoc (v ++ w) b r]
        refine .cons hunb hb ?_
        rwa [hbreak, ← List.append_assoc v w b, size_append u, List.nil_append] at hlined

end LineScan

open Text

/-- The spans of the logical lines are laid out over the whole source. -/
theorem exists_lined_logicalLines (s : Text) :
    ∃ xs, Lined 0 s xs ∧ logicalLines s = xs.map fun x => ⟨x, x.text s⟩ := by
  have hstart : LineScan.Reads ⟨0, none, []⟩ [] [] := ⟨rfl, .inl ⟨rfl, rfl⟩⟩
  obtain ⟨xs, hxs, hlined⟩ := hstart.exists_lined (r := s)
  rw [List.nil_append, List.nil_append, List.nil_append] at hxs
  exact ⟨xs, hlined, by rw [logicalLines, hxs]⟩

/-- A logical line is what the source holds in its span. -/
theorem slice?_of_mem_logicalLines {s : Text} {l : LogicalLine} (hl : l ∈ logicalLines s) :
    s.slice? l.span.start l.span.stop = some l.text ∧ l.text.Unbroken := by
  obtain ⟨xs, hlined, hlines⟩ := exists_lined_logicalLines s
  rw [hlines] at hl
  obtain ⟨x, hx, rfl⟩ := List.mem_map.mp hl
  obtain ⟨w, hw, hunb⟩ := hlined.slice [] rfl x hx
  have htext : x.text s = w := by
    rw [List.nil_append] at hw
    rw [Span.text, hw, Option.getD_some]
  dsimp only
  rw [htext]
  exact ⟨hw, hunb⟩

/-- A logical line stands between line breaks, or it begins or ends with the source. -/
theorem bordered_of_mem_logicalLines {s : Text} {l : LogicalLine} (hl : l ∈ logicalLines s) :
    ∃ a b, s = a ++ (l.text ++ b) ∧ l.span = ⟨size a, size (a ++ l.text)⟩ ∧
      (∀ c ∈ a.getLast?, CharClass.lineBreak.holds c) ∧
      ∀ c ∈ b.head?, CharClass.lineBreak.holds c := by
  obtain ⟨xs, hlined, hlines⟩ := exists_lined_logicalLines s
  rw [hlines] at hl
  obtain ⟨x, hx, rfl⟩ := List.mem_map.mp hl
  obtain ⟨a, w, b, hs, rfl, ha, hb⟩ := hlined.bordered [] rfl (by simp) x hx
  have htext : Span.text s ⟨size a, size (a ++ w)⟩ = w := by
    have hslice := slice?_size_append a w b
    rw [← size_append, List.append_assoc, ← hs] at hslice
    rw [Span.text]
    simpa using congrArg (Option.getD · []) hslice
  rw [htext]
  exact ⟨a, b, hs, rfl, ha, hb⟩

/-- Logical lines stand one behind the other. -/
theorem logicalLines_ordered (s : Text) :
    (logicalLines s).Pairwise fun l m => l.span.stop ≤ m.span.start := by
  obtain ⟨xs, hlined, hlines⟩ := exists_lined_logicalLines s
  rw [hlines, List.pairwise_map]
  exact hlined.ordered

/-- The lines `ls` partition the text `s`, but for the line breaks that follow them. -/
structure Text.PartitionedInto (s : Text) (ls : List LogicalLine) : Prop where
  text : ∀ l ∈ ls, s.slice? l.span.start l.span.stop = some l.text
  nil_iff : ls = [] ↔ s = []
  first : ∀ l ∈ ls.head?, l.span.start = 0
  increasing : ls.Pairwise fun l m => l.span.start < m.span.start
  between : ls.IsChain fun l m =>
    ∃ k, s.slice? l.span.stop m.span.start = some (List.replicate k '\r' ++ ['\n'])
  last : ∀ l ∈ ls.getLast?, ∃ w, s.slice? l.span.stop (size s) = some w ∧
    ∀ c ∈ w, c = '\r' ∨ c = '\n'
  unbroken : ∀ l ∈ ls, ∀ c ∈ l.text.getLast?, c ≠ '\r' ∧ c ≠ '\n'
  unique : ∀ u c v, s = u ++ c :: v → c ≠ '\r' → c ≠ '\n' →
    ∃! l, l ∈ ls ∧ l.span.start ≤ size u ∧ size u + c.utf8Size ≤ l.span.stop

/-- **The logical lines of a source partition it.** -/
theorem logicalLines_partition (s : Text) : s.PartitionedInto (logicalLines s) := by
  obtain ⟨xs, hlined, hlines⟩ := exists_lined_logicalLines s
  obtain ⟨hchain, hlast⟩ := hlined.breaks [] rfl
  have hbreak : ∀ c, CharClass.lineBreak.holds c ↔ c = '\r' ∨ c = '\n' := by
    intro c
    simp [CharClass.lineBreak, CharClass.holds, or_comm]
  refine ⟨fun l hl => (slice?_of_mem_logicalLines hl).1, ?_, ?_, ?_, ?_, ?_, ?_, ?_⟩
  · rw [hlines, List.map_eq_nil_iff]
    exact hlined.nil_iff
  · intro l hl
    rw [hlines, List.head?_map, Option.mem_def, Option.map_eq_some_iff] at hl
    obtain ⟨x, hx, rfl⟩ := hl
    exact hlined.head x hx
  · rw [hlines, List.pairwise_map]
    exact hlined.increasing.2
  · rw [hlines, List.isChain_map]
    refine hchain.imp fun x y hxy => ?_
    obtain ⟨b, hb, k, rfl⟩ := hxy
    exact ⟨k, hb⟩
  · intro l hl
    rw [hlines, List.getLast?_map, Option.mem_def, Option.map_eq_some_iff] at hl
    obtain ⟨x, hx, rfl⟩ := hl
    obtain ⟨b, hb, hall⟩ := hlast x hx
    exact ⟨b, hb, fun c hc => (hbreak c).mp (hall c hc)⟩
  · intro l hl c hc
    have hunb := (slice?_of_mem_logicalLines hl).2 c hc
    rwa [hbreak, not_or] at hunb
  · intro u c v hs hr hn
    have hnot : ¬CharClass.lineBreak.holds c := by
      rw [hbreak, not_or]
      exact ⟨hr, hn⟩
    obtain ⟨x, ⟨hx, hle, hge⟩, huniq⟩ := hlined.unique u c v hs hnot
    rw [Nat.zero_add] at hle hge
    refine ⟨⟨x, x.text s⟩, ⟨by rw [hlines]; exact List.mem_map_of_mem hx, hle, hge⟩, ?_⟩
    rintro l ⟨hl, hle', hge'⟩
    rw [hlines] at hl
    obtain ⟨y, hy, rfl⟩ := List.mem_map.mp hl
    rw [huniq y ⟨hy, by rw [Nat.zero_add]; exact hle', by rw [Nat.zero_add]; exact hge'⟩]

end FreeForm
