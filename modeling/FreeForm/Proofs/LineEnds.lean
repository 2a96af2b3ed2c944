import FreeForm.LogicalLine
import FreeForm.Proofs.OtherRest

/-!
# Where logical lines begin and end

A logical line begins where a physical line does (`logicalLines_start`).

Where noise has a continuation, the scan for logical lines finds one too, if the code in front of it
on its line leaves no quotation open (`Text.ClosedCode`) and every carriage return has its line feed
(`Text.pairsReturns`): the logical line stays open up to the second mark
(`LineScan.run_continuation`).  So no logical line ends inside a continuation (`logicalLines_stop`).
-/

namespace FreeForm

namespace Text

variable {p : Char → Bool} {c : Char} {s t u r : Text}

/-! ## Physical lines -/

theorem physicalLines_line (ht : '\n' ∉ t) (r : Text) :
    physicalLines (t ++ '\n' :: r) = (t ++ ['\n']) :: physicalLines r := by
  induction t with
  | nil => rfl
  | cons c t ih =>
    simp only [List.mem_cons, not_or] at ht
    rw [List.cons_append, physicalLines, if_neg (Ne.symm ht.1), ih ht.2]
    rfl

/-- A line break: any number of carriage returns and a line feed. -/
def IsLineBreak (s : Text) : Prop := ∃ k, s = List.replicate k '\r' ++ ['\n']

theorem IsLineBreak.holds (h : s.IsLineBreak) : ∀ c ∈ s, CharClass.lineBreak.holds c := by
  obtain ⟨k, rfl⟩ := h
  intro c hc
  rcases List.mem_append.mp hc with hc | hc
  · rw [List.eq_of_mem_replicate hc]
    decide
  · rw [List.mem_singleton.mp hc]
    decide

theorem physicalLines_lineBreak (ht : '\n' ∉ t) (hs : s.IsLineBreak) (r : Text) :
    physicalLines (t ++ s ++ r) = (t ++ s) :: physicalLines r := by
  obtain ⟨k, rfl⟩ := hs
  have hk : '\n' ∉ t ++ List.replicate k '\r' := by
    intro hmem
    rcases List.mem_append.mp hmem with hmem | hmem
    · exact ht hmem
    · exact absurd (List.eq_of_mem_replicate hmem) (by decide)
  have hline := physicalLines_line hk r
  simpa using hline

/-- The first line of a text goes on at least up to the first line feed. -/
theorem physicalLines_first (ht : '\n' ∉ t) (hne : t ≠ []) (r : Text) :
    ∃ w ls, physicalLines (t ++ r) = (t ++ w) :: ls := by
  induction t with
  | nil => exact absurd rfl hne
  | cons c t ih =>
    simp only [List.mem_cons, not_or] at ht
    rw [List.cons_append, physicalLines, if_neg (Ne.symm ht.1)]
    cases t with
    | nil =>
      rw [List.nil_append]
      cases physicalLines r with
      | nil => exact ⟨[], [], rfl⟩
      | cons l ls => exact ⟨l, ls, rfl⟩
    | cons d t =>
      obtain ⟨w, ls, hw⟩ := ih ht.2 (by simp)
      exact ⟨w, ls, by rw [hw]; rfl⟩

theorem physicalLines_last (ht : '\n' ∉ t) (hne : t ≠ []) : physicalLines t = [t] := by
  induction t with
  | nil => exact absurd rfl hne
  | cons c t ih =>
    simp only [List.mem_cons, not_or] at ht
    rw [physicalLines, if_neg (Ne.symm ht.1)]
    cases t with
    | nil => rfl
    | cons d t => rw [ih ht.2 (by simp)]

/-- The text is empty, or its last line is complete. -/
def Complete (s : Text) : Prop := s = [] ∨ ∃ t, s = t ++ ['\n']

theorem Complete.line (s t : Text) : Complete (s ++ (t ++ ['\n'])) :=
  .inr ⟨s ++ t, (List.append_assoc ..).symm⟩

theorem Complete.append (hs : Complete s) (ht : Complete t) : Complete (s ++ t) := by
  rcases ht with rfl | ⟨t, rfl⟩
  · rwa [List.append_nil]
  · exact .line s t

/-- A physical line begins at the offset `n`, or the text ends there behind a complete line. -/
def StartsLine (s : Text) (n : Nat) : Prop := ∃ a b, s = a ++ b ∧ size a = n ∧ Complete a

theorem physicalLines_append (hs : Complete s) (r : Text) :
    physicalLines (s ++ r) = physicalLines s ++ physicalLines r := by
  rcases hs with rfl | ⟨t, rfl⟩
  · rfl
  · induction t with
    | nil => rfl
    | cons c t ih =>
      simp only [List.cons_append, physicalLines, ih]
      split
      · rfl
      · cases h : physicalLines (t ++ ['\n']) with
        | nil =>
          have hflat := flatten_physicalLines (t ++ ['\n'])
          rw [h] at hflat
          simp at hflat
        | cons l ls => rfl

/-- What holds of no line, of an incomplete last line, and of a text if it holds behind the first
line, holds of every text. -/
theorem line_induction {P : Text → Prop} (nil : P []) (last : ∀ t, t ≠ [] → '\n' ∉ t → P t)
    (line : ∀ t r, '\n' ∉ t → P r → P (t ++ '\n' :: r)) (s : Text) : P s := by
  induction hn : s.length using Nat.strongRecOn generalizing s with
  | ind n ih =>
    by_cases hs : '\n' ∈ s
    · obtain ⟨t, r, rfl, ht⟩ := List.eq_append_cons_of_mem hs
      refine line t r ht (ih r.length ?_ r rfl)
      rw [← hn, List.length_append, List.length_cons]
      omega
    · by_cases hnil : s = []
      · rw [hnil]
        exact nil
      · exact last s hnil hs

/-- The beginning of a text up to the last line feed is complete. -/
theorem exists_complete (s : Text) : ∃ a b, s = a ++ b ∧ Complete a ∧ '\n' ∉ b := by
  induction s using line_induction with
  | nil => exact ⟨[], [], rfl, .inl rfl, List.not_mem_nil⟩
  | last t _ ht => exact ⟨[], t, rfl, .inl rfl, ht⟩
  | line t r _ ih =>
    obtain ⟨a, b, rfl, ha, hb⟩ := ih
    refine ⟨t ++ '\n' :: a, b, by simp, ?_, hb⟩
    rcases ha with rfl | ⟨a, rfl⟩
    · exact .inr ⟨t, rfl⟩
    · exact .inr ⟨t ++ '\n' :: a, by simp⟩

/-! ## Trimming at the end -/

theorem trimEnd_append_of_all (ht : ∀ c ∈ t, p c) (s : Text) :
    trimEnd p (s ++ t) = trimEnd p s := by
  rw [trimEnd, trimEnd, List.reverse_append,
    List.dropWhile_append_of_pos fun c hc => ht c (List.mem_reverse.mp hc)]

theorem trimEnd_concat (hc : ¬p c) (s : Text) : trimEnd p (s ++ [c]) = s ++ [c] := by
  rw [trimEnd, List.reverse_append, List.reverse_singleton, List.singleton_append,
    List.dropWhile_cons_of_neg hc, List.reverse_cons, List.reverse_reverse]

/-- A character that stays, stays with everything in front of it. -/
theorem exists_trimEnd (hc : ¬p c) (s t : Text) : ∃ w, trimEnd p (s ++ c :: t) = s ++ c :: w := by
  obtain ⟨z, hz, hall⟩ := trimEnd_append p (s ++ c :: t)
  have happ : s ++ [c] ++ t = trimEnd p (s ++ c :: t) ++ z := by
    rw [← hz, List.append_assoc, List.singleton_append]
  rcases List.append_eq_append_iff.mp happ with ⟨a, ha, -⟩ | ⟨a, ha, rfl⟩
  · exact ⟨a, by rw [ha, List.append_assoc, List.singleton_append]⟩
  · rcases List.eq_nil_or_concat a with rfl | ⟨b, d, rfl⟩
    · exact ⟨[], by rw [ha, List.append_nil]⟩
    · rw [List.concat_eq_append, ← List.append_assoc] at ha
      obtain rfl : c = d := List.singleton_inj.mp (List.append_inj' ha rfl).2
      exact absurd (List.all_eq_true.mp hall c (by simp)) hc

theorem size_trimEnd_le (p : Char → Bool) (s : Text) : size (trimEnd p s) ≤ size s := by
  obtain ⟨t, ht, -⟩ := trimEnd_append p s
  have h := congrArg size ht
  rw [size_append] at h
  omega

theorem trimEnd_eq_self (hs : ∀ c ∈ s.getLast?, ¬p c) : trimEnd p s = s := by
  rcases List.eq_nil_or_concat s with rfl | ⟨t, c, rfl⟩
  · rfl
  · rw [List.concat_eq_append] at hs ⊢
    exact trimEnd_concat (hs c (by simp)) t

/-- The text does not end with a line break. -/
def Unbroken (s : Text) : Prop := ∀ c ∈ s.getLast?, ¬CharClass.lineBreak.holds c

theorem Unbroken.of_forall (ht : ∀ c ∈ t, ¬CharClass.lineBreak.holds c) : t.Unbroken :=
  fun c hc => ht c (List.mem_of_getLast? hc)

theorem Unbroken.append (ht : t.Unbroken) (hne : t ≠ []) (s : Text) : (s ++ t).Unbroken := by
  intro c hc
  rw [List.getLast?_append, List.getLast?_eq_some_getLast hne, Option.some_or,
    ← List.getLast?_eq_some_getLast hne] at hc
  exact ht c hc

/-- The body of a line is the line without its line break. -/
theorem body_line (ht : t.Unbroken) (hs : s.IsLineBreak) : body (t ++ s) = t := by
  rw [body, trimEnd_append_of_all hs.holds, trimEnd_eq_self ht]

/-! ## The code of a line -/

/-- The text is part of one line, and begins neither a quotation nor a comment. -/
def PlainCode (t : Text) : Prop :=
  ∀ c ∈ t, ¬CharClass.lineBreak.holds c ∧ c ≠ '!' ∧ c ≠ '"' ∧ c ≠ '\''

theorem PlainCode.of_blank (ht : ∀ c ∈ t, CharClass.blank.holds c) : PlainCode t := fun c hc => by
  have h : c ∉ ['\n', '\r', '!', '"', '\''] := Pattern.notMem_of_holds (by decide) (ht c hc)
  simp only [List.mem_cons, List.not_mem_nil, or_false, not_or] at h
  simp [CharClass.lineBreak, CharClass.holds, h]

/-- The text is code of one line, and behind it the line goes on as if it began there. -/
structure ClosedCode (t : Text) : Prop where
  line : '\n' ∉ t
  code_append : ∀ r, code (t ++ r) = t ++ code r

theorem ClosedCode.code_eq (h : ClosedCode t) : code t = t := by
  have hnil := h.code_append []
  rwa [List.append_nil, show code [] = [] from rfl, List.append_nil] at hnil

theorem ClosedCode.append (hs : ClosedCode s) (ht : ClosedCode t) : ClosedCode (s ++ t) where
  line hmem := (List.mem_append.mp hmem).elim hs.line ht.line
  code_append r := by rw [List.append_assoc, hs.code_append, ht.code_append, List.append_assoc]

theorem PlainCode.closed (ht : PlainCode t) : ClosedCode t where
  line hmem := (ht _ hmem).1 (by decide)
  code_append r := by
    induction t with
    | nil => rfl
    | cons c t ih =>
      obtain ⟨-, hc, hd, hq⟩ := ht c List.mem_cons_self
      have hrest := ih fun x hx => ht x (List.mem_cons_of_mem c hx)
      rw [List.cons_append, code, codeFrom, if_neg hc, if_neg (not_or.mpr ⟨hd, hq⟩), ← code, hrest]
      rfl

/-- The end of a continued line: blanks and a comment, if there is one. -/
structure LineTail (b k : Text) : Prop where
  blank : ∀ c ∈ b, CharClass.blank.holds c
  comment : code k = []
  line : ∀ c ∈ b ++ k, ¬CharClass.lineBreak.holds c

theorem LineTail.isCodeless {b k : Text} (h : LineTail b k) (hs : s.IsLineBreak) :
    (b ++ k ++ s).body.isCodeless := by
  have hbody : body (b ++ k ++ s) = b ++ k := body_line (.of_forall h.line) hs
  rw [hbody, Text.isCodeless, (PlainCode.of_blank h.blank).closed.code_append, h.comment,
    List.append_nil]
  exact List.all_eq_true.mpr h.blank

/-- A line whose code ends with `&` is continued. -/
theorem LineTail.continues {b k : Text} (h : LineTail b k) (ht : ClosedCode t)
    (hs : s.IsLineBreak) : (t ++ '&' :: (b ++ k) ++ s).body.continues := by
  have hline : ∀ c ∈ '&' :: (b ++ k), ¬CharClass.lineBreak.holds c :=
    List.forall_mem_cons.mpr ⟨by decide, h.line⟩
  have hbody : body (t ++ '&' :: (b ++ k) ++ s) = t ++ '&' :: (b ++ k) :=
    body_line ((Unbroken.of_forall hline).append (by simp) t) hs
  have hmark : PlainCode ('&' :: b) :=
    List.forall_mem_cons.mpr ⟨by decide, PlainCode.of_blank h.blank⟩
  have hcode : code (t ++ '&' :: (b ++ k)) = t ++ ['&'] ++ b := by
    rw [ht.code_append, ← List.cons_append, hmark.closed.code_append, h.comment, List.append_nil,
      List.append_assoc, List.singleton_append]
  rw [hbody, Text.continues, hcode, trimEnd_append_of_all h.blank, trimEnd_concat (by decide)]
  simp

/-! ## Carriage returns -/

/-- Whether every carriage return is directly followed by a line feed. -/
def pairsReturns : Text → Bool
  | [] => true
  | c :: s => (c ≠ '\r' || s.head? = some '\n') && pairsReturns s

theorem pairsReturns_of_append (h : pairsReturns (s ++ t)) : pairsReturns t := by
  induction s with
  | nil => exact h
  | cons c s ih =>
    rw [List.cons_append, pairsReturns, Bool.and_eq_true] at h
    exact ih h.2

/-- A beginning that does not end with a carriage return has no carriage return without its line
feed. -/
theorem pairsReturns_of_append_left (h : pairsReturns (s ++ t)) (hs : s.getLast? ≠ some '\r') :
    pairsReturns s := by
  induction s with
  | nil => rfl
  | cons c s ih =>
    rw [List.cons_append, pairsReturns, Bool.and_eq_true] at h
    cases s with
    | nil =>
      have hc : c ≠ '\r' := by simpa using hs
      simp [pairsReturns, hc]
    | cons d s =>
      rw [List.getLast?_cons_cons] at hs
      rw [pairsReturns, Bool.and_eq_true]
      exact ⟨h.1, ih h.2 hs⟩

theorem pairsReturns_of_notMem (h : '\r' ∉ s) : pairsReturns s := by
  induction s with
  | nil => rfl
  | cons c s ih =>
    simp only [List.mem_cons, not_or] at h
    have hc : c ≠ '\r' := Ne.symm h.1
    simp [pairsReturns, hc, ih h.2]

end Text

namespace Pattern

variable {s t r : Text}

/-- The end of a continued line ends with a line break. -/
theorem exists_lineTail (h : lineEnd.split? s = some (t, r)) (hs : s.pairsReturns) :
    ∃ b k l, t = b ++ k ++ l ∧ Text.LineTail b k ∧ l.IsLineBreak := by
  obtain ⟨b, q, k, m, l, hb, hk, hl, rfl⟩ := split?_lineEnd_eq_some.mp h
  have hbreak : l.IsLineBreak := by
    rw [split?_eq_append hb, split?_eq_append hk] at hs
    have hm := Text.pairsReturns_of_append (Text.pairsReturns_of_append hs)
    rw [newline, split?_alt_eq_some, split?_alt_eq_some] at hl
    rcases hl with hl | ⟨-, hl | ⟨hnone, hl⟩⟩
    · exact ⟨0, eq_of_split?_lit hl⟩
    · exact ⟨1, eq_of_split?_lit hl⟩
    · -- a line feed follows the carriage return, and both would have been taken
      have hreturn : m = '\r' :: r := by rw [split?_eq_append hl, eq_of_split?_lit hl]; rfl
      rw [hreturn, split?_return_feed] at hnone
      rw [hreturn, Text.pairsReturns] at hm
      simp [hnone] at hm
  have hcode : k.code = [] ∧ ∀ c ∈ k, ¬CharClass.lineBreak.holds c := by
    rcases split?_alt_eq_some.mp hk with hk | ⟨-, hk⟩
    · refine ⟨?_, fun c hc => ?_⟩
      · obtain ⟨m, _, u, hm, -, rfl⟩ := split?_seq_eq_some.mp hk
        rw [eq_of_split?_lit hm]
        rfl
      · have hfree : c ∉ ['\n', '\r'] := notMem_of_isFreeOf (by decide) hk c hc
        simpa [CharClass.lineBreak, CharClass.holds] using hfree
    · rw [eq_of_split?_lit hk]
      exact ⟨rfl, by simp⟩
  refine ⟨b, k, l, by rw [List.append_assoc], ⟨holds_of_run hb, hcode.1, fun c hc => ?_⟩, hbreak⟩
  rcases List.mem_append.mp hc with hc | hc
  · exact (Text.PlainCode.of_blank (holds_of_run hb) c hc).1
  · exact hcode.2 c hc

end Pattern

namespace LineScan

open Text

variable {n : LineScan} {ks ls : List Text} {w : Text} {x : Span}

/-- A physical line without code inside a continuation is passed over, one that asks for a
continuation leaves its logical line open, and any other ends it. -/
theorem next_cases (n : LineScan) (w : Text) :
    (n.pending.isSome ∧ w.body.isCodeless ∧ n.next w = { n with offset := n.offset + w.size }) ∨
      (w.body.continues ∧
        n.next w = ⟨n.offset + w.size, some (n.pending.getD n.offset), n.lines⟩) ∨
      (¬(n.pending.isSome ∧ w.body.isCodeless) ∧ ¬w.body.continues ∧
        n.next w = ⟨n.offset + w.size, none,
          n.lines ++ [⟨n.pending.getD n.offset, n.offset + w.body.size⟩]⟩) := by
  unfold next
  dsimp only
  split
  · rename_i h
    exact .inl ⟨h.1, h.2, rfl⟩
  · rename_i h
    split
    · rename_i hc
      exact .inr (.inl ⟨hc, rfl⟩)
    · rename_i hc
      exact .inr (.inr ⟨h, hc, rfl⟩)

theorem run_cons (n : LineScan) (w : Text) (ls : List Text) :
    n.run (w :: ls) = (n.next w).run ls := rfl

theorem offset_next (n : LineScan) (w : Text) : (n.next w).offset = n.offset + w.size := by
  rcases n.next_cases w with ⟨-, -, h⟩ | ⟨-, h⟩ | ⟨-, -, h⟩ <;> rw [h]

theorem offset_run (n : LineScan) (ls : List Text) :
    (n.run ls).offset = n.offset + size ls.flatten := by
  induction ls generalizing n with
  | nil => rfl
  | cons w ls ih =>
    have h := ih (n.next w)
    rw [offset_next, Nat.add_assoc, ← size_append, ← List.flatten_cons] at h
    exact h

theorem mem_lines_next (hx : x ∈ (n.next w).lines) :
    x ∈ n.lines ∨ x = ⟨n.pending.getD n.offset, n.offset + w.body.size⟩ := by
  rcases n.next_cases w with ⟨-, -, h⟩ | ⟨-, h⟩ | ⟨-, -, h⟩ <;> rw [h] at hx
  · exact .inl hx
  · exact .inl hx
  · exact (List.mem_append.mp hx).imp_right List.mem_singleton.mp

/-- The logical lines that are found later end later. -/
theorem mem_lines_run (hx : x ∈ (n.run ls).lines) : x ∈ n.lines ∨ n.offset ≤ x.stop := by
  induction ls generalizing n with
  | nil => exact .inl hx
  | cons w ls ih =>
    rcases ih (n := n.next w) hx with hx | hx
    · rcases mem_lines_next hx with hx | rfl
      · exact .inl hx
      · exact .inr (Nat.le_add_right ..)
    · rw [offset_next] at hx
      exact .inr (by omega)

theorem stop_le_run (hn : ∀ x ∈ n.lines, x.stop ≤ n.offset) :
    ∀ x ∈ (n.run ls).lines, x.stop ≤ (n.run ls).offset := by
  induction ls generalizing n with
  | nil => exact hn
  | cons w ls ih =>
    refine ih (n := n.next w) fun x hx => ?_
    have hbody := size_trimEnd_le CharClass.lineBreak.holds w
    rw [offset_next]
    rcases mem_lines_next hx with hx | rfl
    · exact Nat.le_trans (hn x hx) (Nat.le_add_right ..)
    · exact Nat.add_le_add_left hbody n.offset

/-! ## Starts -/

/-- Every logical line, also one that is still open, begins where a physical line of `s` does. -/
structure Starts (s : Text) (n : LineScan) : Prop where
  lines : ∀ x ∈ n.lines, s.StartsLine x.start
  pending : ∀ m ∈ n.pending, s.StartsLine m

theorem Starts.next {s : Text} (h : n.Starts s) (ho : s.StartsLine n.offset) (w : Text) :
    (n.next w).Starts s := by
  have hstart : s.StartsLine (n.pending.getD n.offset) := by
    cases hp : n.pending with
    | none => exact ho
    | some m => exact h.pending m hp
  refine ⟨fun x hx => ?_, fun m hm => ?_⟩
  · rcases mem_lines_next hx with hx | rfl
    · exact h.lines x hx
    · exact hstart
  · rcases n.next_cases w with ⟨-, -, hn⟩ | ⟨-, hn⟩ | ⟨-, -, hn⟩ <;> rw [hn] at hm
    · exact h.pending m hm
    · exact Option.mem_some_iff.mp hm ▸ hstart
    · exact absurd hm (by simp)

theorem Starts.run {r : Text} : ∀ {a : Text} {n : LineScan}, n.Starts (a ++ r) → Complete a →
    n.offset = size a → (n.run r.physicalLines).Starts (a ++ r) := by
  induction r using line_induction with
  | nil => exact fun h _ _ => h
  | last t hne ht =>
    intro a n h ha ho
    rw [physicalLines_last ht hne]
    exact h.next ⟨a, t, rfl, ho.symm, ha⟩ t
  | line t r ht ih =>
    intro a n h ha ho
    rw [physicalLines_line ht]
    have hsplit : a ++ (t ++ '\n' :: r) = a ++ (t ++ ['\n']) ++ r := by simp
    have hnext := h.next ⟨a, _, rfl, ho.symm, ha⟩ (t ++ ['\n'])
    rw [hsplit] at hnext ⊢
    exact ih hnext (.line a t) (by rw [offset_next, ho, ← size_append])

/-! ## Continuations -/

/-- A line that is continued or passed over leaves its logical line open. -/
theorem next_of_open (h : w.body.continues ∨ n.pending.isSome ∧ w.body.isCodeless) :
    (n.next w).pending = some (n.pending.getD n.offset) ∧ (n.next w).lines = n.lines := by
  rcases n.next_cases w with ⟨hn, -, hw⟩ | ⟨-, hw⟩ | ⟨hn, hc, -⟩
  · obtain ⟨m, hm⟩ := Option.isSome_iff_exists.mp hn
    rw [hw, hm]
    exact ⟨rfl, rfl⟩
  · rw [hw]
    exact ⟨rfl, rfl⟩
  · exact absurd (h.resolve_left hc) hn

/-- Lines without code do not end a continuation. -/
theorem run_lineEnds {m : Nat} {t r : Text}
    (h : (Pattern.many Pattern.lineEnd).split? w = some (t, r)) (hw : w.pairsReturns)
    (hn : n.pending = some m) :
    Complete t ∧ (n.run t.physicalLines).pending = some m ∧
      (n.run t.physicalLines).lines = n.lines := by
  refine Pattern.many_induction (P := fun w t _ => w.pairsReturns → ∀ n : LineScan,
    n.pending = some m → Complete t ∧ (n.run t.physicalLines).pending = some m ∧
      (n.run t.physicalLines).lines = n.lines) (a := .lineEnd) (by decide) ?_ ?_ h hw n hn
  · exact fun _ _ _ n hn => ⟨.inl rfl, hn, rfl⟩
  intro s t r u v ht _ ih hs n hn
  obtain ⟨b, k, l, rfl, htail, hl⟩ := Pattern.exists_lineTail ht hs
  have hfeed : '\n' ∉ b ++ k := fun hmem => htail.line _ hmem (by decide)
  have hnext := next_of_open (.inr ⟨by rw [hn]; rfl, htail.isCodeless hl⟩)
  rw [hn, Option.getD_some] at hnext
  rw [Pattern.split?_eq_append ht] at hs
  obtain ⟨hu, hpending, hsame⟩ := ih (pairsReturns_of_append hs) _ hnext.1
  have hcomplete : Complete (b ++ k ++ l) := by
    obtain ⟨i, rfl⟩ := hl
    exact .inr ⟨b ++ k ++ List.replicate i '\r', by simp⟩
  rw [physicalLines_lineBreak hfeed hl]
  exact ⟨hcomplete.append hu, hpending, hsame.trans hnext.2⟩

/-- No logical line ends on a physical line in front of an `&`. -/
theorem mem_lines_next_mark {b : Text} (w : Text)
    (hx : x ∈ (n.next (b ++ '&' :: w)).lines) :
    x ∈ n.lines ∨ n.offset + size (b ++ ['&']) ≤ x.stop := by
  rcases mem_lines_next hx with hx | rfl
  · exact .inl hx
  · obtain ⟨w', hw⟩ := exists_trimEnd (p := CharClass.lineBreak.holds) (c := '&') (by decide) b w
    refine .inr ?_
    simp only [body, hw, size_append, size_cons, size_nil]
    omega

/-- A continuation behind code leaves its logical line open, and the scan goes on with the line of
its second mark. -/
theorem run_continuation {b g : Text} (hb : ClosedCode b)
    (hg : Pattern.continuation.split? g = some (g, [])) (hr : g.pairsReturns) (n : LineScan)
    (v : Text) :
    ∃ k m, (∀ c ∈ k, CharClass.blank.holds c) ∧
      n.run (b ++ g ++ v).physicalLines = LineScan.run m (physicalLines (k ++ ['&'] ++ v)) ∧
      m.pending = some (n.pending.getD n.offset) ∧ m.lines = n.lines ∧
      m.offset + size (k ++ ['&']) = n.offset + size (b ++ g) := by
  obtain ⟨y, e, z, f, k, hy, he, hf, hk, rfl⟩ := Pattern.split?_continuation_eq_some.mp hg
  obtain rfl := (List.cons.inj hy).2
  have hrest : pairsReturns (e ++ (f ++ (k ++ ['&']))) := pairsReturns_of_append (s := ['&']) hr
  obtain ⟨i, j, l, rfl, htail, hl⟩ := Pattern.exists_lineTail he hrest
  have hz : z = f ++ (k ++ ['&']) := Pattern.split?_eq_append hf
  have hfirst : '\n' ∉ b ++ '&' :: (i ++ j) := by
    intro hmem
    rcases List.mem_append.mp hmem with hmem | hmem
    · exact hb.line hmem
    · exact htail.line _ ((List.mem_cons.mp hmem).resolve_left (by decide)) (by decide)
  -- the line with the first mark, and the lines without code
  have hopen := next_of_open (n := n) (.inl (htail.continues hb hl))
  obtain ⟨hcomplete, hpending, hsame⟩ :=
    run_lineEnds hf (hz ▸ pairsReturns_of_append hrest) hopen.1
  have hlines : (b ++ '&' :: (i ++ j ++ l ++ (f ++ (k ++ ['&']))) ++ v).physicalLines =
      (b ++ '&' :: (i ++ j) ++ l) :: (f.physicalLines ++ physicalLines (k ++ ['&'] ++ v)) := by
    have h := physicalLines_lineBreak hfirst hl (f ++ (k ++ ['&'] ++ v))
    rw [physicalLines_append hcomplete] at h
    simpa using h
  refine ⟨k, _, hk, by rw [hlines, run_cons, run_append], hpending, hsame.trans hopen.2, ?_⟩
  rw [offset_run, flatten_physicalLines, offset_next]
  simp only [size_append, size_cons]
  omega

/-- No logical line ends inside a continuation. -/
theorem mem_lines_run_continuation {b v : Text} (hb : ClosedCode b)
    (hw : Pattern.continuation.split? (w ++ v) = some (w, v)) (hcr : w.pairsReturns)
    (hx : x ∈ (n.run (b ++ w ++ v).physicalLines).lines) :
    x ∈ n.lines ∨ n.offset + size (b ++ w) ≤ x.stop := by
  have hself := Pattern.split?_continuation_append hw []
  rw [List.append_nil] at hself
  obtain ⟨k, m, hk, hrun, -, hlines, hoff⟩ := run_continuation hb hself hcr n v
  have hlast : '\n' ∉ k ++ ['&'] := by
    intro hmem
    rcases List.mem_append.mp hmem with hmem | hmem
    · exact absurd (hk _ hmem) (by decide)
    · exact absurd hmem (by decide)
  obtain ⟨u, ls, hls⟩ := physicalLines_first hlast (by simp) v
  rw [hrun, hls, run_cons] at hx
  rw [← hoff, ← hlines]
  rcases mem_lines_run hx with hx | hx
  · rw [List.append_assoc, List.singleton_append] at hx
    exact mem_lines_next_mark u hx
  · rw [offset_next, size_append] at hx
    exact .inr (by omega)

end LineScan

open Text

/-- **A logical line begins where a physical one does.** -/
theorem logicalLines_start {s : Text} {l : LogicalLine} (hl : l ∈ logicalLines s) :
    s.StartsLine l.span.start := by
  have h : (LineScan.run ⟨0, none, []⟩ s.physicalLines).Starts s :=
    LineScan.Starts.run (a := []) ⟨by simp, by simp⟩ (.inl rfl) rfl
  obtain ⟨x, hx, rfl⟩ := List.mem_map.mp hl
  unfold LineScan.spans at hx
  split at hx
  · exact h.lines x hx
  · rename_i m hm
    rcases List.mem_append.mp hx with hx | hx
    · exact h.lines x hx
    · rw [List.mem_singleton.mp hx]
      exact h.pending m hm

/-- **No logical line ends inside a continuation**, if the code in front of it on its line begins
neither a quotation nor a comment, and its lines end in line feeds alone. -/
theorem logicalLines_stop {a b w v : Text} (ha : Complete a) (hb : PlainCode b)
    (hw : Pattern.continuation.split? (w ++ v) = some (w, v)) (hcr : '\r' ∉ w) {l : LogicalLine}
    (hl : l ∈ logicalLines (a ++ (b ++ w ++ v))) :
    l.span.stop ≤ size a ∨ size a + size (b ++ w) ≤ l.span.stop := by
  obtain ⟨n, hn⟩ : ∃ n, n = LineScan.run ⟨0, none, []⟩ a.physicalLines := ⟨_, rfl⟩
  have hoff : n.offset = size a := by
    rw [hn, LineScan.offset_run, flatten_physicalLines, Nat.zero_add]
  have hrun : LineScan.run ⟨0, none, []⟩ (a ++ (b ++ w ++ v)).physicalLines =
      n.run (b ++ w ++ v).physicalLines := by
    rw [physicalLines_append ha, LineScan.run_append, hn]
  have hlines : ∀ x ∈ (n.run (b ++ w ++ v).physicalLines).lines,
      x.stop ≤ size a ∨ size a + size (b ++ w) ≤ x.stop := by
    intro x hx
    rcases LineScan.mem_lines_run_continuation hb.closed hw (pairsReturns_of_notMem hcr) hx with
      hx | hx
    · rw [hn] at hx
      have hstop := LineScan.stop_le_run (n := ⟨0, none, []⟩) (by simp) x hx
      rw [← hn, hoff] at hstop
      exact .inl hstop
    · exact .inr (hoff ▸ hx)
  obtain ⟨x, hx, rfl⟩ := List.mem_map.mp hl
  rw [hrun] at hx
  unfold LineScan.spans at hx
  split at hx
  · exact hlines x hx
  · rcases List.mem_append.mp hx with hx | hx
    · exact hlines x hx
    · -- the last logical line ends with the text, and the mark is no line break
      rw [List.mem_singleton.mp hx]
      obtain ⟨y, e, z, f, k, -, -, -, -, rfl⟩ := Pattern.split?_continuation_eq_some.mp hw
      obtain ⟨u, hu⟩ := exists_trimEnd (p := CharClass.lineBreak.holds) (c := '&') (by decide)
        (a ++ (b ++ '&' :: (e ++ (f ++ k)))) v
      have hbody := congrArg size hu
      simp only [body, size_append, size_cons, size_nil, List.append_assoc, List.cons_append,
        List.nil_append] at hbody ⊢
      right
      omega

end FreeForm
