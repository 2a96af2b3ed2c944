import FreeForm.Proofs.PatternForm

/-!
# The form of noise

Noise is written down twice: as `Pattern.noise`, which takes blanks, continuations and comments in
any order, and as `Pattern.gap`, which takes comments one by one with the blanks and continuations
between them.  Both cut off the same stretch (`split?_gap`).

Noise is taken as far as it goes, so that none is left behind it (`split?_noise_of_noise`),
and it is empty where none of four characters stands (`split?_noise_of_notMem`).

The parts of a continuation are named once, in `split?_continuation_eq_some`.
-/

namespace FreeForm

namespace Pattern

/-- One blank, continuation or comment. -/
abbrev noiseItem : Pattern := .alt whitespace comment

/-- Behind noise stands no more noise. -/
theorem split?_eq_none_of_noise {s u v : Text} (h : noise.split? s = some (u, v)) :
    whitespace.split? v = none ∧ comment.split? v = none := by
  have hv := split?_eq_none_of_many (a := noiseItem) rfl h
  rwa [split?, Option.or_eq_none_iff] at hv

theorem split?_gap_of_none {s : Text} (hw : whitespace.split? s = none)
    (hc : comment.split? s = none) : gap.split? s = some ([], s) := by
  have hr : (seq comment (many whitespace)).split? s = none := by rw [split?, hc, Option.bind_none]
  exact split?_seq_eq_some.mpr
    ⟨[], s, [], split?_many_of_none hw, split?_many_of_none hr, rfl⟩

theorem split?_gap_of_whitespace {s t r u v : Text} (hw : whitespace.split? s = some (t, r))
    (hr : gap.split? r = some (u, v)) : gap.split? s = some (t ++ u, v) := by
  obtain ⟨x, y, z, hx, hz, rfl⟩ := split?_seq_eq_some.mp hr
  rw [← List.append_assoc]
  exact split?_seq_eq_some.mpr ⟨_, _, _, split?_many_of_some rfl hw hx, hz, rfl⟩

theorem split?_gap_of_comment {s t r u v : Text} (hw : whitespace.split? s = none)
    (hc : comment.split? s = some (t, r)) (hr : gap.split? r = some (u, v)) :
    gap.split? s = some (t ++ u, v) := by
  obtain ⟨x, y, z, hx, hz, rfl⟩ := split?_seq_eq_some.mp hr
  have hround : (seq comment (many whitespace)).split? s = some (t ++ x, y) :=
    split?_seq_eq_some.mpr ⟨_, _, _, hc, hx, rfl⟩
  rw [← List.append_assoc]
  exact split?_seq_eq_some.mpr
    ⟨_, _, _, split?_many_of_none hw, split?_many_of_some rfl hround hz, rfl⟩

/-- **Both forms of noise cut off the same stretch.** -/
theorem split?_gap (s : Text) : gap.split? s = noise.split? s := by
  obtain ⟨⟨u, v⟩, h⟩ : ∃ x, noise.split? s = some x := ⟨_, rfl⟩
  rw [h]
  refine many_induction (P := fun s u v => gap.split? s = some (u, v)) rfl ?_ ?_ h
  · intro s hs
    rw [split?, Option.or_eq_none_iff] at hs
    exact split?_gap_of_none hs.1 hs.2
  · intro s t r u v hs _ hr
    rw [split?, Option.or_eq_some_iff] at hs
    rcases hs with hs | ⟨hw, hs⟩
    · exact split?_gap_of_whitespace hs hr
    · exact split?_gap_of_comment hw hs hr

/-- Noise behind noise is empty. -/
theorem split?_noise_of_noise {s u v : Text} (h : noise.split? s = some (u, v)) :
    noise.split? v = some ([], v) := by
  refine split?_many_of_none ?_
  rw [split?, Option.or_eq_none_iff]
  exact split?_eq_none_of_noise h

/-- The characters that noise begins with. -/
def noiseMarks : List Char := [' ', '\t', '!', '&']

/-- Where no noise begins, it is empty. -/
theorem split?_noise_of_notMem {s : Text} (h : ∀ c ∈ s.head?, c ∉ noiseMarks) :
    noise.split? s = some ([], s) := by
  cases s with
  | nil => rfl
  | cons c s =>
    have hc := h c rfl
    have hw : noiseItem.rejects c := by
      simp only [noiseMarks, List.mem_cons, List.not_mem_nil, or_false, not_or] at hc
      simp [whitespace, continuation, comment, all, rejects, CharClass.holds,
        CharClass.blank, hc]
    exact split?_many_of_none (split?_eq_none_of_rejects hw s)

/-! ## Continuations -/

/-- The blanks, the comment and the line break at the end of a continued line. -/
abbrev lineEnd : Pattern := all [.run .blank, opt comment, newline]

theorem split?_lineEnd_eq_some {s t r : Text} : lineEnd.split? s = some (t, r) ↔
    ∃ b q k m l, (run .blank).split? s = some (b, q) ∧ (opt comment).split? q = some (k, m) ∧
      newline.split? m = some (l, r) ∧ t = b ++ (k ++ l) := by
  constructor
  · intro h
    obtain ⟨b, q, u₁, hb, h₁, rfl⟩ := split?_seq_eq_some.mp h
    obtain ⟨k, m, u₂, hk, h₂, rfl⟩ := split?_seq_eq_some.mp h₁
    obtain ⟨l, n, u₃, hl, h₃, rfl⟩ := split?_seq_eq_some.mp h₂
    obtain rfl : u₃ = [] := eq_of_split?_lit h₃
    obtain rfl : n = r := split?_eq_append h₃
    exact ⟨b, q, k, m, l, hb, hk, hl, by rw [List.append_nil]⟩
  · rintro ⟨b, q, k, m, l, hb, hk, hl, rfl⟩
    refine split?_seq_eq_some.mpr ⟨b, q, k ++ l, hb, ?_, rfl⟩
    refine split?_seq_eq_some.mpr ⟨k, m, l, hk, ?_, rfl⟩
    exact split?_seq_eq_some.mpr ⟨l, r, [], hl, rfl, (List.append_nil l).symm⟩

/-- A continuation is an `&`, the end of its line, more lines without code, and an `&` behind
blanks. -/
theorem split?_continuation_eq_some {s t r : Text} : continuation.split? s = some (t, r) ↔
    ∃ x e y f b, s = '&' :: x ∧ lineEnd.split? x = some (e, y) ∧
      (many lineEnd).split? y = some (f, b ++ '&' :: r) ∧ (∀ c ∈ b, CharClass.blank.holds c) ∧
      t = '&' :: (e ++ (f ++ (b ++ ['&']))) := by
  constructor
  · intro h
    obtain ⟨t₁, x, u₁, h₁, k₁, rfl⟩ := split?_seq_eq_some.mp h
    obtain ⟨t₂, z, u₂, h₂, k₂, rfl⟩ := split?_seq_eq_some.mp k₁
    obtain ⟨b, q, u₃, h₃, k₃, rfl⟩ := split?_seq_eq_some.mp k₂
    obtain ⟨t₄, n, u₄, h₄, k₄, rfl⟩ := split?_seq_eq_some.mp k₃
    obtain ⟨e, y, f, he, hf, rfl⟩ := split?_seq_eq_some.mp h₂
    obtain rfl : t₁ = ['&'] := eq_of_split?_lit h₁
    obtain rfl : t₄ = ['&'] := eq_of_split?_lit h₄
    obtain rfl : u₄ = [] := eq_of_split?_lit k₄
    obtain rfl : n = r := split?_eq_append k₄
    have hz : z = b ++ '&' :: n := by rw [split?_eq_append h₃, split?_eq_append h₄]; rfl
    exact ⟨x, e, y, f, b, split?_eq_append h₁, he, hz ▸ hf, holds_of_run h₃, by simp⟩
  · rintro ⟨x, e, y, f, b, rfl, he, hf, hb, rfl⟩
    have hblanks : (run .blank).split? (b ++ '&' :: r) = some (b, '&' :: r) :=
      split?_run_eq_some.mpr ⟨rfl, hb, by simp [CharClass.blank, CharClass.holds]⟩
    refine split?_seq_eq_some.mpr ⟨['&'], x, e ++ (f ++ (b ++ ['&'])), rfl, ?_, rfl⟩
    refine split?_seq_eq_some.mpr ⟨e ++ f, b ++ '&' :: r, b ++ ['&'], ?_, ?_, by simp⟩
    · exact split?_seq_eq_some.mpr ⟨e, y, f, he, hf, rfl⟩
    · exact split?_seq_eq_some.mpr ⟨b, '&' :: r, ['&'], hblanks, rfl, rfl⟩

end Pattern

namespace Cursor

theorem skipGap_of_noise {c : Cursor} {w r : Text} (h : Pattern.noise.split? c.rest = some (w, r)) :
    c.skipGap = ⟨r, c.pos + Text.size w, c.stop⟩ := by
  rw [skipGap, Pattern.split?_gap, h]

/-- Passing noise once is enough. -/
theorem skipGap_skipGap (c : Cursor) : c.skipGap.skipGap = c.skipGap := by
  obtain ⟨⟨w, r⟩, h⟩ : ∃ x, Pattern.noise.split? c.rest = some x := ⟨_, rfl⟩
  rw [skipGap_of_noise h]
  exact skipGap_of_noise (Pattern.split?_noise_of_noise h)

theorem rest_skipGap_congr {c d : Cursor} (h : c.rest = d.rest) :
    c.skipGap.rest = d.skipGap.rest := by
  obtain ⟨⟨w, r⟩, hd⟩ : ∃ x, Pattern.noise.split? d.rest = some x := ⟨_, rfl⟩
  rw [skipGap_of_noise hd, skipGap_of_noise (h ▸ hd)]

/-- Where no noise begins, none is passed. -/
theorem rest_skipGap_of_notMem {c : Cursor} (h : ∀ x ∈ c.rest.head?, x ∉ Pattern.noiseMarks) :
    c.skipGap.rest = c.rest := by
  rw [skipGap_of_noise (Pattern.split?_noise_of_notMem h)]

/-- The noise at the front of a text is what stands before the first place without noise. -/
theorem skipGap_start (s : Text) :
    ∃ w, s = w ++ (start s 0).skipGap.rest ∧ Text.size w = skipNoise s 0 ∧
      (start s 0).skipGap.pos = skipNoise s 0 := by
  obtain ⟨⟨w, r⟩, h⟩ : ∃ x, Pattern.noise.split? s = some x := ⟨_, rfl⟩
  have hn : skipNoise s 0 = Text.size w := by
    have h0 := Text.dropBytes?_size_append [] s
    rw [Text.size_nil, List.nil_append] at h0
    rw [skipNoise, h0, Option.bind_some, Pattern.width?, h, Option.map_some, Option.getD_some,
      Nat.zero_add]
  rw [skipGap_of_noise (c := start s 0) h, hn]
  exact ⟨w, Pattern.split?_eq_append h, rfl, Nat.zero_add _⟩

end Cursor

end FreeForm
