import FreeForm.Proofs.Derivation
import FreeForm.Proofs.NoiseForm

/-!
# Trimming the end of a node

The end of a node may be found by going over the text behind its last child: noise is passed
wherever it stands, and the node ends behind the last character that is none (`trimTrailing`).  This
has the same states as a run: what is left, the place, and the end of the last character that is no
noise (`Cursor.trim`).

A run keeps the end of its last lexeme apart from the place it has reached, and between the two
stands only noise (`Derives.endsAt`).
-/

namespace FreeForm

/-- The end of the last character in front of the offset `e` that is no noise. -/
def Cursor.trim (e : Nat) (c : Cursor) : Nat :=
  match _h : c.skipGap.rest with
  | [] => c.stop
  | x :: s =>
    let pos := c.skipGap.pos
    if e ≤ pos then c.stop else trim e ⟨s, pos + x.utf8Size, pos + x.utf8Size⟩
termination_by c.rest.length
decreasing_by
  have := c.length_skipGap_le
  rw [_h, List.length_cons] at this
  exact this

/-- The offset `stop` pulled back over noise, but not behind `start`. -/
def trimTrailing (s : Text) (start stop : Nat) : Nat :=
  ((s.dropBytes? start).map fun r => (Cursor.start r start).trim stop).getD start

namespace Cursor

variable {c d g : Cursor} {e : Nat}

theorem stop_skipGap (c : Cursor) : c.skipGap.stop = c.stop := by
  obtain ⟨-, -, -, h⟩ := passes_skipGap c
  exact h

theorem trim_of_nil (h : c.skipGap.rest = []) : c.trim e = c.stop := by
  rw [trim]
  split
  · rfl
  · rename_i hx
    rw [h] at hx
    simp at hx

theorem trim_of_cons {x : Char} {s : Text} (h : c.skipGap.rest = x :: s) :
    c.trim e = if e ≤ c.skipGap.pos then c.stop else
      trim e ⟨s, c.skipGap.pos + x.utf8Size, c.skipGap.pos + x.utf8Size⟩ := by
  rw [trim]
  split
  · rename_i hx
    rw [h] at hx
    simp at hx
  · rename_i hx
    rw [h] at hx
    obtain ⟨rfl, rfl⟩ := List.cons.inj hx
    rfl

/-- Passing noise first makes no difference. -/
theorem trim_skipGap (e : Nat) (c : Cursor) : c.skipGap.trim e = c.trim e := by
  have hss := c.skipGap_skipGap
  cases h : c.skipGap.rest with
  | nil => rw [trim_of_nil h, trim_of_nil (by rw [hss]; exact h), stop_skipGap]
  | cons x s => rw [trim_of_cons h, trim_of_cons (by rw [hss]; exact h), hss, stop_skipGap]

/-- A place at the end or behind it is where going over the text ends. -/
theorem trim_of_le (h : e ≤ c.pos) : c.trim e = c.stop := by
  obtain ⟨w, -, hw, -⟩ := passes_skipGap c
  cases hs : c.skipGap.rest with
  | nil => exact trim_of_nil hs
  | cons x s => rw [trim_of_cons hs, if_pos (by rw [hw.pos]; omega)]

theorem trim_of_le_skipGap (h : e ≤ c.skipGap.pos) : c.trim e = c.stop := by
  rw [← trim_skipGap, trim_of_le h, stop_skipGap]

/-- Characters that begin no noise are passed one by one. -/
theorem trim_append {w r : Text} {n k : Nat} (hw : w ≠ []) (hm : ∀ x ∈ w, x ∉ Pattern.noiseMarks)
    (he : n + Text.size w ≤ e) :
    trim e ⟨w ++ r, n, k⟩ = trim e ⟨r, n + Text.size w, n + Text.size w⟩ := by
  induction w generalizing n k with
  | nil => exact absurd rfl hw
  | cons x w ih =>
    have hx : x ∉ Pattern.noiseMarks := hm x List.mem_cons_self
    have hno : Pattern.noise.split? (x :: (w ++ r)) = some ([], x :: (w ++ r)) :=
      Pattern.split?_noise_of_notMem (by simpa using hx)
    have hgap : skipGap ⟨x :: (w ++ r), n, k⟩ = ⟨x :: (w ++ r), n, k⟩ :=
      skipGap_of_noise (c := ⟨x :: (w ++ r), n, k⟩) hno
    have hpos := x.utf8Size_pos
    rw [Text.size_cons] at he
    rw [List.cons_append, trim_of_cons (by rw [hgap]), hgap, if_neg (by simp only; omega)]
    dsimp only
    cases w with
    | nil => simp
    | cons y w =>
      rw [ih (by simp) (fun z hz => hm z (List.mem_cons_of_mem x hz)) (by omega), Text.size_cons x,
        Nat.add_assoc]

/-- Only what stands behind the noise matters. -/
theorem trim_congr (h : c.skipGap = d.skipGap) (e : Nat) : c.trim e = d.trim e := by
  rw [← trim_skipGap e c, h, trim_skipGap]

/-! ## Places in a whole text -/

/-- The text from `c` on is the rest of `s`. -/
def At (s : Text) (c : Cursor) : Prop := ∃ u, s = u ++ c.rest ∧ c.pos = Text.size u

theorem At.passes {s w : Text} (h : c.At s) (k : c.Passes w d) : d.At s := by
  obtain ⟨u, rfl, hu⟩ := h
  exact ⟨u ++ w, by rw [k.rest, List.append_assoc], by rw [k.pos, hu, Text.size_append]⟩

theorem At.append {s : Text} (h : c.At s) (v : Text) :
    At (s ++ v) ⟨c.rest ++ v, c.pos, c.stop⟩ := by
  obtain ⟨u, rfl, hu⟩ := h
  exact ⟨u, List.append_assoc .., hu⟩

theorem At.dropBytes? {s : Text} (h : c.At s) : s.dropBytes? c.pos = some c.rest := by
  obtain ⟨u, rfl, hu⟩ := h
  rw [hu, Text.dropBytes?_size_append]

theorem At.skipNoise {s : Text} (h : c.At s) : skipNoise s c.pos = c.skipGap.pos := by
  obtain ⟨⟨w, r⟩, hw⟩ : ∃ x, Pattern.noise.split? c.rest = some x := ⟨_, rfl⟩
  rw [skipGap_of_noise hw, FreeForm.skipNoise, h.dropBytes?, Option.bind_some, Pattern.width?, hw]
  rfl

/-- The last lexeme in front of `c` ends at `f`, and from there on stands only noise. -/
structure EndsAt (s : Text) (c f : Cursor) : Prop where
  place : f.At s
  stop_eq : f.stop = f.pos
  le : f.pos ≤ c.pos
  gap : f.skipGap = c.skipGap

theorem EndsAt.stop {s : Text} {f : Cursor} (h : c.EndsAt s f) : f.stop = c.stop := by
  rw [← stop_skipGap, h.gap, stop_skipGap]

theorem EndsAt.skip {s : Text} {f : Cursor} {skip : Cursor → Cursor} (h : c.EndsAt s f)
    (hs : Spacing skip) : (skip c).EndsAt s f := by
  cases hs with
  | compact => exact h
  | spaced =>
    obtain ⟨w, -, hw, -⟩ := passes_skipGap c
    have hle := h.le
    exact ⟨h.place, h.stop_eq, by rw [hw.pos]; omega, by rw [skipGap_skipGap, h.gap]⟩

theorem EndsAt.skipNoise_stop {s : Text} {f : Cursor} (h : c.EndsAt s f) :
    skipNoise s c.stop = c.skipGap.pos := by
  rw [← h.stop, h.stop_eq, h.place.skipNoise, h.gap]

/-- The place that a run has reached is never past the noise behind its last lexeme. -/
theorem EndsAt.pos_le_skipNoise {s : Text} {f : Cursor} (h : c.EndsAt s f) :
    c.pos ≤ skipNoise s c.stop := by
  obtain ⟨w, -, hw, -⟩ := passes_skipGap c
  rw [h.skipNoise_stop, hw.pos]
  exact Nat.le_add_right ..

theorem endsAt_start (s : Text) : (start s 0).At s ∧ ∃ f, (start s 0).EndsAt s f := by
  have hat : (start s 0).At s := ⟨[], rfl, rfl⟩
  exact ⟨hat, _, hat, rfl, Nat.le_refl _, rfl⟩

theorem invariant_endsAt (s : Text) :
    Invariant (fun _ => True) fun c => c.At s ∧ ∃ f, c.EndsAt s f where
  token _ hc h := by
    obtain ⟨w, -, hw, hstop⟩ := passes_of_token? h
    exact ⟨hc.1.passes hw, _, hc.1.passes hw, hstop, Nat.le_refl _, rfl⟩
  gap {c} hc := by
    obtain ⟨hc, f, hf⟩ := hc
    obtain ⟨w, -, hw, -⟩ := passes_skipGap c
    exact ⟨hc.passes hw, f, hf.skip .spaced⟩

end Cursor

/-- Behind the last lexeme of a derivation stands only noise. -/
theorem Derives.endsAt {skip : Cursor → Cursor} {a : Phrase} {s : Text} {c d : Cursor}
    {ts : List Tree} (h : Derives skip a c ts d) (hs : Spacing skip) (hc : c.At s)
    (hf : ∃ f, c.EndsAt s f) : d.At s ∧ ∃ f, d.EndsAt s f :=
  (h.grownFrom (Cursor.invariant_endsAt s) (fun _ _ _ => trivial) hs (fun _ _ => trivial)
    ⟨hc, hf⟩).1

example : trimTrailing "f(x) ! call".toList 3 11 = 4 := by decide +kernel

end FreeForm
