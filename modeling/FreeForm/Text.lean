/-!
# Text and byte offsets

A text is the list of its characters.  Every position the library reports is a byte offset into
the UTF-8 form of a text, so a text is measured (`size`) and cut (`dropBytes?`, `takeBytes?`,
`slice?`) in bytes.  A cut exists only on a character boundary: `dropBytes?_size_append` and
`takeBytes?_size_append` give its two halves, `eq_append_of_dropBytes?` says that there is no other.
`slice?_size_append` and `eq_append_of_slice?` say the same of the text between two cuts.
-/

namespace FreeForm

/-- A text, as the list of its characters. -/
abbrev Text := List Char

namespace Text

/-- The number of bytes in the UTF-8 form. -/
def size : Text → Nat
  | [] => 0
  | c :: s => c.utf8Size + size s

@[simp] theorem size_nil : size [] = 0 := rfl

@[simp] theorem size_cons (c : Char) (s : Text) : size (c :: s) = c.utf8Size + size s := rfl

@[simp] theorem size_append (s t : Text) : size (s ++ t) = size s + size t := by
  induction s with
  | nil => simp
  | cons c s ih => simp [ih, Nat.add_assoc]

/-- A text has at least as many bytes as characters. -/
theorem length_le_size (s : Text) : s.length ≤ size s := by
  induction s with
  | nil => simp
  | cons c s ih =>
    have := c.utf8Size_pos
    simp only [List.length_cons, size_cons]
    omega

theorem eq_nil_of_size {s : Text} (h : size s = 0) : s = [] := by
  have := length_le_size s
  exact List.length_eq_zero_iff.mp (by omega)

/-- Of two beginnings of a text, the one that is not longer is the beginning of the other. -/
theorem exists_append_of_size_le {g x z w : Text} (h : g ++ z = x ++ w) (hle : size g ≤ size x) :
    ∃ y, x = g ++ y ∧ z = y ++ w := by
  rcases List.append_eq_append_iff.mp h with ⟨y, hx, hz⟩ | ⟨y, hg, hw⟩
  · exact ⟨y, hx, hz⟩
  · rw [hg, size_append] at hle
    obtain rfl : y = [] := eq_nil_of_size (by omega)
    exact ⟨[], by simpa using hg.symm, by simpa using hw.symm⟩

/-- Two splits of a text at one offset are the same. -/
theorem append_inj_of_size {g x z w : Text} (h : g ++ z = x ++ w) (hs : size g = size x) :
    g = x ∧ z = w := by
  obtain ⟨y, rfl, rfl⟩ := exists_append_of_size_le h (Nat.le_of_eq hs)
  rw [size_append] at hs
  obtain rfl : y = [] := eq_nil_of_size (by omega)
  exact ⟨(List.append_nil g).symm, rfl⟩

/-- What follows the first `n` bytes.  There is no such text if `n` is past the end or falls
inside a character. -/
def dropBytes? (n : Nat) : Text → Option Text
  | [] => if n = 0 then some [] else none
  | c :: s =>
    if n = 0 then some (c :: s)
    else if c.utf8Size ≤ n then dropBytes? (n - c.utf8Size) s
    else none

/-- The text made of the first `n` bytes, under the same condition as `dropBytes?`. -/
def takeBytes? (n : Nat) : Text → Option Text
  | [] => if n = 0 then some [] else none
  | c :: s =>
    if n = 0 then some []
    else if c.utf8Size ≤ n then (takeBytes? (n - c.utf8Size) s).map (c :: ·)
    else none

/-- The text between two byte offsets, when both are character boundaries and in order. -/
def slice? (s : Text) (start stop : Nat) : Option Text :=
  if start ≤ stop then (s.dropBytes? start).bind fun r => r.takeBytes? (stop - start) else none

theorem dropBytes?_size_append (s t : Text) : dropBytes? (size s) (s ++ t) = some t := by
  induction s with
  | nil => cases t <;> simp [dropBytes?]
  | cons c s ih =>
    have := c.utf8Size_pos
    rw [List.cons_append, dropBytes?, if_neg (by rw [size_cons]; omega),
      if_pos (by rw [size_cons]; omega), size_cons, Nat.add_sub_cancel_left, ih]

theorem takeBytes?_size_append (s t : Text) : takeBytes? (size s) (s ++ t) = some s := by
  induction s with
  | nil => cases t <;> simp [takeBytes?]
  | cons c s ih =>
    have := c.utf8Size_pos
    rw [List.cons_append, takeBytes?, if_neg (by rw [size_cons]; omega),
      if_pos (by rw [size_cons]; omega), size_cons, Nat.add_sub_cancel_left, ih, Option.map_some]

/-- A cut splits the text where it says. -/
theorem eq_append_of_dropBytes? {n : Nat} {s r : Text} (h : dropBytes? n s = some r) :
    ∃ t, s = t ++ r ∧ size t = n := by
  induction s generalizing n with
  | nil =>
    rw [dropBytes?] at h
    split at h
    · exact ⟨[], by simpa using h, by simp_all⟩
    · simp at h
  | cons c s ih =>
    rw [dropBytes?] at h
    split at h
    · exact ⟨[], by simpa using h, by simp_all⟩
    split at h
    · obtain ⟨t, ht, hn⟩ := ih h
      exact ⟨c :: t, by simp [ht], by simp only [size_cons]; omega⟩
    · simp at h

theorem eq_append_of_takeBytes? {n : Nat} {s t : Text} (h : takeBytes? n s = some t) :
    ∃ r, s = t ++ r ∧ size t = n := by
  induction s generalizing n t with
  | nil =>
    rw [takeBytes?] at h
    split at h
    · exact ⟨[], by simpa using h, by simp_all⟩
    · simp at h
  | cons c s ih =>
    rw [takeBytes?] at h
    split at h
    · exact ⟨c :: s, by simpa using h, by simp_all⟩
    split at h
    · obtain ⟨u, hu, rfl⟩ := Option.map_eq_some_iff.1 h
      obtain ⟨r, hr, hn⟩ := ih hu
      exact ⟨r, by simp [← hr], by simp only [size_cons]; omega⟩
    · simp at h

/-- A slice is a part of the text, and its place is what was asked for. -/
theorem eq_append_of_slice? {s w : Text} {start stop : Nat} (h : slice? s start stop = some w) :
    ∃ u v, s = u ++ w ++ v ∧ size u = start ∧ start + size w = stop := by
  simp only [slice?, Option.ite_none_right_eq_some, Option.bind_eq_some_iff] at h
  obtain ⟨hle, r, hr, ht⟩ := h
  obtain ⟨u, rfl, hu⟩ := eq_append_of_dropBytes? hr
  obtain ⟨v, rfl, hw⟩ := eq_append_of_takeBytes? ht
  exact ⟨u, v, by simp, hu, by omega⟩

theorem slice?_size_append (u w v : Text) :
    slice? (u ++ w ++ v) (size u) (size u + size w) = some w := by
  rw [slice?, if_pos (Nat.le_add_right ..), List.append_assoc, dropBytes?_size_append,
    Option.bind_some, Nat.add_sub_cancel_left, takeBytes?_size_append]

theorem slice?_size (s : Text) : slice? s 0 (size s) = some s := by
  simpa using slice?_size_append [] s []

end Text

end FreeForm
