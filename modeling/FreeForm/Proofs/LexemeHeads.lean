import FreeForm.Proofs.PatternForm

/-!
# The heads of lexemes

The characters with which a lexeme begins are described by a few lists of character classes, its
heads.  Two patterns exclude each other if every two of their heads clash
(`Pattern.apart_of_clashes`), which is decided by computation.  Where one spelling is the beginning
of another, as in `*` and `**`, what is left of the longer one stands behind the shorter one
(`Pattern.exists_tail`).
-/

namespace FreeForm

namespace CharClass

/-- Whether it is seen at once that no character is in both classes. -/
def disjoint : CharClass → CharClass → Bool
  | oneOf cs, k => cs.all fun c => !k.holds c
  | k, oneOf cs => cs.all fun c => !k.holds c
  | digit, letter => true
  | letter, digit => true
  | _, _ => false

theorem val_of_isAlpha {c : Char} (h : c.isAlpha) :
    ('A'.val ≤ c.val ∧ c.val ≤ 'Z'.val) ∨ ('a'.val ≤ c.val ∧ c.val ≤ 'z'.val) := by
  rcases Bool.or_eq_true_iff.mp h with h | h
  · exact .inl (of_decide_eq_true h)
  · exact .inr ((Bool.and_eq_true_iff.mp h).imp of_decide_eq_true of_decide_eq_true)

theorem not_isDigit_of_isAlpha {c : Char} (h : c.isAlpha) : c.isDigit = false := by
  have hval := val_of_isAlpha h
  simp only [Char.isDigit, Bool.and_eq_false_iff, decide_eq_false_iff_not]
  grind

theorem not_holds_of_all {cs : List Char} {k : CharClass} (h : cs.all fun c => !k.holds c)
    {c : Char} (hc : c ∈ cs) : ¬k.holds c := by
  have := List.all_eq_true.mp h c hc
  simpa using this

theorem not_holds_of_disjoint {k l : CharClass} (h : k.disjoint l) {c : Char} (hk : k.holds c) :
    ¬l.holds c := by
  unfold disjoint at h
  split at h
  · exact not_holds_of_all h (List.contains_iff_mem.mp hk)
  · exact fun hl => not_holds_of_all h (List.contains_iff_mem.mp hl) hk
  · intro hl
    have : c.isDigit = false := not_isDigit_of_isAlpha hl
    exact absurd (this.symm.trans hk) Bool.false_ne_true
  · intro hl
    have : c.isDigit = false := not_isDigit_of_isAlpha hk
    exact absurd (this.symm.trans hl) Bool.false_ne_true
  · exact absurd h Bool.false_ne_true

/-- A letter in either case. -/
def anyCase (c : Char) : CharClass := .oneOf [c.toLower, c.toLower.toUpper]

theorem eq_of_toLower (c : Char) : c = c.toLower ∨ c = c.toLower.toUpper := by
  unfold Char.toLower
  split
  · rename_i h
    right
    apply Char.ext
    unfold Char.toUpper
    split
    · have h0 : 'a'.val - 'A'.val + ('A'.val - 'a'.val) = 0 := by decide
      simp only [UInt32.add_assoc, h0, UInt32.add_zero]
    · rename_i hn
      simp only [UInt32.le_iff_toNat_le, UInt32.toNat_add, ge_iff_le] at h hn
      have : ('a'.val - 'A'.val).toNat = 32 := by decide
      have : 'A'.val.toNat = 65 := by decide
      have : 'Z'.val.toNat = 90 := by decide
      have : 'a'.val.toNat = 97 := by decide
      have : 'z'.val.toNat = 122 := by decide
      omega
  · exact .inl rfl

theorem anyCase_holds {c d : Char} (h : c.toLower = d.toLower) : (anyCase d).holds c := by
  rcases eq_of_toLower c with hc | hc <;> rw [anyCase, ← h, holds, List.contains_iff_mem, ← hc]
  · exact List.mem_cons_self
  · exact List.mem_cons_of_mem _ List.mem_cons_self

end CharClass

namespace Pattern

/-! ## Heads -/

/-- Whether a text begins with characters of these classes, one by one. -/
def fits : List CharClass → Text → Bool
  | [], _ => true
  | _ :: _, [] => false
  | k :: h, c :: s => k.holds c && fits h s

/-- The beginnings of what a pattern cuts off, as far as they are fixed. -/
def heads : Pattern → List (List CharClass)
  | one k => [[k]]
  | lit w => [w.map fun c => .oneOf [c]]
  | word w => [w.map .anyCase]
  | seq a _ => a.heads
  | alt a b => a.heads ++ b.heads
  | run _ | many _ | avoid _ => [[]]

theorem fits_nil (s : Text) : fits [] s := by cases s <;> rfl

theorem fits_of_splitWord? {fold : Char → Char} {k : Char → CharClass}
    (hk : ∀ c d, fold c = fold d → (k d).holds c) {w s : Text}
    (h : (splitWord? fold w s).isSome) : fits (w.map k) s := by
  induction w generalizing s with
  | nil => exact fits_nil s
  | cons d w ih =>
    cases s with
    | nil => simp [splitWord?] at h
    | cons c s =>
      rw [splitWord?] at h
      split at h
      · rename_i hcd
        rw [Option.isSome_map] at h
        rw [List.map_cons, fits, Bool.and_eq_true]
        exact ⟨hk c d hcd, ih h⟩
      · simp at h

/-- What a pattern applies to begins with one of its heads. -/
theorem exists_head {p : Pattern} {s : Text} (h : (p.split? s).isSome) :
    ∃ k ∈ p.heads, fits k s := by
  induction p with
  | one k =>
    refine ⟨[k], List.mem_singleton_self _, ?_⟩
    cases s with
    | nil => simp [split?] at h
    | cons c s => simpa [split?, fits, fits_nil] using h
  | run k => exact ⟨[], List.mem_singleton_self _, fits_nil s⟩
  | lit w =>
    refine ⟨_, List.mem_singleton_self _, fits_of_splitWord? (fun c d hcd => ?_) h⟩
    exact List.contains_iff_mem.mpr (List.mem_singleton.mpr hcd)
  | word w =>
    exact ⟨_, List.mem_singleton_self _, fits_of_splitWord? (fun _ _ => CharClass.anyCase_holds) h⟩
  | seq a b iha _ =>
    refine iha ?_
    rw [split?] at h
    cases ha : a.split? s with
    | none => simp [ha] at h
    | some x => rfl
  | alt a b iha ihb =>
    rw [split?, Option.isSome_or, Bool.or_eq_true] at h
    rcases h with h | h
    · obtain ⟨k, hk, hs⟩ := iha h
      exact ⟨k, List.mem_append_left _ hk, hs⟩
    · obtain ⟨k, hk, hs⟩ := ihb h
      exact ⟨k, List.mem_append_right _ hk, hs⟩
  | many a => exact ⟨[], List.mem_singleton_self _, fits_nil s⟩
  | avoid a => exact ⟨[], List.mem_singleton_self _, fits_nil s⟩

/-! ## Patterns that exclude each other -/

/-- Whether no text begins with both heads. -/
def clash : List CharClass → List CharClass → Bool
  | k :: h, l :: m => k.disjoint l || clash h m
  | _, _ => false

theorem not_fits_of_clash {h m : List CharClass} (hm : clash h m) {s : Text} (hs : fits h s) :
    ¬fits m s := by
  induction h generalizing m s with
  | nil => simp [clash] at hm
  | cons k h ih =>
    cases m with
    | nil => simp [clash] at hm
    | cons l m =>
      cases s with
      | nil => simp [fits] at hs
      | cons c s =>
        simp only [clash, Bool.or_eq_true] at hm
        simp only [fits, Bool.and_eq_true, not_and] at hs ⊢
        intro hl
        rcases hm with hm | hm
        · exact absurd hl (CharClass.not_holds_of_disjoint hm hs.1)
        · exact ih hm hs.2

/-- Whether a pattern applies to no text with this head, as its heads show. -/
def bars (h : List CharClass) (p : Pattern) : Bool := p.heads.all (clash h)

theorem split?_eq_none_of_bars {h : List CharClass} {p : Pattern} (hp : p.bars h) {s : Text}
    (hs : fits h s) : p.split? s = none := by
  cases hx : p.split? s with
  | none => rfl
  | some x =>
    obtain ⟨m, hm, hms⟩ := exists_head (Option.isSome_of_eq_some hx)
    exact absurd hms (not_fits_of_clash (List.all_eq_true.mp hp m hm) hs)

/-- Whether the heads show that no text begins with both patterns. -/
def clashes (p q : Pattern) : Bool := p.heads.all q.bars

theorem apart_of_clashes {p q : Pattern} (h : p.clashes q) : p.Apart q := by
  intro s hs
  obtain ⟨k, hk, hks⟩ := exists_head hs
  exact split?_eq_none_of_bars (List.all_eq_true.mp h k hk) hks

/-! ## Spellings that begin with each other -/

/-- Whether a pattern cuts off no more than one of its heads. -/
def isSpelling : Pattern → Bool
  | one _ | lit _ | word _ => true
  | alt a b => a.isSpelling && b.isSpelling
  | _ => false

theorem length_of_splitWord? {fold : Char → Char} {w s t r : Text}
    (h : splitWord? fold w s = some (t, r)) : t.length = w.length := by
  have := congrArg List.length (map_of_splitWord? h)
  rwa [List.length_map, List.length_map] at this

theorem fits_drop {h : List CharClass} {t r : Text} (hs : fits h (t ++ r)) :
    fits (h.drop t.length) r := by
  induction t generalizing h with
  | nil => exact hs
  | cons c t ih =>
    cases h with
    | nil => exact fits_nil r
    | cons k h =>
      simp only [List.cons_append, fits, Bool.and_eq_true] at hs
      exact ih hs.2

/-- A spelling cuts off one of its heads. -/
theorem exists_head_of_isSpelling {q : Pattern} (hq : q.isSpelling) {s t r : Text}
    (h : q.split? s = some (t, r)) : ∃ m ∈ q.heads, fits m s ∧ m.length = t.length := by
  induction q with
  | one k =>
    obtain ⟨m, hm, hms⟩ := exists_head (Option.isSome_of_eq_some h)
    refine ⟨m, hm, hms, ?_⟩
    obtain ⟨c, -, rfl, -⟩ := split?_one_eq_some.mp h
    rw [List.mem_singleton.mp hm]
    rfl
  | lit w | word w =>
    obtain ⟨m, hm, hms⟩ := exists_head (Option.isSome_of_eq_some h)
    refine ⟨m, hm, hms, ?_⟩
    rw [List.mem_singleton.mp hm, List.length_map, length_of_splitWord? h]
  | alt a b iha ihb =>
    simp only [isSpelling, Bool.and_eq_true] at hq
    rcases split?_alt_eq_some.mp h with h | ⟨-, h⟩
    · obtain ⟨m, hm, hms⟩ := iha hq.1 h
      exact ⟨m, List.mem_append_left _ hm, hms⟩
    · obtain ⟨m, hm, hms⟩ := ihb hq.2 h
      exact ⟨m, List.mem_append_right _ hm, hms⟩
  | run | seq | many | avoid => simp [isSpelling] at hq

/-- What the heads of `p` leave over behind a spelling `q`. -/
def tails (p q : Pattern) : List (List CharClass) :=
  p.heads.flatMap fun h => (q.heads.filter fun m => !clash h m).map fun m => h.drop m.length

/-- Two heads at the front of one text do not clash, and what the second leaves of the first is a
tail. -/
theorem drop_mem_tails {p q : Pattern} {k m : List CharClass} {s : Text} (hk : k ∈ p.heads)
    (hm : m ∈ q.heads) (hks : fits k s) (hms : fits m s) : k.drop m.length ∈ tails p q := by
  have hkm : clash k m = false := by
    cases hc : clash k m with
    | false => rfl
    | true => exact absurd hms (not_fits_of_clash hc hks)
  refine List.mem_flatMap.mpr ⟨k, hk, List.mem_map.mpr ⟨m, ?_, rfl⟩⟩
  exact List.mem_filter.mpr ⟨hm, by rw [hkm]; rfl⟩

/-- Where both a pattern and a spelling apply, a rest of the pattern stands behind the spelling. -/
theorem exists_tail {p q : Pattern} (hq : q.isSpelling) {s t r : Text}
    (h : q.split? s = some (t, r)) (hp : (p.split? s).isSome) : ∃ k ∈ tails p q, fits k r := by
  obtain ⟨k, hk, hks⟩ := exists_head hp
  obtain ⟨m, hm, hms, hlen⟩ := exists_head_of_isSpelling hq h
  refine ⟨k.drop m.length, drop_mem_tails hk hm hks hms, ?_⟩
  rw [hlen]
  exact fits_drop (split?_eq_append h ▸ hks)

example : tails (.lit ['*', '*']) (.lit ['*']) = [[.oneOf ['*']]] := by decide

end Pattern

end FreeForm
