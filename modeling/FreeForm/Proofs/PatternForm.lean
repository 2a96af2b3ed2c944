import FreeForm.Reading.Depth

/-!
# The form of what a pattern cuts off

A pattern may rule out texts by their first character (`Pattern.rejects`) and never cut off certain
characters (`Pattern.isFreeOf`), and two patterns may rule each other out (`Pattern.Apart`).  What a
run, a literal, a word or a quotation cuts off is known, and a repetition goes on round by round
(`split?_many_of_some`, `many_induction`).
-/

namespace FreeForm

/-- The characters with a property at the front of a text are determined by the text. -/
theorem Text.takeWhile_eq_and_dropWhile_eq {p : Char → Bool} {s t : Text} (hs : ∀ c ∈ s, p c)
    (ht : ∀ c ∈ t.head?, ¬p c) : (s ++ t).takeWhile p = s ∧ (s ++ t).dropWhile p = t := by
  rw [List.takeWhile_append_of_pos hs, List.dropWhile_append_of_pos hs]
  cases t with
  | nil => simp
  | cons c t =>
    have hc : ¬p c := ht c rfl
    rw [List.takeWhile_cons_of_neg hc, List.dropWhile_cons_of_neg hc, List.append_nil]
    exact ⟨rfl, rfl⟩

namespace Pattern

theorem split?_seq_eq_some {a b : Pattern} {s w v : Text} :
    (seq a b).split? s = some (w, v) ↔
      ∃ t r u, a.split? s = some (t, r) ∧ b.split? r = some (u, v) ∧ w = t ++ u := by
  simp only [split?, Option.bind_eq_some_iff, Option.map_eq_some_iff, Prod.mk.injEq, Prod.exists]
  constructor
  · rintro ⟨t, r, ht, u, _, hu, rfl, rfl⟩
    exact ⟨t, r, u, ht, hu, rfl⟩
  · rintro ⟨t, r, u, ht, hu, rfl⟩
    exact ⟨t, r, ht, u, v, hu, rfl, rfl⟩

theorem split?_alt_eq_some {a b : Pattern} {s : Text} {x : Text × Text} :
    (alt a b).split? s = some x ↔
      a.split? s = some x ∨ a.split? s = none ∧ b.split? s = some x :=
  Option.or_eq_some_iff

theorem split?_one_eq_some {k : CharClass} {s w v : Text} :
    (one k).split? s = some (w, v) ↔ ∃ c, k.holds c ∧ w = [c] ∧ s = c :: v := by
  cases s with
  | nil => simp [split?]
  | cons c s =>
    simp only [split?, Option.ite_none_right_eq_some, Option.some.injEq, Prod.mk.injEq,
      List.cons.injEq]
    constructor
    · rintro ⟨hc, rfl, rfl⟩
      exact ⟨c, hc, rfl, rfl, rfl⟩
    · rintro ⟨_, hc, rfl, rfl, rfl⟩
      exact ⟨hc, rfl, rfl⟩

theorem split?_avoid_eq_some {a : Pattern} {s w v : Text} :
    (avoid a).split? s = some (w, v) ↔ a.split? s = none ∧ w = [] ∧ v = s := by
  simp only [split?, Option.ite_none_left_eq_some, Option.some.injEq, Prod.mk.injEq,
    Option.not_isSome_iff_eq_none, eq_comm (a := ([] : Text)), eq_comm (a := s)]

/-! ## First characters -/

/-- Whether a pattern applies to no text that begins with the character `c`. -/
def rejects (c : Char) : Pattern → Bool
  | one k => !k.holds c
  | run _ => false
  | lit w => w.head?.any (c ≠ ·)
  | word w => w.head?.any fun d => c.toLower ≠ d.toLower
  | seq a _ => a.rejects c
  | alt a b => a.rejects c && b.rejects c
  | many _ => false
  | avoid _ => false

theorem splitWord?_eq_none (fold : Char → Char) {c : Char} {w : Text}
    (h : w.head?.any fun d => fold c ≠ fold d) (s : Text) : splitWord? fold w (c :: s) = none := by
  cases w with
  | nil => simp at h
  | cons d w => rw [splitWord?, if_neg (by simpa using h)]

theorem split?_eq_none_of_rejects {p : Pattern} {c : Char} (h : p.rejects c) (s : Text) :
    p.split? (c :: s) = none := by
  induction p with
  | one k => simpa [rejects, split?] using h
  | run k => simp [rejects] at h
  | lit w => exact splitWord?_eq_none id h s
  | word w => exact splitWord?_eq_none Char.toLower h s
  | seq a b iha _ => rw [split?, iha h, Option.bind_none]
  | alt a b iha ihb =>
    simp only [rejects, Bool.and_eq_true] at h
    rw [split?, iha h.1, ihb h.2, Option.or_none]
  | many a => simp [rejects] at h
  | avoid a => simp [rejects] at h

/-! ## Words and quotations -/

/-- What is cut off is the word up to `fold`. -/
theorem map_of_splitWord? {fold : Char → Char} {w s t r : Text}
    (h : splitWord? fold w s = some (t, r)) : t.map fold = w.map fold := by
  induction w generalizing s t with
  | nil => simp_all [splitWord?]
  | cons d w ih =>
    cases s with
    | nil => simp [splitWord?] at h
    | cons c s =>
      rw [splitWord?] at h
      split at h
      · rename_i hcd
        simp only [Option.map_eq_some_iff, Prod.mk.injEq] at h
        obtain ⟨x, hx, rfl, rfl⟩ := h
        rw [List.map_cons, List.map_cons, hcd, ih hx]
      · simp at h

theorem eq_of_split?_lit {w s t r : Text} (h : (lit w).split? s = some (t, r)) : t = w := by
  simpa using map_of_splitWord? h

/-- What equals the word up to `fold` is cut off as this word. -/
theorem splitWord?_of_map {fold : Char → Char} {v w : Text} (h : v.map fold = w.map fold)
    (s : Text) : splitWord? fold w (v ++ s) = some (v, s) := by
  induction w generalizing v with
  | nil =>
    obtain rfl : v = [] := List.map_eq_nil_iff.mp h
    rfl
  | cons d w ih =>
    obtain ⟨c, v, rfl, hcd, hvw⟩ := List.map_eq_cons_iff.mp h
    rw [List.cons_append, splitWord?, if_pos hcd, ih hvw, Option.map_some]

theorem split?_lit_self (w u : Text) : (lit w).split? (w ++ u) = some (w, u) :=
  splitWord?_of_map rfl u

theorem split?_word_self (w u : Text) : (word w).split? (w ++ u) = some (w, u) :=
  splitWord?_of_map rfl u

/-- A word that is spelled at the front of a text is a prefix of it, up to case. -/
theorem isPrefix_of_splitWord? {fold : Char → Char} {w s : Text}
    (h : (splitWord? fold w s).isSome) : w.map fold <+: s.map fold := by
  obtain ⟨⟨t, r⟩, ht⟩ := Option.isSome_iff_exists.mp h
  rw [splitWord?_eq_append ht, List.map_append, map_of_splitWord? ht]
  exact List.prefix_append ..

/-- A quoted stretch is a quote, characters other than the quote, and the quote again. -/
theorem split?_quotedWith {q : Char} {s t r : Text} (h : (quotedWith q).split? s = some (t, r)) :
    ∃ b, t = q :: (b ++ [q]) ∧ q ∉ b := by
  simp only [quotedWith, all, List.foldr_cons, List.foldr_nil, split?, splitWord?,
    Option.bind_eq_some_iff, Option.map_eq_some_iff, Option.some.injEq, Prod.mk.injEq] at h
  obtain ⟨x, hx, y, ⟨z, hz, v, ⟨w, hw, u, rfl, rfl⟩, rfl⟩, rfl, rfl⟩ := h
  rw [eq_of_split?_lit hx, ← hz, eq_of_split?_lit hw]
  refine ⟨x.2.takeWhile (CharClass.noneOf [q]).holds, by simp, fun hq => ?_⟩
  have hall := List.all_eq_true.mp (List.all_takeWhile (p := (CharClass.noneOf [q]).holds)) q hq
  simp [CharClass.holds] at hall

/-! ## Repetition -/

theorem length_lt_of_consumes {p : Pattern} (hp : p.consumes) {s t r : Text}
    (h : p.split? s = some (t, r)) : r.length < s.length := by
  have ht : 0 < t.length := List.length_pos_iff.mpr (ne_nil_of_consumes hp h)
  rw [split?_eq_append h, List.length_append]
  omega

theorem split?_nil_of_consumes {p : Pattern} (hp : p.consumes) : p.split? [] = none := by
  cases h : p.split? [] with
  | none => rfl
  | some x => exact absurd (length_lt_of_consumes hp h) (Nat.not_lt_zero _)

theorem forall_mem_splitRounds {cut? : Text → Option (Text × Text)} {P : Char → Prop}
    (h : ∀ s t r, cut? s = some (t, r) → ∀ c ∈ t, P c) (n : Nat) (s : Text) :
    ∀ c ∈ (splitRounds cut? n s).1, P c := by
  induction n generalizing s with
  | zero => simp [splitRounds]
  | succ n ih =>
    rw [splitRounds]
    cases hx : cut? s with
    | none => simp
    | some x =>
      intro c hc
      rcases List.mem_append.mp hc with hc | hc
      · exact h s _ _ hx c hc
      · exact ih _ c hc

/-- Any bound on the number of rounds serves that is not below the number of characters. -/
theorem splitRounds_congr {a : Pattern} (ha : a.consumes) (m n : Nat) {s : Text}
    (hm : s.length ≤ m) (hn : s.length ≤ n) :
    splitRounds a.split? m s = splitRounds a.split? n s := by
  induction m generalizing n s with
  | zero =>
    obtain rfl := List.length_eq_zero_iff.mp (Nat.le_zero.mp hm)
    cases n with
    | zero => rfl
    | succ n => rw [splitRounds, splitRounds, split?_nil_of_consumes ha]
  | succ m ih =>
    cases n with
    | zero =>
      obtain rfl := List.length_eq_zero_iff.mp (Nat.le_zero.mp hn)
      rw [splitRounds, splitRounds, split?_nil_of_consumes ha]
    | succ n =>
      rw [splitRounds, splitRounds]
      cases hx : a.split? s with
      | none => rfl
      | some x =>
        have hlt := length_lt_of_consumes ha hx
        dsimp only
        rw [ih n (by omega) (by omega)]

/-- A repetition is over where the pattern does not apply. -/
theorem split?_many_of_none {a : Pattern} {s : Text} (h : a.split? s = none) :
    (many a).split? s = some ([], s) := by
  rw [split?]
  cases s with
  | nil => rfl
  | cons c s => rw [List.length_cons, splitRounds, h]

/-- A repetition goes on behind its first round. -/
theorem split?_many_of_some {a : Pattern} (ha : a.consumes) {s t r u v : Text}
    (h : a.split? s = some (t, r)) (hr : (many a).split? r = some (u, v)) :
    (many a).split? s = some (t ++ u, v) := by
  have hlt := length_lt_of_consumes ha h
  obtain ⟨n, hn⟩ := Nat.exists_eq_add_of_lt hlt
  rw [split?, Option.some.injEq] at hr ⊢
  rw [hn, splitRounds, h]
  dsimp only
  rw [splitRounds_congr ha _ _ (Nat.le_add_right ..) (Nat.le_refl _), hr]

/-- What passes from behind the first round of a repetition to its front holds of all of it. -/
theorem many_induction {a : Pattern} (ha : a.consumes) {P : Text → Text → Text → Prop}
    (last : ∀ s, a.split? s = none → P s [] s)
    (round : ∀ s t r u v, a.split? s = some (t, r) → (many a).split? r = some (u, v) →
      P r u v → P s (t ++ u) v) {s u v : Text}
    (h : (many a).split? s = some (u, v)) : P s u v := by
  induction hn : s.length using Nat.strongRecOn generalizing s u v with
  | ind n ih =>
    cases hx : a.split? s with
    | none =>
      rw [split?_many_of_none hx] at h
      simp only [Option.some.injEq, Prod.mk.injEq] at h
      rw [← h.1, ← h.2]
      exact last s hx
    | some x =>
      obtain ⟨y, hy⟩ : ∃ y, (many a).split? x.2 = some y := ⟨_, rfl⟩
      rw [split?_many_of_some ha hx hy] at h
      simp only [Option.some.injEq, Prod.mk.injEq] at h
      rw [← h.1, ← h.2]
      exact round s _ _ _ _ hx hy (ih _ (hn ▸ length_lt_of_consumes ha hx) hy rfl)

/-- A repetition leaves nothing behind that it could go on with. -/
theorem split?_eq_none_of_many {a : Pattern} (ha : a.consumes) {s u v : Text}
    (h : (many a).split? s = some (u, v)) : a.split? v = none :=
  many_induction (P := fun _ _ v => a.split? v = none) ha (fun _ h => h)
    (fun _ _ _ _ _ _ _ h => h) h

theorem splitRounds_one (k : CharClass) (n : Nat) {s : Text} (h : s.length ≤ n) :
    splitRounds (one k).split? n s = (s.takeWhile k.holds, s.dropWhile k.holds) := by
  induction n generalizing s with
  | zero =>
    obtain rfl := List.length_eq_zero_iff.mp (Nat.le_zero.mp h)
    rfl
  | succ n ih =>
    cases s with
    | nil => rfl
    | cons c s =>
      have hs := ih (s := s) (Nat.le_of_succ_le_succ h)
      have hone : (one k).split? (c :: s) = if k.holds c then some ([c], s) else none := rfl
      rw [splitRounds, hone]
      by_cases hc : k.holds c
      · simp [hc, hs]
      · simp [hc]

/-- One character of a class as often as possible is a run of the class. -/
theorem split?_many_one (k : CharClass) (s : Text) :
    (many (one k)).split? s = (run k).split? s := by
  rw [split?, split?, splitRounds_one k _ (Nat.le_refl _)]

/-! ## Characters that a pattern leaves out -/

/-- Whether a pattern cuts off none of the characters `cs`. -/
def isFreeOf (cs : List Char) : Pattern → Bool
  | one k | run k => cs.all fun c => !k.holds c
  | lit w => w.all fun c => !cs.contains c
  | word w => cs.all fun c => !(w.map Char.toLower).contains c.toLower
  | seq a b | alt a b => a.isFreeOf cs && b.isFreeOf cs
  | many a => a.isFreeOf cs
  | avoid _ => true

theorem holds_of_run {k : CharClass} {s w r : Text} (h : (run k).split? s = some (w, r)) :
    ∀ c ∈ w, k.holds c := by
  simp only [split?, Option.some.injEq, Prod.mk.injEq] at h
  rw [← h.1]
  exact fun c hc => List.all_eq_true.mp List.all_takeWhile c hc

theorem not_holds_of_run {k : CharClass} {s w r : Text} (h : (run k).split? s = some (w, r)) :
    ∀ x ∈ r.head?, ¬k.holds x := by
  simp only [split?, Option.some.injEq, Prod.mk.injEq] at h
  intro x hx
  have hd := List.head?_dropWhile_not k.holds s
  rw [h.2, hx] at hd
  simp [hd]

theorem split?_run_eq_some {k : CharClass} {s w r : Text} : (run k).split? s = some (w, r) ↔
    s = w ++ r ∧ (∀ c ∈ w, k.holds c) ∧ ∀ x ∈ r.head?, ¬k.holds x := by
  constructor
  · exact fun h => ⟨split?_eq_append h, holds_of_run h, not_holds_of_run h⟩
  · rintro ⟨rfl, hw, hr⟩
    obtain ⟨htake, hdrop⟩ := Text.takeWhile_eq_and_dropWhile_eq hw hr
    rw [split?, htake, hdrop]

theorem notMem_of_holds {k : CharClass} {cs : List Char} (hk : cs.all fun c => !k.holds c)
    {c : Char} (hc : k.holds c) : c ∉ cs := by
  intro hm
  have := List.all_eq_true.mp hk c hm
  simp [hc] at this

theorem notMem_of_isFreeOf {cs : List Char} {p : Pattern} {s w r : Text} (hp : p.isFreeOf cs)
    (h : p.split? s = some (w, r)) : ∀ c ∈ w, c ∉ cs := by
  induction p generalizing s w r with
  | one k =>
    obtain ⟨x, hx, rfl, -⟩ := split?_one_eq_some.mp h
    exact List.forall_mem_singleton.mpr (notMem_of_holds hp hx)
  | run k => exact fun c hc => notMem_of_holds hp (holds_of_run h c hc)
  | lit v =>
    rw [eq_of_split?_lit h]
    intro c hc hm
    have := List.all_eq_true.mp hp c hc
    simp [hm] at this
  | word v =>
    intro c hc hm
    have hmap : c.toLower ∈ v.map Char.toLower := by
      rw [← map_of_splitWord? h]
      exact List.mem_map_of_mem hc
    have := List.all_eq_true.mp hp c hm
    simp only [List.contains_iff_mem.mpr hmap, Bool.not_true, Bool.false_eq_true] at this
  | seq a b iha ihb =>
    simp only [isFreeOf, Bool.and_eq_true] at hp
    obtain ⟨t, x, u, ht, hu, rfl⟩ := split?_seq_eq_some.mp h
    intro c hc
    rcases List.mem_append.mp hc with hc | hc
    · exact iha hp.1 ht c hc
    · exact ihb hp.2 hu c hc
  | alt a b iha ihb =>
    simp only [isFreeOf, Bool.and_eq_true] at hp
    rcases split?_alt_eq_some.mp h with h | ⟨-, h⟩
    · exact iha hp.1 h
    · exact ihb hp.2 h
  | many a ih =>
    simp only [split?, Option.some.injEq] at h
    have hround : ∀ s t r, a.split? s = some (t, r) → ∀ c ∈ t, c ∉ cs := fun _ _ _ => ih hp
    have hall := forall_mem_splitRounds hround s.length s
    rwa [h] at hall
  | avoid a =>
    obtain ⟨-, rfl, -⟩ := split?_avoid_eq_some.mp h
    simp

/-! ## Patterns that exclude each other -/

/-- No text begins with both. -/
def Apart (p q : Pattern) : Prop := ∀ s, (p.split? s).isSome → q.split? s = none

theorem apart_oneOf {cs : List Char} {q : Pattern} (h : cs.all fun x => q.rejects x) :
    (one (.oneOf cs)).Apart q := by
  intro s hs
  cases s with
  | nil => simp [split?] at hs
  | cons x s =>
    have hx : x ∈ cs := by simpa [split?, CharClass.holds] using hs
    exact split?_eq_none_of_rejects (List.all_eq_true.mp h x hx) s

theorem apart_lit {p : Pattern} {x : Char} (h : p.rejects x) (w : Text) :
    p.Apart (lit (x :: w)) := by
  intro s hs
  cases s with
  | nil => rfl
  | cons y s =>
    rw [split?, splitWord?]
    split
    · rename_i hyx
      have hyx' : y = x := hyx
      rw [hyx', split?_eq_none_of_rejects h] at hs
      simp at hs
    · rfl

theorem apart_word {v w : Text} (hvw : ¬v.map Char.toLower <+: w.map Char.toLower)
    (hwv : ¬w.map Char.toLower <+: v.map Char.toLower) : (word v).Apart (word w) := by
  intro s hs
  cases hw : (word w).split? s with
  | none => rfl
  | some x =>
    have hv : v.map Char.toLower <+: s.map Char.toLower := isPrefix_of_splitWord? hs
    have hw' : w.map Char.toLower <+: s.map Char.toLower :=
      isPrefix_of_splitWord? (Option.isSome_of_eq_some hw)
    rcases List.prefix_or_prefix_of_prefix hv hw' with h | h
    · exact absurd h hvw
    · exact absurd h hwv

theorem Apart.alt {p q r : Pattern} (hq : p.Apart q) (hr : p.Apart r) : p.Apart (.alt q r) := by
  intro s hs
  rw [split?, hq s hs, hr s hs, Option.or_none]

end Pattern

end FreeForm
