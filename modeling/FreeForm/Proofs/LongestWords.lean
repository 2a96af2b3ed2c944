import FreeForm.Proofs.Assembly
import FreeForm.Proofs.LeafText
import FreeForm.Proofs.LexemeHeads

/-!
# Longest words

A pattern takes what its choices come to, and gives nothing back, so it need not cut off the longest
word of its language, or any.  It does where it is put together so that no word of a part goes on
with a character with which a word of the next part begins (`Pattern.Munches.seq`), and where the
parts of a choice begin with different characters (`Pattern.Munches.alt`).

The literal numbers are such a pattern (`Pattern.munches_numeral`).
-/

open scoped Computability

namespace FreeForm

/-- The text `s` begins with the word `w` of the language, and with no longer one. -/
structure Text.LongestIn (L : Language Char) (s w : Text) : Prop where
  mem : w ∈ L
  begins : w <+: s
  longest : ∀ v ∈ L, v <+: s → v.length ≤ w.length

namespace Pattern

/-- Where a text begins with a word of the pattern, the pattern cuts off a stretch that is no
shorter. -/
def Munches (p : Pattern) : Prop :=
  ∀ s, ∀ v ∈ p.language, v <+: s → ∃ w r, p.split? s = some (w, r) ∧ v.length ≤ w.length

variable {p q a b : Pattern} {s w r : Text}

theorem Munches.longestIn (hp : p.Munches) (h : p.split? s = some (w, r)) :
    s.LongestIn p.language w := by
  refine ⟨mem_language_of_split? h, ⟨r, (split?_eq_append h).symm⟩, fun v hv hvs => ?_⟩
  obtain ⟨w', r', hw, hle⟩ := hp s v hv hvs
  obtain ⟨rfl, -⟩ := Prod.mk.inj (Option.some.inj (h.symm.trans hw))
  exact hle

theorem Munches.isSome_iff (hp : p.Munches) :
    (p.split? s).isSome ↔ ∃ w ∈ p.language, w <+: s := by
  constructor
  · intro h
    obtain ⟨⟨w, r⟩, hw⟩ := Option.isSome_iff_exists.mp h
    exact ⟨w, mem_language_of_split? hw, ⟨r, (split?_eq_append hw).symm⟩⟩
  · rintro ⟨v, hv, hvs⟩
    obtain ⟨w, r, hw, -⟩ := hp s v hv hvs
    exact Option.isSome_of_eq_some hw

/-! ## Parts -/

theorem munches_one (k : CharClass) : (one k).Munches := by
  rintro s v ⟨c, hc, rfl⟩ ⟨z, rfl⟩
  exact ⟨[c], z, if_pos hc, Nat.le_refl _⟩

theorem munches_run (k : CharClass) : (run k).Munches := by
  rintro s v hv ⟨z, rfl⟩
  refine ⟨_, _, rfl, ?_⟩
  rw [List.takeWhile_append_of_pos hv, List.length_append]
  exact Nat.le_add_right ..

theorem munches_lit (w : Text) : (lit w).Munches := by
  rintro s v rfl ⟨z, rfl⟩
  exact ⟨v, z, split?_lit_self v z, Nat.le_refl _⟩

theorem Munches.opt (ha : a.Munches) : (opt a).Munches := by
  rintro s v (hv | rfl) hvs
  · obtain ⟨w, r, hw, hle⟩ := ha s v hv hvs
    exact ⟨w, r, split?_alt_eq_some.mpr (.inl hw), hle⟩
  · cases hx : a.split? s with
    | none => exact ⟨[], s, split?_alt_eq_some.mpr (.inr ⟨hx, rfl⟩), Nat.le_refl _⟩
    | some x => exact ⟨x.1, x.2, split?_alt_eq_some.mpr (.inl hx), Nat.zero_le _⟩

theorem Munches.alt (ha : a.Munches) (hb : b.Munches) (hab : a.Apart b) : (alt a b).Munches := by
  rintro s v (hv | hv) hvs
  · obtain ⟨w, r, hw, hle⟩ := ha s v hv hvs
    exact ⟨w, r, split?_alt_eq_some.mpr (.inl hw), hle⟩
  · obtain ⟨w, r, hw, hle⟩ := hb s v hv hvs
    cases hx : a.split? s with
    | none => exact ⟨w, r, split?_alt_eq_some.mpr (.inr ⟨hx, hw⟩), hle⟩
    | some x =>
      rw [hab s (Option.isSome_of_eq_some hx)] at hw
      exact absurd hw (by simp)

/-- A character with which a word of `a` goes on, and with which no word of `b` begins, is not given
to `b`. -/
theorem Munches.seq (ha : a.Munches) (hb : b.Munches)
    (hab : ∀ x c z, x ∈ a.language → x ++ c :: z ∈ a.language → ∀ y ∈ b.language, c ∉ y.head?) :
    (seq a b).Munches := by
  rintro s _ ⟨x, hx, y, hy, rfl⟩ ⟨z, rfl⟩
  obtain ⟨w, r, hw, hle⟩ := ha _ x hx ⟨y ++ z, (List.append_assoc ..).symm⟩
  have hs := split?_eq_append hw
  rw [List.append_assoc] at hs
  obtain ⟨g, rfl, hg⟩ : ∃ g, w = x ++ g ∧ y ++ z = g ++ r := by
    rcases List.append_eq_append_iff.mp hs with ⟨g, hwg, hg⟩ | ⟨g, rfl, hg⟩
    · exact ⟨g, hwg, hg⟩
    · obtain rfl : g = [] := by
        rw [List.length_append] at hle
        exact List.length_eq_zero_iff.mp (by omega)
      exact ⟨[], by simp, by simpa using hg.symm⟩
  cases g with
  | nil =>
    obtain ⟨u, v, hu, hyu⟩ := hb r y hy ⟨z, hg⟩
    refine ⟨_, _, split?_seq_eq_some.mpr ⟨_, _, _, hw, hu, rfl⟩, ?_⟩
    simpa using hyu
  | cons c g =>
    have hnil : y = [] := by
      cases y with
      | nil => rfl
      | cons d y =>
        obtain ⟨rfl, -⟩ := List.cons_eq_cons.mp hg
        exact absurd rfl (hab x d g hx (mem_language_of_split? hw) _ hy)
    subst hnil
    obtain ⟨u, v, hu, -⟩ := hb r [] hy List.nil_prefix
    refine ⟨_, _, split?_seq_eq_some.mpr ⟨_, _, _, hw, hu, rfl⟩, ?_⟩
    simp only [List.append_nil, List.length_append]
    omega

/-- What follows a part whose words are all of the same length. -/
theorem Munches.seq_of_length {n : Nat} (ha : a.Munches) (hb : b.Munches)
    (hn : ∀ x ∈ a.language, x.length = n) : (Pattern.seq a b).Munches := by
  refine ha.seq hb fun x c z hx hxz => ?_
  have hlen := hn _ hxz
  rw [List.length_append, hn x hx, List.length_cons] at hlen
  omega

/-- What follows a part whose words have other characters than those with which `b` begins. -/
theorem Munches.seq_of_chars {P : Char → Prop} (ha : a.Munches) (hb : b.Munches)
    (hP : ∀ x ∈ a.language, ∀ c ∈ x, P c) (hn : ∀ y ∈ b.language, ∀ c ∈ y.head?, ¬P c) :
    (Pattern.seq a b).Munches := by
  refine ha.seq hb fun x c z _ hxz y hy hc => ?_
  exact hn y hy c hc (hP _ hxz c (by simp))

theorem munches_many_one (k : CharClass) : (many (one k)).Munches := by
  intro s v hv hvs
  have hall : ∀ c ∈ v, k.holds c := by
    obtain ⟨ks, rfl, hks⟩ := Language.mem_kstar.mp hv
    intro c hc
    obtain ⟨l, hl, hc⟩ := List.mem_flatten.mp hc
    obtain ⟨d, hd, rfl⟩ := hks l hl
    rwa [List.mem_singleton.mp hc]
  rw [split?_many_one]
  exact munches_run k s v hall hvs

/-! ## Names and numbers -/

theorem munches_many1_one (k : CharClass) : (many1 (one k)).Munches := by
  refine (munches_one k).seq_of_length (n := 1) (munches_many_one k) ?_
  rintro _ ⟨c, -, rfl⟩
  rfl

theorem munches_identifier : identifier.Munches := by
  refine (munches_one .letter).seq_of_length (n := 1) (munches_run .wordChar) ?_
  rintro _ ⟨c, -, rfl⟩
  rfl

/-- A run of digits. -/
def digitRun : Pattern := many1 (one .digit)

/-- A point and a run of digits. -/
def fractionPart : Pattern := .seq (lit ['.']) digitRun

/-- An underscore and a kind: a name or a run of digits. -/
def kindPart : Pattern := .seq (lit ['_']) (.alt identifier digitRun)

/-- The literal numbers: `[+-]?[0-9]+(\.[0-9]+)?(_([A-Za-z][A-Za-z0-9_]*|[0-9]+))?`. -/
def numeral : Pattern :=
  .seq (opt (one (.oneOf ['+', '-']))) (.seq digitRun (.seq (opt fractionPart) (opt kindPart)))

theorem isDigitRun_of_mem {v : Text} (h : v ∈ digitRun.language) : isDigitRun v := by
  obtain ⟨w, r, hw, hle⟩ := munches_many1_one .digit v v h (List.prefix_refl v)
  have hlen := congrArg List.length (split?_eq_append hw)
  rw [List.length_append] at hlen
  have hr : r = [] := List.length_eq_zero_iff.mp (by omega)
  rw [split?_eq_append hw, hr, List.append_nil]
  exact isDigitRun_of_split? hw

theorem digit_of_isDigitRun {v : Text} (h : isDigitRun v) : ∀ c ∈ v, c.isDigit := by
  simp only [isDigitRun, Bool.and_eq_true, List.all_eq_true] at h
  exact h.2

theorem head_of_mem_fractionPart {v : Text} (h : v ∈ fractionPart.language) :
    ∃ f, v = '.' :: f ∧ isDigitRun f := by
  obtain ⟨_, rfl, f, hf, rfl⟩ := h
  exact ⟨f, rfl, isDigitRun_of_mem hf⟩

theorem head_of_mem_kindPart {v : Text} (h : v ∈ kindPart.language) : v.head? = some '_' := by
  obtain ⟨_, rfl, k, -, rfl⟩ := h
  rfl

theorem munches_fractionPart : fractionPart.Munches := by
  refine (munches_lit ['.']).seq_of_length (n := 1) (munches_many1_one .digit) ?_
  rintro _ rfl
  rfl

theorem munches_kindPart : kindPart.Munches := by
  have hkind := munches_identifier.alt (munches_many1_one .digit) (apart_of_clashes (by decide))
  refine (munches_lit ['_']).seq_of_length (n := 1) hkind ?_
  rintro _ rfl
  rfl

theorem munches_suffixes : (Pattern.seq (opt fractionPart) (opt kindPart)).Munches := by
  refine munches_fractionPart.opt.seq_of_chars (P := (· ≠ '_')) munches_kindPart.opt ?_ ?_
  · rintro x (hx | rfl) c hc
    · obtain ⟨f, rfl, hf⟩ := head_of_mem_fractionPart hx
      rcases List.mem_cons.mp hc with rfl | hc
      · decide
      · rintro rfl
        exact absurd (digit_of_isDigitRun hf _ hc) (by decide)
    · simp at hc
  · rintro y (hy | rfl) c hc
    · rw [head_of_mem_kindPart hy] at hc
      simpa using hc.symm
    · simp at hc

theorem head_of_mem_suffixes {v : Text}
    (h : v ∈ (Pattern.seq (opt fractionPart) (opt kindPart)).language) :
    ∀ c ∈ v.head?, c = '.' ∨ c = '_' := by
  obtain ⟨x, hx, y, hy, rfl⟩ := h
  intro c hc
  rcases hx with hx | rfl
  · obtain ⟨f, rfl, -⟩ := head_of_mem_fractionPart hx
    exact .inl (Option.some.inj hc).symm
  · have hc' : c ∈ y.head? := hc
    rcases hy with hy | rfl
    · rw [head_of_mem_kindPart hy] at hc'
      exact .inr (Option.some.inj hc').symm
    · simp at hc'

/-- **A literal number is the longest one at its place.** -/
theorem munches_numeral : numeral.Munches := by
  have hdigits : (Pattern.seq digitRun (.seq (opt fractionPart) (opt kindPart))).Munches := by
    refine (munches_many1_one .digit).seq_of_chars (P := (·.isDigit)) munches_suffixes
      (fun x hx => digit_of_isDigitRun (isDigitRun_of_mem hx)) fun y hy c hc => ?_
    rcases head_of_mem_suffixes hy c hc with rfl | rfl <;> decide
  refine (munches_one _).opt.seq_of_chars (P := (¬·.isDigit)) hdigits ?_ ?_
  · rintro x (⟨c, hc, rfl⟩ | rfl)
    · have hsign : c = '+' ∨ c = '-' := by simpa [CharClass.holds] using hc
      refine List.forall_mem_singleton.mpr ?_
      rcases hsign with rfl | rfl <;> decide
    · simp
  · rintro _ ⟨x, hx, y, -, rfl⟩ c hc
    have hrun := isDigitRun_of_mem hx
    have hne : x ≠ [] := by
      rintro rfl
      simp [isDigitRun] at hrun
    rw [List.head?_append_of_ne_nil _ hne] at hc
    simpa using digit_of_isDigitRun hrun c (List.mem_of_mem_head? hc)

end Pattern

end FreeForm
