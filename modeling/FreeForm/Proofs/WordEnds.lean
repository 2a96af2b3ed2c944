import FreeForm.Proofs.Derivation
import FreeForm.Proofs.LexemeHeads
import Mathlib.Data.List.Basic

/-!
# Where words are cut in two

A place is inside a word if letters, digits or underscores stand on both sides of it (`Text.Cuts`).
Almost every lexeme and all noise end outside of words: they end with another character, or they take
all the characters of words that stand there, or they ask for another character behind them.
`Pattern.seals` tells this of patterns and `Rule.seals` of rules, both by computation.  Only what ends
with a number may end inside a word, as in `1and`.
-/

namespace FreeForm

namespace Text

/-- Between the two texts, a word is cut in two. -/
def Cuts (u v : Text) : Prop :=
  (∃ x ∈ u.getLast?, CharClass.wordChar.holds x) ∧ ∃ y ∈ v.head?, CharClass.wordChar.holds y

variable {u v w : Text}

theorem not_cuts_nil (v : Text) : ¬Cuts [] v := by simp [Cuts]

theorem not_cuts_of_head (h : ∀ y ∈ v.head?, ¬CharClass.wordChar.holds y) : ¬u.Cuts v := by
  rintro ⟨-, y, hy, hw⟩
  exact h y hy hw

theorem not_cuts_of_last (h : ∀ x ∈ u.getLast?, ¬CharClass.wordChar.holds x) : ¬u.Cuts v := by
  rintro ⟨⟨x, hx, hw⟩, -⟩
  exact h x hx hw

/-- Behind two texts no word is cut in two, if none is behind the second one, or the second one is
empty and none is behind the first. -/
theorem not_cuts_append (hu : v = [] → ¬u.Cuts w) (hv : ¬v.Cuts w) : ¬(u ++ v).Cuts w := by
  by_cases h : v = []
  · rw [h, List.append_nil]
    exact hu h
  · rintro ⟨hx, hy⟩
    rw [List.getLast?_append_of_ne_nil _ h] at hx
    exact hv ⟨hx, hy⟩

end Text

open Text

/-! ## Patterns that end outside of words -/

namespace CharClass

/-- Whether it is seen at once that no character of the class belongs to a word. -/
def avoidsWords : CharClass → Bool
  | oneOf cs => cs.all fun c => !wordChar.holds c
  | _ => false

/-- Whether it is seen at once that all characters of words belong to the class. -/
def coversWords : CharClass → Bool
  | wordChar => true
  | noneOf cs => cs.all fun c => !wordChar.holds c
  | _ => false

theorem not_word_of_avoidsWords {k : CharClass} (h : k.avoidsWords) {x : Char} (hx : k.holds x) :
    ¬wordChar.holds x := by
  unfold avoidsWords at h
  split at h
  · exact not_holds_of_all h (List.contains_iff_mem.mp hx)
  · exact absurd h Bool.false_ne_true

theorem not_word_of_coversWords {k : CharClass} (h : k.coversWords) {x : Char} (hx : ¬k.holds x) :
    ¬wordChar.holds x := by
  unfold coversWords at h
  split at h
  · exact hx
  · refine not_holds_of_all h (List.contains_iff_mem.mp ?_)
    simpa [holds] using hx
  · exact absurd h Bool.false_ne_true

end CharClass

namespace Pattern

/-- Whether no character of a word follows what the pattern cuts off. -/
def stops : Pattern → Bool
  | run k | avoid (one k) => k.coversWords
  | seq _ b => b.stops
  | alt a b => a.stops && b.stops
  | _ => false

/-- Whether no word is cut in two behind what the pattern cuts off. -/
def seals : Pattern → Bool
  | one k => k.avoidsWords
  | run k => k.avoidsWords || k.coversWords
  | lit w => w.getLast?.all fun c => !CharClass.wordChar.holds c
  | word w => w.getLast?.all fun c => (CharClass.anyCase c).avoidsWords
  | seq a b => b.stops || b.seals && (b.consumes || a.seals)
  | alt a b => a.seals && b.seals
  | many a => a.seals && a.consumes
  | avoid _ => true

theorem not_word_of_stops {p : Pattern} (hp : p.stops) {s t r : Text}
    (h : p.split? s = some (t, r)) : ∀ y ∈ r.head?, ¬CharClass.wordChar.holds y := by
  induction p generalizing s t with
  | run k =>
    intro y hy
    exact CharClass.not_word_of_coversWords hp (not_holds_of_run h y hy)
  | avoid a =>
    cases a with
    | one k =>
      obtain ⟨hone, -, rfl⟩ := split?_avoid_eq_some.mp h
      intro y hy
      obtain ⟨z, rfl⟩ := List.head?_eq_some_iff.mp hy
      exact CharClass.not_word_of_coversWords hp (by simpa [split?] using hone)
    | run | lit | word | seq | alt | many | avoid => simp [stops] at hp
  | seq a b _ ihb =>
    obtain ⟨_, _, _, -, hb, -⟩ := split?_seq_eq_some.mp h
    exact ihb hp hb
  | alt a b iha ihb =>
    simp only [stops, Bool.and_eq_true] at hp
    rcases split?_alt_eq_some.mp h with h | ⟨-, h⟩
    · exact iha hp.1 h
    · exact ihb hp.2 h
  | one | lit | word | many => simp [stops] at hp

theorem not_word_of_map {k : Char → CharClass} {f : Char → Char}
    (hk : ∀ c d, f c = f d → (k d).holds c) {t w : Text} (h : t.map f = w.map f)
    (hw : w.getLast?.all fun c => (k c).avoidsWords) :
    ∀ x ∈ t.getLast?, ¬CharClass.wordChar.holds x := by
  intro x hx
  have hlast : w.getLast?.map f = some (f x) := by
    rw [← List.getLast?_map, ← h, List.getLast?_map, Option.mem_def.mp hx, Option.map_some]
  obtain ⟨y, hy, hxy⟩ := Option.map_eq_some_iff.mp hlast
  rw [hy, Option.all_some] at hw
  exact CharClass.not_word_of_avoidsWords hw (hk x y hxy.symm)

/-- Behind what a pattern cuts off that seals words, no word is cut in two. -/
theorem not_cuts_of_seals {p : Pattern} (hp : p.seals) {s t r : Text}
    (h : p.split? s = some (t, r)) : ¬t.Cuts r := by
  induction p generalizing s t r with
  | one k =>
    obtain ⟨c, hc, rfl, -⟩ := split?_one_eq_some.mp h
    exact not_cuts_of_last (by simpa using CharClass.not_word_of_avoidsWords hp hc)
  | run k =>
    simp only [seals, Bool.or_eq_true] at hp
    rcases hp with hp | hp
    · exact not_cuts_of_last fun x hx =>
        CharClass.not_word_of_avoidsWords hp (holds_of_run h x (List.mem_of_getLast? hx))
    · have hstop : (run k).stops := hp
      exact not_cuts_of_head (not_word_of_stops hstop h)
  | lit w =>
    obtain rfl := eq_of_split?_lit h
    refine not_cuts_of_last fun x hx => ?_
    rw [seals, Option.mem_def.mp hx, Option.all_some] at hp
    simpa using hp
  | word w =>
    exact not_cuts_of_last (not_word_of_map (fun _ _ => CharClass.anyCase_holds)
      (map_of_splitWord? h) hp)
  | seq a b iha ihb =>
    obtain ⟨t, x, u, ht, hu, rfl⟩ := split?_seq_eq_some.mp h
    simp only [seals, Bool.or_eq_true, Bool.and_eq_true] at hp
    rcases hp with hb | ⟨hb, hp⟩
    · exact not_cuts_of_head (not_word_of_stops hb hu)
    · refine not_cuts_append (fun hnil => ?_) (ihb hb hu)
      rcases hp with hp | hp
      · exact absurd hnil (ne_nil_of_consumes hp hu)
      · obtain rfl : x = r := by rw [split?_eq_append hu, hnil, List.nil_append]
        exact iha hp ht
  | alt a b iha ihb =>
    simp only [seals, Bool.and_eq_true] at hp
    rcases split?_alt_eq_some.mp h with h | ⟨-, h⟩
    · exact iha hp.1 h
    · exact ihb hp.2 h
  | many a ih =>
    simp only [seals, Bool.and_eq_true] at hp
    refine many_induction (P := fun _ u v => ¬u.Cuts v) hp.2 (fun s _ => not_cuts_nil s) ?_ h
    intro s t r u v ht hu hrest
    refine not_cuts_append (fun hnil => ?_) hrest
    obtain rfl : r = v := by rw [split?_eq_append hu, hnil, List.nil_append]
    exact ih hp.1 ht
  | avoid a =>
    obtain ⟨-, rfl, -⟩ := split?_avoid_eq_some.mp h
    exact not_cuts_nil r

/-- A name is made of characters of words. -/
theorem holds_of_identifier {s w r : Text} (h : identifier.split? s = some (w, r)) :
    ∀ x ∈ w, CharClass.wordChar.holds x := by
  obtain ⟨t, _, u, ht, hu, rfl⟩ := split?_seq_eq_some.mp h
  obtain ⟨c, hc, rfl, -⟩ := split?_one_eq_some.mp ht
  have halpha : c.isAlpha := hc
  rw [List.singleton_append]
  refine List.forall_mem_cons.mpr ⟨?_, holds_of_run hu⟩
  simp [CharClass.holds, Char.isAlphanum, halpha]

end Pattern

theorem Cursor.Passes.not_cuts {d e : Cursor} {u v : Text} (hu : ¬u.Cuts d.rest)
    (hv : d.Passes v e) (h : ¬v.Cuts e.rest) : ¬(u ++ v).Cuts e.rest := by
  refine not_cuts_append (fun hnil => ?_) h
  rwa [hv.rest, hnil, List.nil_append] at hu

theorem Cursor.exists_passes_skip {skip : Cursor → Cursor} (hs : Spacing skip) (c : Cursor) :
    ∃ g, c.Passes g (skip c) ∧ ¬g.Cuts (skip c).rest := by
  cases hs with
  | compact => exact ⟨[], ⟨rfl, rfl⟩, not_cuts_nil _⟩
  | spaced =>
    obtain ⟨g, hg, hcg, -⟩ := c.passes_skipGap
    exact ⟨g, hcg, Pattern.not_cuts_of_seals (by decide) hg⟩

/-! ## Phrases that end outside of words -/

namespace Phrase

/-- Whether no word is cut in two behind what the phrase takes, if `seals` tells it of rules. -/
def sealsWith (seals : Rule → Bool) : Phrase → Bool
  | token p => p.seals
  | .call r => seals r
  | seq a b => b.sealsWith seals && (b.consumes || a.sealsWith seals)
  | alt a b => a.sealsWith seals && b.sealsWith seals
  | opt a | many a => a.sealsWith seals

end Phrase

/-- Whether no word is cut in two behind a right-hand side, if `seals` tells it of rules. -/
def Production.sealsWith (seals : Rule → Bool) : Production → Bool
  | lexeme p => p.seals
  | compact a | spaced a => a.sealsWith seals

namespace Rule

/-- Whether no word is cut in two behind a rule, as far as calls nested less than `n` deep show. -/
def sealsWithin : Nat → Rule → Bool
  | 0, _ => false
  | n + 1, r => r.production.sealsWith (sealsWithin n)

/-- Whether no word is cut in two behind a match of the rule.  The last calls of a rule nest at most
eight deep. -/
def seals (r : Rule) : Bool := sealsWithin 9 r

theorem seals_eq (r : Rule) : r.seals = r.production.sealsWith seals := by
  cases r <;> decide +kernel

example : all.filter (fun r => !r.seals) = [digits, precisionSpec, integer, float, number,
    lowerBound, upperBound, arrayIndexRegion, arrayIndex, numbers, atomicValue,
    valueReturningCode, arithmeticStatement, relationalStatement, logicalStatement, argument,
    arguments, assignment] := by decide +kernel

end Rule

/-- Whether no word is cut in two behind what the phrase takes. -/
def Phrase.seals (a : Phrase) : Bool := a.sealsWith Rule.seals

theorem Derives.exists_passes {skip : Cursor → Cursor} {a : Phrase} {c d : Cursor}
    {ts : List Tree} (h : Derives skip a c ts d) (hs : Spacing skip)
    (hp : ∀ p ∈ a.lexemes, p.consumes) : ∃ w, c.Passes w d ∧ (a.consumes → w ≠ []) := by
  obtain ⟨hm, ht⟩ := h.moves_and_taken hs hp
  cases ha : a.consumes with
  | true =>
    obtain ⟨u, v, hu, hcd, -⟩ := ht ha
    exact ⟨u ++ v, hcd, by simp [hu]⟩
  | false =>
    rcases hm with ⟨w, hw, -⟩ | ⟨u, v, -, hw, -⟩
    · exact ⟨w, hw, by simp⟩
    · exact ⟨u ++ v, hw, by simp⟩

/-- Behind what a phrase takes that seals words, no word is cut in two. -/
theorem Derives.not_cuts {skip : Cursor → Cursor} {a : Phrase} {c d : Cursor} {ts : List Tree}
    (h : Derives skip a c ts d) (hs : Spacing skip) (hp : ∀ p ∈ a.lexemes, p.consumes)
    (ha : a.seals) : ∃ w, c.Passes w d ∧ ¬w.Cuts d.rest := by
  induction h with
  | token h =>
    obtain ⟨w, hw, hcd, -⟩ := Cursor.passes_of_token? h
    exact ⟨w, hcd, Pattern.not_cuts_of_seals ha hw⟩
  | @lexeme _ r p c d hr h =>
    obtain ⟨w, hw, hcd, -⟩ := Cursor.passes_of_token? h
    have hclose : r.seals := ha
    rw [r.seals_eq, hr] at hclose
    exact ⟨w, hcd, Pattern.not_cuts_of_seals hclose hw⟩
  | @compact _ r b c d ts hr h ih | @spaced _ r b c d ts hr h ih =>
    have hclose : r.seals := ha
    rw [r.seals_eq, hr] at hclose
    exact ih (by constructor) (fun p hp => r.consumes_of_mem_lexemes (by rw [hr]; exact hp)) hclose
  | @seq _ a b c d e ts us h k iha ihb =>
    simp only [Phrase.lexemes, List.mem_append] at hp
    simp only [Phrase.seals, Phrase.sealsWith, Bool.and_eq_true, Bool.or_eq_true] at ha
    obtain ⟨hb, ha⟩ := ha
    obtain ⟨v, hv, hcut⟩ := ihb hs (fun p h => hp p (.inr h)) hb
    obtain ⟨g, hg, hgap⟩ := d.exists_passes_skip hs
    rcases ha with hcons | ha
    · obtain ⟨u, hu, -⟩ := h.exists_passes hs fun p h => hp p (.inl h)
      obtain ⟨v', hv', hne⟩ := k.exists_passes hs fun p h => hp p (.inr h)
      obtain rfl := hv.unique hv'
      refine ⟨u ++ g ++ v, (hu.trans hg).trans hv, not_cuts_append (fun hnil => ?_) hcut⟩
      exact absurd hnil (hne hcons)
    · obtain ⟨u, hu, hcut'⟩ := iha hs (fun p h => hp p (.inl h)) ha
      exact ⟨u ++ g ++ v, (hu.trans hg).trans hv, hv.not_cuts (hg.not_cuts hcut' hgap) hcut⟩
  | left _ ih =>
    simp only [Phrase.seals, Phrase.sealsWith, Bool.and_eq_true] at ha
    exact ih hs (fun p h => hp p (List.mem_append_left _ h)) ha.1
  | right _ ih =>
    simp only [Phrase.seals, Phrase.sealsWith, Bool.and_eq_true] at ha
    exact ih hs (fun p h => hp p (List.mem_append_right _ h)) ha.2
  | absent | never => exact ⟨[], ⟨rfl, rfl⟩, not_cuts_nil _⟩
  | present _ ih | once _ ih => exact ih hs hp ha
  | @again _ a c d e ts us h k ihm iha =>
    obtain ⟨u, hu, hcut⟩ := ihm hs hp ha
    obtain ⟨g, hg, hgap⟩ := d.exists_passes_skip hs
    obtain ⟨v, hv, hcut'⟩ := iha hs hp ha
    exact ⟨u ++ g ++ v, (hu.trans hg).trans hv, hv.not_cuts (hg.not_cuts hcut hgap) hcut'⟩

end FreeForm
