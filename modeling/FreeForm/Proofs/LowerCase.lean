import FreeForm.Proofs.Derivation
import FreeForm.Proofs.LexemeHeads
import Mathlib

/-!
# Texts in lower case

A character and its lower case are equally long and in the same classes of the grammar, for these
hold a letter in both cases or in neither (`CharClass.holds_toLower`).  So all that cuts a text into
parts by sizes, classes and patterns cuts the text in lower case at the same places
(`Pattern.split?_lower`), and every lexeme of the grammar does so
(`Rule.ignoresCase_of_mem_lexemes`).
-/

namespace FreeForm

/-! ## Characters -/

namespace CharClass

variable {c d : Char} {k : CharClass}

/-- Whether it is seen at once that the class holds a letter in both cases or in neither. -/
def ignoresCase : CharClass → Bool
  | digit | letter | wordChar => true
  | oneOf cs | noneOf cs => cs.all fun c => !c.isAlpha

theorem ne_of_isAlpha (hc : c.isAlpha) (hd : d.isAlpha = false) : c ≠ d := by
  rintro rfl
  rw [hc] at hd
  exact Bool.noConfusion hd

theorem toLower_of_not_isAlpha (h : c.isAlpha = false) : c.toLower = c := by
  refine Char.toLower_eq_of_not_isUpper fun hup => ?_
  rw [Char.isAlpha, hup, Bool.true_or] at h
  exact Bool.noConfusion h

/-- What is no letter is not the lower case of another character. -/
theorem toLower_eq_iff (hd : d.isAlpha = false) : c.toLower = d ↔ c = d := by
  constructor
  · rintro rfl
    rw [Char.isAlpha_toLower_eq_isAlpha] at hd
    exact (toLower_of_not_isAlpha hd).symm
  · rintro rfl
    exact toLower_of_not_isAlpha hd

theorem isDigit_toLower (c : Char) : c.toLower.isDigit = c.isDigit := by
  by_cases h : c.isAlpha
  · have hlow : c.toLower.isAlpha := by rw [Char.isAlpha_toLower_eq_isAlpha, h]
    rw [not_isDigit_of_isAlpha h, not_isDigit_of_isAlpha hlow]
  · rw [toLower_of_not_isAlpha (by simpa using h)]

theorem utf8Size_toLower (c : Char) : c.toLower.utf8Size = c.utf8Size := by
  by_cases h : c.isAlpha
  · have hone : ∀ c : Char, c.isAlpha → c.utf8Size = 1 := by
      intro c h
      have hval := val_of_isAlpha h
      simp only [UInt32.le_iff_toNat_le] at hval
      refine Char.utf8Size_eq_one_iff.mpr (UInt32.le_iff_toNat_le.mpr ?_)
      have : 'Z'.val.toNat = 90 := by decide
      have : 'z'.val.toNat = 122 := by decide
      have : (127 : UInt32).toNat = 127 := by decide
      omega
    rw [hone c h, hone _ (by rw [Char.isAlpha_toLower_eq_isAlpha, h])]
  · rw [toLower_of_not_isAlpha (by simpa using h)]

theorem contains_toLower {cs : List Char} (h : cs.all fun c => !c.isAlpha) (c : Char) :
    cs.contains c.toLower = cs.contains c := by
  induction cs with
  | nil => rfl
  | cons d cs ih =>
    rw [List.all_cons, Bool.and_eq_true, Bool.not_eq_true'] at h
    have hhead : (c.toLower == d) = (c == d) := by
      rw [Bool.eq_iff_iff, beq_iff_eq, beq_iff_eq, toLower_eq_iff h.1]
    rw [List.contains_cons, List.contains_cons, ih h.2, hhead]

theorem holds_toLower (hk : k.ignoresCase) (c : Char) : k.holds c.toLower = k.holds c := by
  cases k with
  | digit => exact isDigit_toLower c
  | letter => exact Char.isAlpha_toLower_eq_isAlpha c
  | wordChar =>
    have hline := toLower_eq_iff (c := c) (d := '_') (by decide)
    simp only [holds, Char.isAlphanum, Char.isAlpha_toLower_eq_isAlpha, isDigit_toLower, hline]
  | oneOf cs => exact contains_toLower hk c
  | noneOf cs => exact congrArg not (contains_toLower hk c)

end CharClass

namespace Text

/-- The text with its letters in lower case. -/
def lower (s : Text) : Text := s.map Char.toLower

variable {s : Text} {p : Char → Bool}

@[simp] theorem lower_nil : lower [] = [] := rfl

@[simp] theorem lower_cons (c : Char) (s : Text) : lower (c :: s) = c.toLower :: lower s := rfl

@[simp] theorem lower_append (s t : Text) : lower (s ++ t) = lower s ++ lower t := List.map_append

@[simp] theorem length_lower (s : Text) : (lower s).length = s.length := List.length_map _

@[simp] theorem lower_lower (s : Text) : s.lower.lower = s.lower := by
  simp [lower]

@[simp] theorem size_lower (s : Text) : size s.lower = size s := by
  induction s with
  | nil => rfl
  | cons c s ih => rw [lower_cons, size_cons, size_cons, ih, CharClass.utf8Size_toLower]

theorem size_eq_of_lower_eq {s t : Text} (h : s.lower = t.lower) : size t = size s := by
  rw [← size_lower t, ← h, size_lower]

theorem takeWhile_lower (hp : ∀ c : Char, p c.toLower = p c) (s : Text) :
    s.lower.takeWhile p = lower (s.takeWhile p) := by
  have hcomp : p ∘ Char.toLower = p := funext hp
  rw [lower, List.takeWhile_map, hcomp]
  rfl

theorem dropWhile_lower (hp : ∀ c : Char, p c.toLower = p c) (s : Text) :
    s.lower.dropWhile p = lower (s.dropWhile p) := by
  have hcomp : p ∘ Char.toLower = p := funext hp
  rw [lower, List.dropWhile_map, hcomp]
  rfl

theorem trimEnd_lower (hp : ∀ c : Char, p c.toLower = p c) (s : Text) :
    trimEnd p s.lower = lower (trimEnd p s) := by
  rw [trimEnd, trimEnd, lower, ← List.map_reverse, ← lower, dropWhile_lower hp, lower, lower,
    List.map_reverse]

theorem all_lower (hp : ∀ c : Char, p c.toLower = p c) (s : Text) : s.lower.all p = s.all p := by
  have hcomp : p ∘ Char.toLower = p := funext hp
  rw [lower, List.all_map, hcomp]

theorem dropBytes?_lower (n : Nat) (s : Text) :
    s.lower.dropBytes? n = (s.dropBytes? n).map lower := by
  induction s generalizing n with
  | nil =>
    rw [lower_nil, dropBytes?]
    split <;> rfl
  | cons c s ih =>
    rw [lower_cons, dropBytes?, dropBytes?, CharClass.utf8Size_toLower, ih]
    split_ifs <;> rfl

theorem takeBytes?_lower (n : Nat) (s : Text) :
    s.lower.takeBytes? n = (s.takeBytes? n).map lower := by
  induction s generalizing n with
  | nil =>
    rw [lower_nil, takeBytes?]
    split <;> rfl
  | cons c s ih =>
    rw [lower_cons, takeBytes?, takeBytes?, CharClass.utf8Size_toLower, ih]
    split_ifs
    · rfl
    · rw [Option.map_map, Option.map_map]
      rfl
    · rfl

theorem slice?_lower (s : Text) (i j : Nat) : s.lower.slice? i j = (s.slice? i j).map lower := by
  rw [slice?, slice?, dropBytes?_lower]
  split_ifs
  · rw [Option.bind_map, Option.map_bind]
    simp only [Function.comp_def, takeBytes?_lower]
  · rfl

theorem text_lower (s : Text) (x : Span) : x.text s.lower = (x.text s).lower := by
  rw [Span.text, Span.text, slice?_lower]
  cases s.slice? x.start x.stop <;> rfl

end Text

open Text

/-! ## Patterns -/

namespace Pattern

/-- Whether it is seen at once that the pattern applies to both cases of a letter alike. -/
def ignoresCase : Pattern → Bool
  | one k | run k => k.ignoresCase
  | lit w => w.all fun c => !c.isAlpha
  | word _ => true
  | seq a b | alt a b => a.ignoresCase && b.ignoresCase
  | many a | avoid a => a.ignoresCase

/-- Both parts of a split in lower case. -/
def lowerParts (x : Text × Text) : Text × Text := (x.1.lower, x.2.lower)

theorem splitWord?_lower {fold : Char → Char} {w : Text}
    (hw : ∀ d ∈ w, ∀ c : Char, fold c.toLower = fold d ↔ fold c = fold d) (s : Text) :
    splitWord? fold w s.lower = (splitWord? fold w s).map lowerParts := by
  induction w generalizing s with
  | nil => rfl
  | cons d w ih =>
    cases s with
    | nil => rfl
    | cons c s =>
      have hd := hw d List.mem_cons_self c
      rw [lower_cons, splitWord?, splitWord?, ih fun d hd => hw d (List.mem_cons_of_mem _ hd)]
      simp only [hd]
      split_ifs
      · rw [Option.map_map, Option.map_map]
        rfl
      · rfl

theorem splitRounds_lower {cut? : Text → Option (Text × Text)}
    (h : ∀ s : Text, cut? s.lower = (cut? s).map lowerParts) (n : Nat) (s : Text) :
    splitRounds cut? n s.lower = lowerParts (splitRounds cut? n s) := by
  induction n generalizing s with
  | zero => rfl
  | succ n ih =>
    rw [splitRounds, splitRounds, h]
    cases cut? s with
    | none => rfl
    | some x =>
      rw [Option.map_some]
      simp only [lowerParts, ih, lower_append]

/-- What is cut off a text in lower case is what is cut off the text, in lower case. -/
theorem split?_lower {p : Pattern} (hp : p.ignoresCase) (s : Text) :
    p.split? s.lower = (p.split? s).map lowerParts := by
  induction p generalizing s with
  | one k =>
    cases s with
    | nil => rfl
    | cons c s =>
      rw [lower_cons, split?, split?, CharClass.holds_toLower hp]
      split_ifs <;> rfl
  | run k =>
    rw [split?, split?, takeWhile_lower (CharClass.holds_toLower hp),
      dropWhile_lower (CharClass.holds_toLower hp)]
    rfl
  | lit w =>
    refine splitWord?_lower (fun d hd c => ?_) s
    have hall := List.all_eq_true.mp hp d hd
    exact CharClass.toLower_eq_iff (by simpa using hall)
  | word w =>
    refine splitWord?_lower (fun d _ c => ?_) s
    rw [Char.toLower_toLower_eq_toLower]
  | seq a b iha ihb =>
    rw [ignoresCase, Bool.and_eq_true] at hp
    rw [split?, split?, iha hp.1]
    cases a.split? s with
    | none => rfl
    | some x =>
      rw [Option.map_some, Option.bind_some, Option.bind_some, lowerParts, ihb hp.2,
        Option.map_map, Option.map_map]
      congr 1
      funext y
      simp only [Function.comp, lowerParts, lower_append]
  | alt a b iha ihb =>
    rw [ignoresCase, Bool.and_eq_true] at hp
    rw [split?, split?, iha hp.1, ihb hp.2, Option.map_or]
  | many a ih =>
    rw [split?, split?, length_lower, splitRounds_lower fun s => ih hp s]
    rfl
  | avoid a ih =>
    rw [split?, split?, ih hp, Option.isSome_map]
    split_ifs <;> rfl

theorem width?_lower {p : Pattern} (hp : p.ignoresCase) (s : Text) :
    p.width? s.lower = p.width? s := by
  rw [width?, width?, split?_lower hp, Option.map_map]
  congr 1
  funext x
  exact size_lower x.1

end Pattern

theorem Rule.ignoresCase_of_mem_lexemes {r : Rule} {p : Pattern}
    (hp : p ∈ r.production.lexemes) : p.ignoresCase := by
  have h : ∀ p ∈ r.production.lexemes, p.ignoresCase := by cases r <;> decide
  exact h p hp

theorem skipTrailing_lower (s : Text) (n : Nat) : skipTrailing s.lower n = skipTrailing s n := by
  rw [skipTrailing, skipTrailing, dropBytes?_lower, Option.bind_map]
  have hwidth : Pattern.trailing.width? ∘ lower = Pattern.trailing.width? :=
    funext (Pattern.width?_lower (by decide))
  rw [hwidth]

end FreeForm
