import FreeForm.Text

/-!
# Lexical patterns

A pattern describes how a lexeme, or a stretch of noise between lexemes, is spelled.
`Pattern.split?` cuts the stretch that a pattern describes off the front of a text.  Choice is
ordered, repetition takes all it can, and nothing once taken is given back, so a pattern describes
at most one stretch; `split?_eq_append` says that this stretch and the rest make up the text.
-/

namespace FreeForm

/-- Classes of single characters. -/
inductive CharClass where
  /-- An ASCII digit. -/
  | digit
  /-- An ASCII letter. -/
  | letter
  /-- What a name goes on with: an ASCII letter or digit, or an underscore. -/
  | wordChar
  /-- One of the characters listed. -/
  | oneOf (cs : List Char)
  /-- Any character but those listed. -/
  | noneOf (cs : List Char)
deriving DecidableEq, Repr

namespace CharClass

/-- Whether a character belongs to a class. -/
def holds : CharClass → Char → Bool
  | digit, c => c.isDigit
  | letter, c => c.isAlpha
  | wordChar, c => c.isAlphanum || c = '_'
  | oneOf cs, c => cs.contains c
  | noneOf cs, c => !cs.contains c

end CharClass

/-- Patterns of lexemes. -/
inductive Pattern where
  /-- One character of a class. -/
  | one (k : CharClass)
  /-- As many characters of a class as there are. -/
  | run (k : CharClass)
  /-- These characters. -/
  | lit (w : Text)
  /-- These characters, ASCII letters in either case. -/
  | word (w : Text)
  | seq (a b : Pattern)
  /-- The first pattern, or else the second. -/
  | alt (a b : Pattern)
  /-- The pattern as often as it applies. -/
  | many (a : Pattern)
  /-- Nothing, where the pattern does not apply. -/
  | avoid (a : Pattern)
deriving DecidableEq, Repr

namespace Pattern

/-- The pattern or nothing. -/
def opt (a : Pattern) : Pattern := .alt a (.lit [])

/-- The pattern once or more often. -/
def many1 (a : Pattern) : Pattern := .seq a (.many a)

/-- The patterns one after the other. -/
def all (ps : List Pattern) : Pattern := ps.foldr .seq (.lit [])

/-- Cuts a text that begins with the characters of `w`, each of them equal up to `fold`. -/
def splitWord? (fold : Char → Char) : Text → Text → Option (Text × Text)
  | [], s => some ([], s)
  | _ :: _, [] => none
  | d :: w, c :: s =>
    if fold c = fold d then (splitWord? fold w s).map fun x => (c :: x.1, x.2) else none

/-- Cuts off one stretch after the other as long as `cut?` finds one, at most `n` of them. -/
def splitRounds (cut? : Text → Option (Text × Text)) : Nat → Text → Text × Text
  | 0, s => ([], s)
  | n + 1, s =>
    match cut? s with
    | none => ([], s)
    | some x => let y := splitRounds cut? n x.2; (x.1 ++ y.1, y.2)

/-- Cuts off the stretch at the front of a text that a pattern describes.  A repetition has no
more rounds than the text has characters: every round of a pattern in use takes at least one. -/
def split? : Pattern → Text → Option (Text × Text)
  | one k, s =>
    match s with
    | [] => none
    | c :: r => if k.holds c then some ([c], r) else none
  | run k, s => some (s.takeWhile k.holds, s.dropWhile k.holds)
  | lit w, s => splitWord? id w s
  | word w, s => splitWord? Char.toLower w s
  | seq a b, s => (a.split? s).bind fun x => (b.split? x.2).map fun y => (x.1 ++ y.1, y.2)
  | alt a b, s => (a.split? s).or (b.split? s)
  | many a, s => some (splitRounds a.split? s.length s)
  | avoid a, s => if (a.split? s).isSome then none else some ([], s)

/-- The length in bytes of the stretch that a pattern describes, where it applies. -/
def width? (p : Pattern) (s : Text) : Option Nat := (p.split? s).map fun x => x.1.size

theorem splitWord?_eq_append {fold : Char → Char} {w s t r : Text}
    (h : splitWord? fold w s = some (t, r)) : s = t ++ r := by
  induction w generalizing s t with
  | nil => simp_all [splitWord?]
  | cons d w ih =>
    cases s with
    | nil => simp [splitWord?] at h
    | cons c s =>
      rw [splitWord?] at h
      split at h
      · simp only [Option.map_eq_some_iff, Prod.mk.injEq] at h
        obtain ⟨x, hx, rfl, rfl⟩ := h
        rw [ih hx, List.cons_append]
      · simp at h

theorem splitRounds_eq_append {cut? : Text → Option (Text × Text)}
    (hc : ∀ {s t r}, cut? s = some (t, r) → s = t ++ r) (n : Nat) (s : Text) :
    s = (splitRounds cut? n s).1 ++ (splitRounds cut? n s).2 := by
  induction n generalizing s with
  | zero => rfl
  | succ n ih =>
    rw [splitRounds]
    split
    · rfl
    · rename_i x h
      rw [hc h, List.append_assoc, ← ih]

/-- A pattern takes nothing away and adds nothing: what it cuts off and the rest are the text. -/
theorem split?_eq_append {p : Pattern} {s t r : Text} (h : p.split? s = some (t, r)) :
    s = t ++ r := by
  induction p generalizing s t r with
  | one k =>
    cases s with
    | nil => simp [split?] at h
    | cons c s =>
      simp only [split?, Option.ite_none_right_eq_some, Option.some.injEq, Prod.mk.injEq] at h
      obtain ⟨-, rfl, rfl⟩ := h
      rfl
  | run k =>
    simp only [split?, Option.some.injEq, Prod.mk.injEq] at h
    obtain ⟨rfl, rfl⟩ := h
    exact List.takeWhile_append_dropWhile.symm
  | lit w => exact splitWord?_eq_append h
  | word w => exact splitWord?_eq_append h
  | seq a b iha ihb =>
    simp only [split?, Option.bind_eq_some_iff, Option.map_eq_some_iff, Prod.mk.injEq] at h
    obtain ⟨x, hx, y, hy, rfl, rfl⟩ := h
    rw [iha hx, ihb hy, List.append_assoc]
  | alt a b iha ihb =>
    simp only [split?, Option.or_eq_some_iff] at h
    rcases h with h | ⟨-, h⟩
    · exact iha h
    · exact ihb h
  | many a ih =>
    simp only [split?, Option.some.injEq] at h
    have := splitRounds_eq_append (fun h => ih h) s.length s
    rwa [h] at this
  | avoid a ih =>
    simp only [split?] at h
    split at h
    · simp at h
    · simp_all

end Pattern

end FreeForm
