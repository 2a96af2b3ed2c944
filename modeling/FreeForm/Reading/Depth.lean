import FreeForm.Reading

/-!
# The depth of calls

A run never reaches the bound on the depth of its calls, so the bound can be forgotten:
`Rule.read_eq` says that reading a rule is reading its right-hand side, with calls answered by
reading the rule called.

The argument has two parts.  A rule takes at least one character when it matches
(`Rule.length_lt_of_read`), and a rule reaches only rules of a lower `rank` before it takes a
character (`Rule.rank_lt_of_mem_leading`).  Eight times the characters left plus the rank of the
rule therefore sinks from each call to the calls it makes.
-/

namespace FreeForm

namespace Rule

/-- An order on the rules in which calls before the first character go down. -/
def rank : Rule → Nat
  | integer | float | arithmeticOperator | relationalOperator | logicalOperator
  | logicalPrefixOperator | strings | indexedArray | functionCall | subroutineCall => 1
  | number | boolean | lowerBound | upperBound | accessedVariable => 2
  | numbers | booleans | atomicValue | arrayIndexRegion | assignment => 3
  | arrayIndex | valueReturningCode => 4
  | arithmeticStatement | argument => 5
  | relationalStatement | arguments => 6
  | logicalStatement => 7
  | _ => 0

theorem rank_lt_eight (r : Rule) : r.rank < 8 := by cases r <;> decide

end Rule

namespace Pattern

/-- Whether a pattern takes at least one character wherever it applies. -/
def consumes : Pattern → Bool
  | one _ => true
  | run _ => false
  | lit w => !w.isEmpty
  | word w => !w.isEmpty
  | seq a b => a.consumes || b.consumes
  | alt a b => a.consumes && b.consumes
  | many _ => false
  | avoid _ => false

theorem length_le_of_split? {p : Pattern} {s : Text} {x : Text × Text} (h : p.split? s = some x) :
    x.2.length ≤ s.length := by
  rw [split?_eq_append h, List.length_append]
  omega

theorem ne_nil_of_splitWord? {fold : Char → Char} {w s : Text} {x : Text × Text} (hw : w ≠ [])
    (h : splitWord? fold w s = some x) : x.1 ≠ [] := by
  cases w with
  | nil => exact absurd rfl hw
  | cons d w =>
    cases s with
    | nil => simp [splitWord?] at h
    | cons c s =>
      rw [splitWord?, Option.ite_none_right_eq_some, Option.map_eq_some_iff] at h
      obtain ⟨-, y, -, rfl⟩ := h
      simp

theorem ne_nil_of_consumes {p : Pattern} (hp : p.consumes) {s : Text} {x : Text × Text}
    (h : p.split? s = some x) : x.1 ≠ [] := by
  induction p generalizing s x with
  | one k =>
    cases s with
    | nil => simp [split?] at h
    | cons c s =>
      simp only [split?, Option.ite_none_right_eq_some, Option.some.injEq] at h
      obtain ⟨-, rfl⟩ := h
      simp
  | run k => simp [consumes] at hp
  | lit w => exact ne_nil_of_splitWord? (by simpa [consumes] using hp) h
  | word w => exact ne_nil_of_splitWord? (by simpa [consumes] using hp) h
  | seq a b iha ihb =>
    simp only [split?, Option.bind_eq_some_iff, Option.map_eq_some_iff] at h
    obtain ⟨y, hy, z, hz, rfl⟩ := h
    simp only [consumes, Bool.or_eq_true] at hp
    rcases hp with hp | hp
    · simp [iha hp hy]
    · simp [ihb hp hz]
  | alt a b iha ihb =>
    simp only [consumes, Bool.and_eq_true] at hp
    simp only [split?, Option.or_eq_some_iff] at h
    rcases h with h | ⟨-, h⟩
    · exact iha hp.1 h
    · exact ihb hp.2 h
  | many a => simp [consumes] at hp
  | avoid a => simp [consumes] at hp

end Pattern

theorem Cursor.length_skipGap_le (c : Cursor) : c.skipGap.rest.length ≤ c.rest.length := by
  unfold Cursor.skipGap
  split
  · exact Nat.le_refl _
  · rename_i x h
    exact Pattern.length_le_of_split? h

namespace Reading

/-- What is found ends at most as far before the end of the text as `n` says. -/
def Within (r : Reading) (n : Nat) : Prop := ∀ x, r.found = some x → x.2.rest.length ≤ n

theorem Within.mono {r : Reading} {m n : Nat} (h : r.Within m) (hmn : m ≤ n) : r.Within n :=
  fun x hx => Nat.le_trans (h x hx) hmn

theorem within_empty (c : Cursor) : (empty c).Within c.rest.length := by
  intro x hx
  simp only [empty, Option.some.injEq] at hx
  subst hx
  exact Nat.le_refl _

theorem Within.andThen {r : Reading} {next : Cursor → Reading} {m n : Nat} (h : r.Within m)
    (k : ∀ c, c.rest.length ≤ m → (next c).Within n) : (r.andThen next).Within n := by
  intro x hx
  unfold Reading.andThen at hx
  split at hx
  · rename_i hr
    simp [hr] at hx
  · rename_i ts c hr
    simp only [Option.map_eq_some_iff] at hx
    obtain ⟨y, hy, rfl⟩ := hx
    exact k c (h _ hr) y hy

theorem Within.orElse {r : Reading} {other : Unit → Reading} {n : Nat} (h : r.Within n)
    (k : (other ()).Within n) : (r.orElse other).Within n := by
  intro x hx
  unfold Reading.orElse at hx
  split at hx
  · exact h x hx
  · exact k x hx

theorem andThen_congr_of_found {r : Reading} {next next' : Cursor → Reading}
    (h : ∀ x, r.found = some x → next x.2 = next' x.2) : r.andThen next = r.andThen next' := by
  unfold Reading.andThen
  split
  · rfl
  · rename_i ts c hr
    rw [h _ hr]

theorem andThen_congr {r : Reading} {next next' : Cursor → Reading} {n : Nat} (hr : r.Within n)
    (h : ∀ c, c.rest.length ≤ n → next c = next' c) : r.andThen next = r.andThen next' :=
  andThen_congr_of_found fun x hx => h x.2 (hr x hx)

/-- A token that takes a character leaves fewer. -/
theorem lt_of_ofToken {p : Pattern} (hp : p.consumes) {c : Cursor} {x : List Tree × Cursor}
    (h : (ofToken p c).found = some x) : x.2.rest.length < c.rest.length := by
  simp only [ofToken, Cursor.token?, Option.map_map, Option.map_eq_some_iff] at h
  obtain ⟨y, hy, rfl⟩ := h
  have hne := Pattern.ne_nil_of_consumes hp hy
  have hlen := congrArg List.length (Pattern.split?_eq_append hy)
  have hpos := List.length_pos_iff.2 hne
  rw [List.length_append] at hlen
  simp only [Function.comp_apply]
  omega

theorem within_ofToken (p : Pattern) (c : Cursor) : (ofToken p c).Within c.rest.length := by
  intro x hx
  simp only [ofToken, Cursor.token?, Option.map_map, Option.map_eq_some_iff] at hx
  obtain ⟨y, hy, rfl⟩ := hx
  exact Pattern.length_le_of_split? hy

end Reading

namespace Phrase

/-- Whether a phrase takes at least one character wherever it applies. -/
def consumes : Phrase → Bool
  | token p => p.consumes
  | .call _ => true
  | seq a b => a.consumes || b.consumes
  | alt a b => a.consumes && b.consumes
  | opt _ => false
  | many _ => false

/-- The rules that a phrase may call before it takes a character. -/
def leading : Phrase → List Rule
  | token _ => []
  | .call r => [r]
  | seq a b => a.leading ++ if a.consumes then [] else b.leading
  | alt a b => a.leading ++ b.leading
  | opt a => a.leading
  | many a => a.leading

/-- Calls that never give back more text than they got, and less where they match. -/
def Shrinking (call : Rule → Cursor → Reading) : Prop :=
  ∀ r c x, (call r c).found = some x → x.2.rest.length < c.rest.length

/-- Passing noise never gives back text. -/
def Skipping (skip : Cursor → Cursor) : Prop := ∀ c, (skip c).rest.length ≤ c.rest.length

theorem within_readRounds {step : Cursor → Reading}
    (h : ∀ c, (step c).Within c.rest.length) (n : Nat) (c : Cursor) :
    (readRounds step n c).Within c.rest.length := by
  induction n generalizing c with
  | zero => exact Reading.within_empty c
  | succ n ih =>
    exact .orElse (.andThen (h c) fun d hd => (ih d).mono hd) (Reading.within_empty c)

variable {call call' : Rule → Cursor → Reading} {skip : Cursor → Cursor}

/-- A phrase gives back no more text than it got. -/
theorem within_read (hc : Shrinking call) (hs : Skipping skip) (a : Phrase) (c : Cursor) :
    (a.read call skip c).Within c.rest.length := by
  induction a generalizing c with
  | token p => exact Reading.within_ofToken p c
  | call r => exact fun x hx => Nat.le_of_lt (hc r c x hx)
  | seq a b iha ihb =>
    exact .andThen (iha c) fun d hd => (ihb (skip d)).mono (Nat.le_trans (hs d) hd)
  | alt a b iha ihb => exact .orElse (iha c) (ihb c)
  | opt a ih => exact .orElse (ih c) (Reading.within_empty c)
  | many a ih =>
    refine .orElse (.andThen (ih c) fun d hd => ?_) (Reading.within_empty c)
    exact (within_readRounds (fun e => (ih (skip e)).mono (hs e)) _ d).mono hd

/-- A phrase that takes a character gives back less text. -/
theorem lt_of_read (hc : Shrinking call) (hs : Skipping skip) {a : Phrase} (ha : a.consumes)
    {c : Cursor} {x : List Tree × Cursor} (h : (a.read call skip c).found = some x) :
    x.2.rest.length < c.rest.length := by
  induction a generalizing c x with
  | token p => exact Reading.lt_of_ofToken ha h
  | call r => exact hc r c x h
  | seq a b iha ihb =>
    simp only [read, Reading.andThen] at h
    split at h
    · rename_i hr
      simp [hr] at h
    · rename_i ts d hr
      simp only [Option.map_eq_some_iff] at h
      obtain ⟨y, hy, rfl⟩ := h
      have hd := within_read hc hs a c _ hr
      have hy' := within_read hc hs b (skip d) _ hy
      have hsd := hs d
      simp only [consumes, Bool.or_eq_true] at ha
      rcases ha with ha | ha
      · have := iha ha hr
        simp only at *
        omega
      · have := ihb ha hy
        simp only at *
        omega
  | alt a b iha ihb =>
    simp only [consumes, Bool.and_eq_true] at ha
    simp only [read, Reading.orElse] at h
    split at h
    · exact iha ha.1 h
    · exact ihb ha.2 h
  | opt a => simp [consumes] at ha
  | many a => simp [consumes] at ha

/-- Rounds of steps that agree near the end of the text agree there. -/
theorem readRounds_congr {step step' : Cursor → Reading} {m : Nat}
    (hw : ∀ c, (step c).Within c.rest.length)
    (he : ∀ c, c.rest.length ≤ m → step c = step' c) (n : Nat) {c : Cursor}
    (hm : c.rest.length ≤ m) : readRounds step n c = readRounds step' n c := by
  induction n generalizing c with
  | zero => rfl
  | succ n ih =>
    have h : (step c).andThen (readRounds step n) = (step c).andThen (readRounds step' n) :=
      Reading.andThen_congr (hw c) fun d hd => ih (Nat.le_trans hd hm)
    rw [readRounds, readRounds, ← he c hm, h]

/-- Two ways to answer calls that agree wherever a phrase can get make no difference to it. -/
theorem read_congr (hc : Shrinking call) (hs : Skipping skip) {m : Nat}
    (he : ∀ r c, 8 * c.rest.length + r.rank < m → call r c = call' r c) (a : Phrase) {c : Cursor}
    (hl : ∀ r ∈ a.leading, 8 * c.rest.length + r.rank < m) (hm : 8 * c.rest.length ≤ m) :
    a.read call skip c = a.read call' skip c := by
  induction a generalizing c with
  | token p => rfl
  | call r => exact he r c (hl r (by simp [leading]))
  | seq a b iha ihb =>
    simp only [leading, List.mem_append] at hl
    rw [read, read, ← iha (fun r hr => hl r (.inl hr)) hm]
    refine Reading.andThen_congr_of_found fun x hx => ihb (fun r hr => ?_) ?_
    · have hsx := hs x.2
      by_cases ha : a.consumes
      · have := lt_of_read hc hs ha hx
        have := r.rank_lt_eight
        omega
      · have := within_read hc hs a c x hx
        have := hl r (.inr (by simpa [ha] using hr))
        omega
    · have := within_read hc hs a c x hx
      have := hs x.2
      omega
  | alt a b iha ihb =>
    simp only [leading, List.mem_append] at hl
    rw [read, read, ← iha (fun r hr => hl r (.inl hr)) hm, ihb (fun r hr => hl r (.inr hr)) hm]
  | opt a ih => rw [read, read, ih hl hm]
  | many a ih =>
    rw [read, read, ← ih hl hm]
    refine congrArg (Reading.orElse · _) (Reading.andThen_congr (within_read hc hs a c) ?_)
    intro d hd
    refine readRounds_congr
      (fun e => (within_read hc hs a (skip e)).mono (hs e)) (fun e hle => ?_) _ hd
    have := hs e
    exact ih (fun r hr => by have := hl r hr; omega) (by omega)

end Phrase

theorem Cursor.skipping_skipGap : Phrase.Skipping Cursor.skipGap := Cursor.length_skipGap_le

theorem Cursor.skipping_id : Phrase.Skipping id := fun _ => Nat.le_refl _

namespace Production

/-- Whether a right-hand side takes at least one character wherever it applies. -/
def consumes : Production → Bool
  | lexeme p => p.consumes
  | compact a | spaced a => a.consumes

/-- The rules that a right-hand side may call before it takes a character. -/
def leading : Production → List Rule
  | lexeme _ => []
  | compact a | spaced a => a.leading

variable {call call' : Rule → Cursor → Reading}

theorem lt_of_read (hc : Phrase.Shrinking call) {p : Production} (hp : p.consumes) {c : Cursor}
    {x : List Tree × Cursor} (h : (p.read call c).found = some x) :
    x.2.rest.length < c.rest.length := by
  cases p with
  | lexeme p => exact Reading.lt_of_ofToken hp h
  | compact a => exact Phrase.lt_of_read hc Cursor.skipping_id hp h
  | spaced a => exact Phrase.lt_of_read hc Cursor.skipping_skipGap hp h

theorem read_congr (hc : Phrase.Shrinking call) {m : Nat}
    (he : ∀ r c, 8 * c.rest.length + r.rank < m → call r c = call' r c) (p : Production)
    {c : Cursor} (hl : ∀ r ∈ p.leading, 8 * c.rest.length + r.rank < m)
    (hm : 8 * c.rest.length ≤ m) : p.read call c = p.read call' c := by
  cases p with
  | lexeme p => rfl
  | compact a => exact Phrase.read_congr hc Cursor.skipping_id he a hl hm
  | spaced a => exact Phrase.read_congr hc Cursor.skipping_skipGap he a hl hm

end Production

namespace Rule

theorem consumes_production (r : Rule) : r.production.consumes := by cases r <;> decide

/-- A rule reaches only rules of a lower rank before it takes a character. -/
theorem rank_lt_of_mem_leading {r q : Rule} (h : q ∈ r.production.leading) : q.rank < r.rank := by
  have : ∀ q ∈ r.production.leading, q.rank < r.rank := by cases r <;> decide
  exact this q h

theorem shrinking_readWithin (n : Nat) : Phrase.Shrinking (readWithin n) := by
  induction n with
  | zero => intro r c x h; simp [readWithin, Reading.fail] at h
  | succ n ih =>
    intro r c x h
    simp only [readWithin, Reading.close, Option.map_eq_some_iff] at h
    obtain ⟨y, hy, rfl⟩ := h
    have := Production.lt_of_read ih r.consumes_production hy
    exact this

/-- A rule takes at least one character when it matches. -/
theorem length_lt_of_read {r : Rule} {c : Cursor} {x : List Tree × Cursor}
    (h : (r.read c).found = some x) : x.2.rest.length < c.rest.length :=
  shrinking_readWithin _ r c x h

theorem readWithin_succ {n : Nat} {r : Rule} {c : Cursor} (h : 8 * c.rest.length + r.rank < n) :
    readWithin (n + 1) r c = readWithin n r c := by
  induction n generalizing r c with
  | zero => omega
  | succ n ih =>
    rw [readWithin, readWithin]
    refine congrArg (Reading.close · _ _)
      (Production.read_congr (shrinking_readWithin _) (m := n) (fun r c h => ih h) _ ?_ (by omega))
    intro q hq
    have := rank_lt_of_mem_leading hq
    omega

/-- A greater bound on the depth of calls makes no difference. -/
theorem readWithin_eq_read {n : Nat} {r : Rule} {c : Cursor}
    (h : 8 * c.rest.length + r.rank < n) : readWithin n r c = r.read c := by
  have hk : ∀ k, readWithin (8 * c.rest.length + r.rank + 1 + k) r c
      = readWithin (8 * c.rest.length + r.rank + 1) r c := by
    intro k
    induction k with
    | zero => rfl
    | succ k ih => rw [← Nat.add_assoc, readWithin_succ (by omega), ih]
  have hr := r.rank_lt_eight
  obtain ⟨k, rfl⟩ := Nat.exists_eq_add_of_le h
  obtain ⟨j, hj⟩ : ∃ j, depthBound c.rest = 8 * c.rest.length + r.rank + 1 + j :=
    Nat.exists_eq_add_of_le (by unfold depthBound; omega)
  rw [read, hj, hk j]
  exact hk k

/-- Reading a rule is reading its right-hand side, with calls answered by reading the rule
called. -/
theorem read_eq (r : Rule) (c : Cursor) :
    r.read c = (r.production.read Rule.read c).close r c.pos := by
  have hr := r.rank_lt_eight
  rw [← readWithin_eq_read (n := 8 * c.rest.length + 8) (by omega), readWithin]
  refine congrArg (Reading.close · _ _) (Production.read_congr (shrinking_readWithin _)
    (m := 8 * c.rest.length + 7) (fun q d h => readWithin_eq_read h) _ ?_ (by omega))
  intro q hq
  have := rank_lt_of_mem_leading hq
  omega

end Rule

end FreeForm
