import FreeForm.Proofs.Determined

/-!
# The record of a run

A run leaves a record of the calls it made, those of abandoned alternatives included, each of them
with the calls inside it (`Call.all`).  Every call in the record is the call that its rule makes
alone at the place where it began (`Rule.madeIn_callAt`).  So a call without an end says that the
rule does not match there, and a call with an end where a match leads.
-/

namespace FreeForm

namespace Call

/-- The rule called. -/
def rule : Call → Rule
  | .mk r _ _ _ => r

/-- The offset where the call began. -/
def start : Call → Nat
  | .mk _ n _ _ => n

/-- The offset that the call reached, if its rule matched. -/
def reached : Call → Option Nat
  | .mk _ _ n _ => n

/-- The calls made by the call. -/
def inner : Call → List Call
  | .mk _ _ _ ks => ks

mutual

/-- A call and the calls inside it. -/
def all : Call → List Call
  | .mk r start reached inner => .mk r start reached inner :: allOf inner

/-- The same for one call after the other. -/
def allOf : List Call → List Call
  | [] => []
  | k :: ks => all k ++ allOf ks

end

theorem all_eq_cons (k : Call) : k.all = k :: allOf k.inner := by
  cases k
  rfl

theorem allOf_append (ks js : List Call) : allOf (ks ++ js) = allOf ks ++ allOf js := by
  induction ks with
  | nil => rfl
  | cons k ks ih => rw [List.cons_append, allOf, allOf, ih, List.append_assoc]

theorem allOf_singleton (k : Call) : allOf [k] = k.all := by
  rw [allOf, allOf, List.append_nil]

theorem mem_allOf_iff {k : Call} {ks : List Call} : k ∈ allOf ks ↔ ∃ j ∈ ks, k ∈ j.all := by
  induction ks with
  | nil => simp [allOf]
  | cons j ks ih => simp [allOf, ih]

theorem mem_all_iff {k j : Call} : k ∈ j.all ↔ k = j ∨ ∃ i ∈ j.inner, k ∈ i.all := by
  rw [all_eq_cons, List.mem_cons, mem_allOf_iff]

theorem self_mem_all (k : Call) : k ∈ k.all := mem_all_iff.mpr (.inl rfl)

end Call

namespace Reading

theorem mem_calls_andThen {q : Reading} {next : Cursor → Reading} {k : Call} :
    k ∈ (q.andThen next).calls ↔
      k ∈ q.calls ∨ ∃ x, q.found = some x ∧ k ∈ (next x.2).calls := by
  unfold andThen
  cases h : q.found with
  | none => simp
  | some x => simp

theorem mem_calls_orElse {q : Reading} {other : Unit → Reading} {k : Call} :
    k ∈ (q.orElse other).calls ↔ k ∈ q.calls ∨ q.found = none ∧ k ∈ (other ()).calls := by
  unfold orElse
  cases h : q.found with
  | none => simp
  | some x => simp

theorem mem_calls_opt {q : Reading} {c : Cursor} {k : Call} :
    k ∈ (q.orElse fun _ => .empty c).calls ↔ k ∈ q.calls := by
  rw [mem_calls_orElse]
  simp [empty]

end Reading

/-- The call of a rule at a place. -/
def Rule.callAt (r : Rule) (c : Cursor) : Call :=
  .mk r c.pos ((r.read c).found.map fun x => x.2.pos) (r.production.read Rule.read c).calls

theorem Rule.calls_read (r : Rule) (c : Cursor) : (r.read c).calls = [r.callAt c] := by
  rw [callAt, r.found_read_eq, r.read_eq, Option.map_map]
  rfl

theorem Rule.reached_callAt_eq_none_iff {r : Rule} {c : Cursor} :
    (r.callAt c).reached = none ↔ (r.read c).found = none := Option.map_eq_none_iff

theorem Rule.shrinking_read : Phrase.Shrinking Rule.read := fun _ _ _ h => length_lt_of_read h

namespace Phrase

variable {skip : Cursor → Cursor} {s : Text} {m : Nat} {a : Phrase} {c : Cursor} {k : Call}

theorem length_le_of_found {x : List Tree × Cursor} (hs : Spacing skip)
    (h : (a.read Rule.read skip c).found = some x) : x.2.rest.length ≤ c.rest.length :=
  within_read Rule.shrinking_read (skipping_of_spacing hs) a c x h

/-- Every call of a repetition is one that a round makes at some place further on. -/
theorem exists_round_of_mem_calls (hs : Spacing skip) (hp : ∀ p ∈ a.lexemes, p.consumes) {n : Nat}
    (hc : c.At s) (hk : k ∈ (readRounds (fun d => a.read Rule.read skip (skip d)) n c).calls) :
    ∃ d : Cursor, d.At s ∧ d.rest.length ≤ c.rest.length ∧ k ∈ (a.read Rule.read skip d).calls := by
  have hskip : Skipping skip := skipping_of_spacing hs
  induction n generalizing c with
  | zero => simp [readRounds, Reading.empty] at hk
  | succ n ih =>
    rw [readRounds, Reading.mem_calls_opt, Reading.mem_calls_andThen] at hk
    rcases hk with hk | ⟨⟨ts, d⟩, hd, hk⟩
    · exact ⟨skip c, hc.skip hs, hskip c, hk⟩
    · obtain ⟨e, he, hle, hk⟩ := ih (at_of_found hs hp (hc.skip hs) hd) hk
      have hdle : d.rest.length ≤ (skip c).rest.length := length_le_of_found hs hd
      exact ⟨e, he, Nat.le_trans hle (Nat.le_trans hdle (hskip c)), hk⟩

/-- Every call that a phrase makes is the call of a rule at some place.  What is left of the text
there, or the rank of the rule, is less than what the phrase got. -/
theorem exists_callAt_of_mem_calls (hs : Spacing skip) (hp : ∀ p ∈ a.lexemes, p.consumes)
    (hl : ∀ r ∈ a.leading, 8 * c.rest.length + r.rank < m) (hm : 8 * c.rest.length ≤ m)
    (hc : c.At s) (hk : k ∈ (a.read Rule.read skip c).calls) :
    ∃ (r : Rule) (d : Cursor), d.At s ∧ 8 * d.rest.length + r.rank < m ∧ k = r.callAt d := by
  have hskip : Skipping skip := skipping_of_spacing hs
  induction a generalizing c with
  | token p => simp [read, Reading.ofToken] at hk
  | call r =>
    rw [read, Rule.calls_read, List.mem_singleton] at hk
    exact ⟨r, c, hc, hl r (by simp [leading]), hk⟩
  | seq a b iha ihb =>
    simp only [lexemes, List.mem_append] at hp
    simp only [leading, List.mem_append] at hl
    have hpa := fun p h => hp p (.inl h)
    rw [read, Reading.mem_calls_andThen] at hk
    rcases hk with hk | ⟨⟨ts, d⟩, hd, hk⟩
    · exact iha hpa (fun r hr => hl r (.inl hr)) hm hc hk
    · have hd' : d.At s := at_of_found hs hpa hc hd
      have hle : (skip d).rest.length ≤ d.rest.length := hskip d
      have hdle : d.rest.length ≤ c.rest.length := length_le_of_found hs hd
      refine ihb (fun p h => hp p (.inr h)) (fun r hr => ?_) (by omega) (hd'.skip hs) hk
      by_cases ha : a.consumes
      · have hlt : d.rest.length < c.rest.length := lt_of_read Rule.shrinking_read hskip ha hd
        have hrank := r.rank_lt_eight
        omega
      · have hrank := hl r (.inr (by simpa [ha] using hr))
        omega
  | alt a b iha ihb =>
    simp only [lexemes, List.mem_append] at hp
    simp only [leading, List.mem_append] at hl
    rw [read, Reading.mem_calls_orElse] at hk
    rcases hk with hk | ⟨-, hk⟩
    · exact iha (fun p h => hp p (.inl h)) (fun r hr => hl r (.inl hr)) hm hc hk
    · exact ihb (fun p h => hp p (.inr h)) (fun r hr => hl r (.inr hr)) hm hc hk
  | opt a ih =>
    rw [read, Reading.mem_calls_opt] at hk
    exact ih hp hl hm hc hk
  | many a ih =>
    rw [read, Reading.mem_calls_opt, Reading.mem_calls_andThen] at hk
    rcases hk with hk | ⟨⟨ts, d⟩, hd, hk⟩
    · exact ih hp hl hm hc hk
    · have hdle : d.rest.length ≤ c.rest.length := length_le_of_found (a := a) hs hd
      have hd' : d.At s := at_of_found (a := a) hs hp hc hd
      obtain ⟨e, he, hle, hk⟩ := exists_round_of_mem_calls (a := a) hs hp hd' hk
      refine ih hp (fun r hr => ?_) (by omega) he hk
      have hrank := hl r hr
      omega

end Phrase

/-- The call is the one that its rule makes alone at some place of the text. -/
def Call.MadeIn (s : Text) (k : Call) : Prop := ∃ c : Cursor, c.At s ∧ k = k.rule.callAt c

theorem Rule.exists_callAt_of_mem_inner {s : Text} {r : Rule} {c : Cursor} {k : Call} (hc : c.At s)
    (hk : k ∈ (r.callAt c).inner) : ∃ (q : Rule) (d : Cursor), d.At s ∧
      8 * d.rest.length + q.rank < 8 * c.rest.length + r.rank ∧ k = q.callAt d := by
  have hk : k ∈ (r.production.read Rule.read c).calls := hk
  have hp : ∀ p ∈ r.production.lexemes, p.consumes := fun p => Rule.consumes_of_mem_lexemes
  have hl : ∀ q ∈ r.production.leading, 8 * c.rest.length + q.rank < 8 * c.rest.length + r.rank :=
    fun q hq => Nat.add_lt_add_left (rank_lt_of_mem_leading hq) _
  cases hr : r.production with
  | lexeme p =>
    rw [hr] at hk
    simp [Production.read, Reading.ofToken] at hk
  | compact a =>
    rw [hr] at hk hp hl
    exact Phrase.exists_callAt_of_mem_calls .compact hp hl (by omega) hc hk
  | spaced a =>
    rw [hr] at hk hp hl
    exact Phrase.exists_callAt_of_mem_calls .spaced hp hl (by omega) hc hk

/-- **Every call in the record of a run is the call of its rule alone**, at the place where it
began. -/
theorem Rule.madeIn_callAt {s : Text} {c : Cursor} (hc : c.At s) (r : Rule) :
    ∀ k ∈ (r.callAt c).all, k.MadeIn s := by
  -- the measure sinks from each call to the calls inside it
  induction hm : 8 * c.rest.length + r.rank using Nat.strongRecOn generalizing r c with
  | ind m ih =>
    intro k hk
    rcases Call.mem_all_iff.mp hk with rfl | ⟨i, hi, hk⟩
    · exact ⟨c, hc, rfl⟩
    · obtain ⟨q, d, hd, hlt, rfl⟩ := exists_callAt_of_mem_inner hc hi
      exact ih _ (hm ▸ hlt) hd q rfl k hk

namespace Call.MadeIn

variable {s : Text} {k : Call}

/-- A call in the record begins on a character boundary.  It is without an end just if its rule
does not match the text from there on. -/
theorem exists_eq_append (h : k.MadeIn s) :
    ∃ u v, s = u ++ v ∧ Text.size u = k.start ∧
      (k.reached = none ↔ (k.rule.read (.start v k.start)).found = none) := by
  obtain ⟨c, ⟨u, hs, hu⟩, hk⟩ := h
  have hstart : k.start = c.pos := by rw [hk]; rfl
  have halike : c.Alike (.start c.rest k.start) := ⟨rfl, hstart.symm⟩
  refine ⟨u, c.rest, hs, by rw [hstart, hu], ?_⟩
  rw [← Rule.found_congr halike, ← Rule.reached_callAt_eq_none_iff, ← hk]

end Call.MadeIn

end FreeForm
