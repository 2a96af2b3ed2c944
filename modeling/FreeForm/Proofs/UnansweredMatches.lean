import FreeForm.Proofs.FurthestFailure
import FreeForm.Proofs.Reached
import Mathlib.Order.Bounds.Defs

/-!
# Matches behind the furthest failure

A mismatch reports the furthest place where a rule failed, and not the furthest place that was
matched: the end of a match counts only if some rule fails at it or behind it.  Where a mark has to
follow a match, such as the equals sign of an assignment, and is missing, no rule fails there.

A reading accounts for its matches if it ends behind them or a call in it failed behind them
(`Reading.Accounts`).  A phrase does so if a call is tried behind each of its parts that leaves
nodes, which can be told from the grammar (`Phrase.accounts_read`).  The rules of which this is not
true, also where they fail, are those that `Rule.overreaches` lists, and `furthest_of_mismatch` says
what mismatches report by these rules and by the others.
-/

namespace FreeForm

namespace Call

/-- Some call failed at the offset or behind it. -/
def FailsFrom (ks : List Call) (n : Nat) : Prop := ∃ k ∈ allOf ks, k.reached = none ∧ n ≤ k.start

/-- No match ends behind all the failures. -/
def Answered (ks : List Call) : Prop :=
  ∀ k ∈ allOf ks, ∀ n, k.reached = some n → FailsFrom ks n

variable {ks js : List Call} {n : Nat}

theorem FailsFrom.left (h : FailsFrom ks n) : FailsFrom (ks ++ js) n := by
  obtain ⟨k, hk, hfail⟩ := h
  exact ⟨k, by rw [allOf_append]; exact List.mem_append_left _ hk, hfail⟩

theorem FailsFrom.right (h : FailsFrom js n) : FailsFrom (ks ++ js) n := by
  obtain ⟨k, hk, hfail⟩ := h
  exact ⟨k, by rw [allOf_append]; exact List.mem_append_right _ hk, hfail⟩

theorem answered_of_nil (h : ks = []) : Answered ks := by
  rw [h]
  exact fun k hk => absurd hk List.not_mem_nil

theorem Answered.append (hk : Answered ks) (hj : Answered js) : Answered (ks ++ js) := by
  intro k hmem n hn
  rw [allOf_append] at hmem
  rcases List.mem_append.mp hmem with hmem | hmem
  · exact (hk k hmem n hn).left
  · exact (hj k hmem n hn).right

end Call

namespace Reading

/-- The reading got to the offset: it ends at or behind it, or a call failed at or behind it. -/
def Gets (q : Reading) (n : Nat) : Prop :=
  (∃ x, q.found = some x ∧ n ≤ x.2.pos) ∨ Call.FailsFrom q.calls n

/-- The reading got to the end of every match in it. -/
def Accounts (q : Reading) : Prop :=
  ∀ k ∈ Call.allOf q.calls, ∀ n, k.reached = some n → q.Gets n

variable {q : Reading} {next : Cursor → Reading} {other : Unit → Reading} {n : Nat}

theorem Gets.failsFrom (h : q.Gets n) (hq : q.found = none) : Call.FailsFrom q.calls n := by
  rcases h with ⟨x, hx, -⟩ | h
  · rw [hq] at hx
    exact absurd hx (by simp)
  · exact h

theorem Accounts.answered (h : q.Accounts) (hq : q.found = none) : Call.Answered q.calls :=
  fun k hk n hn => (h k hk n hn).failsFrom hq

theorem accounts_of_answered (h : Call.Answered q.calls) : q.Accounts :=
  fun k hk n hn => .inr (h k hk n hn)

theorem accounts_of_nil (h : q.calls = []) : q.Accounts :=
  accounts_of_answered (Call.answered_of_nil h)

theorem andThen_of_none (hq : q.found = none) : q.andThen next = q := by
  rw [andThen, hq]

theorem andThen_of_some {ts : List Tree} {d : Cursor} (hq : q.found = some (ts, d)) :
    q.andThen next = ⟨(next d).found.map fun x => (ts ++ x.1, x.2), q.calls ++ (next d).calls⟩ := by
  rw [andThen, hq]

theorem orElse_of_none (hq : q.found = none) :
    q.orElse other = ⟨(other ()).found, q.calls ++ (other ()).calls⟩ := by
  rw [orElse, hq]

theorem orElse_of_some {x : List Tree × Cursor} (hq : q.found = some x) :
    q.orElse other = q := by
  rw [orElse, hq]

theorem Gets.mono {m : Nat} (h : q.Gets n) (hmn : m ≤ n) : q.Gets m := by
  rcases h with ⟨x, hx, hle⟩ | ⟨k, hk, hnone, hle⟩
  · exact .inl ⟨x, hx, Nat.le_trans hmn hle⟩
  · exact .inr ⟨k, hk, hnone, Nat.le_trans hmn hle⟩

/-! ### Readings that go on -/

theorem Gets.andThen_right {x : List Tree × Cursor} (hq : q.found = some x)
    (h : (next x.2).Gets n) : (q.andThen next).Gets n := by
  rw [andThen_of_some hq]
  rcases h with ⟨y, hy, hle⟩ | hfail
  · exact .inl ⟨(x.1 ++ y.1, y.2), by rw [hy, Option.map_some], hle⟩
  · exact .inr hfail.right

theorem gets_andThen_left (h : Call.FailsFrom q.calls n) : (q.andThen next).Gets n := by
  cases hq : q.found with
  | none => exact .inr (by rwa [andThen_of_none hq])
  | some x => exact .inr (by rw [andThen_of_some hq]; exact h.left)

theorem Gets.andThen (h : q.Gets n)
    (hn : ∀ x, q.found = some x → n ≤ x.2.pos → (next x.2).Gets n) : (q.andThen next).Gets n := by
  rcases h with ⟨x, hx, hle⟩ | hfail
  · exact .andThen_right hx (hn x hx hle)
  · exact gets_andThen_left hfail

/-- A reading in two parts gets to the end of a match in the first part if a call in this part
failed behind the match, or if the second part gets to the end of the first. -/
theorem Accounts.andThen (h : q.Accounts) (hn : ∀ x, q.found = some x →
    (next x.2).Accounts ∧ (Call.Answered q.calls ∨ (next x.2).Gets x.2.pos)) :
    (q.andThen next).Accounts := by
  cases hq : q.found with
  | none => rwa [andThen_of_none hq]
  | some x =>
    obtain ⟨hnext, hend⟩ := hn x hq
    intro k hk n hreached
    rw [andThen_of_some hq, Call.allOf_append] at hk
    rcases List.mem_append.mp hk with hk | hk
    · rcases h k hk n hreached with ⟨y, hy, hle⟩ | hfail
      · obtain rfl : x = y := Option.some.inj (hq.symm.trans hy)
        rcases hend with hall | hend
        · exact gets_andThen_left (hall k hk n hreached)
        · exact .andThen_right hq (hend.mono hle)
      · exact gets_andThen_left hfail
    · exact .andThen_right hq (hnext k hk n hreached)

/-! ### Readings with an alternative -/

theorem Gets.orElse (h : q.Gets n) : (q.orElse other).Gets n := by
  cases hq : q.found with
  | none => exact .inr (by rw [orElse_of_none hq]; exact (h.failsFrom hq).left)
  | some x => rwa [orElse_of_some hq]

theorem gets_orElse_right (h : ∀ x, q.found = some x → n ≤ x.2.pos) (ho : (other ()).Gets n) :
    (q.orElse other).Gets n := by
  cases hq : q.found with
  | none =>
    rw [orElse_of_none hq]
    exact ho.imp_right fun hfail => hfail.right
  | some x =>
    rw [orElse_of_some hq]
    exact .inl ⟨x, hq, h x hq⟩

/-- A reading with an alternative accounts for its matches if both readings do. -/
theorem Accounts.orElse (h : q.Accounts) (ho : q.found = none → (other ()).Accounts) :
    (q.orElse other).Accounts := by
  cases hq : q.found with
  | none =>
    intro k hk n hreached
    rw [orElse_of_none hq, Call.allOf_append] at hk
    rcases List.mem_append.mp hk with hk | hk
    · exact (h k hk n hreached).orElse
    · rw [orElse_of_none hq]
      exact (ho hq k hk n hreached).imp_right fun hfail => hfail.right
  | some x => rwa [orElse_of_some hq]

theorem gets_empty (c : Cursor) : (empty c).Gets c.pos := .inl ⟨_, rfl, Nat.le_refl _⟩

theorem accounts_empty (c : Cursor) : (empty c).Accounts := accounts_of_nil rfl

end Reading

/-- A call accounts for its matches if its right-hand side does. -/
theorem Rule.accounts_read_of_production {r : Rule} {c : Cursor}
    (h : (r.production.read Rule.read c).Accounts) : (r.read c).Accounts := by
  have hcalls := r.calls_read c
  intro k hk n hreached
  rw [hcalls, Call.allOf_singleton] at hk
  rcases Call.mem_all_iff.mp hk with rfl | ⟨i, hi, hk⟩
  · obtain ⟨x, hx, rfl⟩ := Option.map_eq_some_iff.mp hreached
    exact .inl ⟨x, hx, Nat.le_refl _⟩
  · have hmem : k ∈ Call.allOf (r.production.read Rule.read c).calls :=
      Call.mem_allOf_iff.mpr ⟨i, hi, hk⟩
    rcases h k hmem n hreached with ⟨x, hx, hle⟩ | ⟨j, hj, hfail⟩
    · have hread := r.found_read_eq c
      rw [hx, Option.map_some] at hread
      exact .inl ⟨_, hread, hle⟩
    · refine .inr ⟨j, ?_, hfail⟩
      rw [hcalls, Call.allOf_singleton]
      exact Call.mem_all_iff.mpr (.inr (Call.mem_allOf_iff.mp hj))

/-- A call that fails does so where it began, and a match ends further on. -/
theorem Rule.gets_read (r : Rule) (c : Cursor) : (r.read c).Gets c.pos := by
  cases hfound : (r.read c).found with
  | some x =>
    obtain ⟨ts, d⟩ := x
    obtain ⟨us, -, hd⟩ := Rule.derives_of_read hfound
    have hmoves : c.Moves d := .inr (Rule.taken_of_derives hd)
    exact .inl ⟨_, hfound, hmoves.pos_le⟩
  | none =>
    refine .inr ⟨r.callAt c, ?_, Rule.reached_callAt_eq_none_iff.mpr hfound, Nat.le_refl _⟩
    rw [r.calls_read, Call.allOf_singleton]
    exact Call.self_mem_all _

/-! ## Phrases -/

namespace Phrase

/-- Whether a call fails at or behind the place where the phrase is tried, if the phrase fails. -/
def gets : Phrase → Bool
  | token _ => false
  | .call _ => true
  | seq a b => a.gets && b.gets
  | alt a b => a.gets || b.gets
  | opt _ | many _ => true

/-- Whether the phrase is a lexeme that leaves no node. -/
def isMark : Phrase → Bool
  | token _ => true
  | _ => false

/-- Whether the phrase accounts for its matches, if the rules do that `ok` tells. -/
def accounts (ok : Rule → Bool) : Phrase → Bool
  | token _ => true
  | .call r => ok r
  | seq a b => a.accounts ok && b.accounts ok && (a.isMark || b.gets)
  | alt a b => a.accounts ok && b.accounts ok
  | opt a | many a => a.accounts ok

variable {skip : Cursor → Cursor} {a b : Phrase} {c : Cursor} {x : List Tree × Cursor}
  {ok : Rule → Bool}

theorem pos_le_of_found (hs : Spacing skip) (hp : ∀ p ∈ a.lexemes, p.consumes)
    (h : (a.read Rule.read skip c).found = some x) : c.pos ≤ x.2.pos :=
  ((derives_of_read (fun _ _ _ _ => Rule.derives_of_read) a h).moves hs hp).pos_le

theorem calls_of_isMark (h : a.isMark) : (a.read Rule.read skip c).calls = [] := by
  cases a with
  | token p => rfl
  | _ => exact absurd h Bool.false_ne_true

theorem gets_read (hs : Spacing skip) (hp : ∀ p ∈ a.lexemes, p.consumes) (ha : a.gets)
    (c : Cursor) : (a.read Rule.read skip c).Gets c.pos := by
  induction a generalizing c with
  | token p => exact absurd ha Bool.false_ne_true
  | call r => exact r.gets_read c
  | seq a b iha ihb =>
    simp only [lexemes, List.mem_append] at hp
    obtain ⟨ha, hb⟩ := Bool.and_eq_true_iff.mp ha
    refine (iha (fun p h => hp p (.inl h)) ha c).andThen fun x _ hle => ?_
    have hskip := (Cursor.moves_skip hs x.2).pos_le
    exact (ihb (fun p h => hp p (.inr h)) hb (skip x.2)).mono (Nat.le_trans hle hskip)
  | alt a b iha ihb =>
    simp only [lexemes, List.mem_append] at hp
    have hpa := fun p h => hp p (.inl h)
    rcases Bool.or_eq_true_iff.mp ha with ha | hb
    · exact (iha hpa ha c).orElse
    · exact Reading.gets_orElse_right (fun x hx => pos_le_of_found hs hpa hx)
        (ihb (fun p h => hp p (.inr h)) hb c)
  | opt a ih =>
    exact Reading.gets_orElse_right (fun x hx => pos_le_of_found (a := a) hs hp hx)
      (Reading.gets_empty c)
  | many a ih =>
    refine Reading.gets_orElse_right (fun x hx => ?_) (Reading.gets_empty c)
    exact pos_le_of_found (a := many a) hs hp (Reading.found_orElse_of_some hx _)

/-- The rounds of a repetition never fail. -/
theorem gets_readRounds (hs : Spacing skip) (hp : ∀ p ∈ a.lexemes, p.consumes) (n : Nat)
    (c : Cursor) :
    (readRounds (fun d => a.read Rule.read skip (skip d)) n c).Gets c.pos := by
  obtain ⟨x, hx⟩ := exists_found_readRounds (fun d => a.read Rule.read skip (skip d)) n c
  have hmany := derives_of_readRounds
    (fun _ _ _ h => derives_of_read (fun _ _ _ _ => Rule.derives_of_read) a h) n .never hx
  exact .inl ⟨x, hx, (hmany.moves hs hp).pos_le⟩

/-- A phrase accounts for its matches if the rules called in it do, and if in every sequence a call
is tried behind each part that leaves nodes. -/
theorem accounts_read (hs : Spacing skip) (hp : ∀ p ∈ a.lexemes, p.consumes)
    (hok : ∀ r, ok r → ∀ c, (r.read c).Accounts) (ha : a.accounts ok) (c : Cursor) :
    (a.read Rule.read skip c).Accounts := by
  induction a generalizing c with
  | token p => exact Reading.accounts_of_nil rfl
  | call r => exact hok r ha c
  | seq a b iha ihb =>
    simp only [lexemes, List.mem_append] at hp
    simp only [accounts, Bool.and_eq_true, Bool.or_eq_true] at ha
    obtain ⟨⟨ha, hb⟩, hend⟩ := ha
    have hpb := fun p h => hp p (.inr h)
    refine (iha (fun p h => hp p (.inl h)) ha c).andThen fun x hx => ?_
    refine ⟨ihb hpb hb (skip x.2), ?_⟩
    rcases hend with hmark | hgets
    · exact .inl (Call.answered_of_nil (calls_of_isMark hmark))
    · exact .inr ((gets_read hs hpb hgets (skip x.2)).mono (Cursor.moves_skip hs x.2).pos_le)
  | alt a b iha ihb =>
    simp only [lexemes, List.mem_append] at hp
    obtain ⟨ha, hb⟩ := Bool.and_eq_true_iff.mp ha
    exact (iha (fun p h => hp p (.inl h)) ha c).orElse fun _ =>
      ihb (fun p h => hp p (.inr h)) hb c
  | opt a ih => exact (ih hp ha c).orElse fun _ => Reading.accounts_empty c
  | many a ih =>
    have hrounds : ∀ n c, (readRounds (fun d => a.read Rule.read skip (skip d)) n c).Accounts := by
      intro n
      induction n with
      | zero => exact fun c => Reading.accounts_empty c
      | succ n hn =>
        intro c
        refine ((ih hp ha (skip c)).andThen fun x _ => ⟨hn x.2, .inr ?_⟩).orElse fun _ =>
          Reading.accounts_empty c
        exact gets_readRounds (a := a) hs hp n x.2
    refine ((ih hp ha c).andThen fun x _ => ⟨hrounds _ x.2, .inr ?_⟩).orElse fun _ =>
      Reading.accounts_empty c
    exact gets_readRounds (a := a) hs hp _ x.2

end Phrase

/-! ## Rules -/

/-- Whether a right-hand side accounts for its matches, if the rules do that `ok` tells. -/
def Production.accounts (ok : Rule → Bool) : Production → Bool
  | lexeme _ => true
  | compact a | spaced a => a.accounts ok

namespace Rule

open Phrase

variable {r : Rule} {c : Cursor}

/-- The rules that account for their matches, as far as calls nested less than `n` deep tell. -/
def accountsWithin : Nat → Rule → Bool
  | 0, _ => false
  | n + 1, r => r.production.accounts (accountsWithin n)

theorem accounts_of_within {n : Nat} (h : r.accountsWithin n) (c : Cursor) :
    (r.read c).Accounts := by
  induction n generalizing r c with
  | zero => exact absurd h Bool.false_ne_true
  | succ n ih =>
    have hok : ∀ q, accountsWithin n q → ∀ d, (q.read d).Accounts := fun q hq d => ih hq d
    have hp : ∀ p ∈ r.production.lexemes, p.consumes := fun p => consumes_of_mem_lexemes
    rw [accountsWithin] at h
    refine accounts_read_of_production ?_
    cases hr : r.production with
    | lexeme p => exact Reading.accounts_of_nil rfl
    | compact a =>
      rw [hr] at h hp
      exact Phrase.accounts_read .compact hp hok h c
    | spaced a =>
      rw [hr] at h hp
      exact Phrase.accounts_read .spaced hp hok h c

/-- The same for a phrase of a right-hand side. -/
theorem accounts_phrase {skip : Cursor → Cursor} {a : Phrase} (hs : Spacing skip)
    (hp : ∀ p ∈ a.lexemes, p.consumes) (ha : a.accounts (accountsWithin 4)) (c : Cursor) :
    (a.read Rule.read skip c).Accounts :=
  Phrase.accounts_read hs hp (fun _ hq => accounts_of_within hq) ha c

theorem found_production_eq_none_iff :
    (r.read c).found = none ↔ (r.production.read Rule.read c).found = none := by
  rw [r.found_read_eq, Option.map_eq_none_iff]

end Rule

/-! ### Failed runs of the other rules -/

namespace Phrase

variable {skip : Cursor → Cursor} {a b : Phrase} {c : Cursor}

theorem accounts_seq_of_none (ha : (a.read Rule.read skip c).found = none)
    (h : (a.read Rule.read skip c).Accounts) : ((seq a b).read Rule.read skip c).Accounts := by
  rwa [read, Reading.andThen_of_none ha]

/-- A sequence that fails accounts for its matches if both parts do, the second where it fails. -/
theorem accounts_seq (hs : Spacing skip) (ha : (a.read Rule.read skip c).Accounts)
    (hp : ∀ p ∈ b.lexemes, p.consumes) (hb : b.gets)
    (h : ∀ d, (b.read Rule.read skip d).found = none → (b.read Rule.read skip d).Accounts)
    (hfail : ((seq a b).read Rule.read skip c).found = none) :
    ((seq a b).read Rule.read skip c).Accounts := by
  refine ha.andThen fun x hx => ⟨h (skip x.2) ?_, .inr ?_⟩
  · rw [read, Reading.found_andThen_eq, hx, Option.bind_some, Option.map_eq_none_iff] at hfail
    exact hfail
  · exact (gets_read hs hp hb (skip x.2)).mono (Cursor.moves_skip hs x.2).pos_le

/-- Where a sequence fails whose second part never does, the first part fails. -/
theorem found_eq_none_of_seq (hb : ∀ d, (b.read Rule.read skip d).reached.isSome)
    (h : ((seq a b).read Rule.read skip c).found = none) :
    (a.read Rule.read skip c).found = none := by
  have hsame := isSome_reached_seq hb a c
  rw [Reading.reached, Reading.reached, Option.isSome_map, Option.isSome_map, h] at hsame
  exact Option.isNone_iff_eq_none.mp (Option.isSome_eq_false_iff.mp hsame.symm)

theorem found_alt_eq_none_iff : ((alt a b).read Rule.read skip c).found = none ↔
    (a.read Rule.read skip c).found = none ∧ (b.read Rule.read skip c).found = none := by
  rw [read, Reading.found_orElse_eq, Option.or_eq_none_iff]

end Phrase

namespace Rule

open Phrase

variable {c : Cursor}

/-- An integer fails at its digits, and so does the float tried before it. -/
theorem number_accounts (h : (number.read c).found = none) : (number.read c).Accounts := by
  have hsign := accounts_phrase (a := .opt (.call sign)) .compact (by decide) (by decide) c
  refine accounts_read_of_production
    (accounts_seq .compact hsign (by decide) (by decide) (fun d hd => ?_)
      (found_production_eq_none_iff.mp h))
  obtain ⟨-, hint⟩ := found_alt_eq_none_iff.mp hd
  have hdigits : (digits.read d).found = none :=
    found_eq_none_of_seq (isSome_reached_opt _) (found_production_eq_none_iff.mp hint)
  have hfloat : (float.read d).Accounts :=
    accounts_read_of_production (accounts_seq_of_none hdigits (accounts_of_within (n := 1) rfl d))
  exact hfloat.orElse fun _ => accounts_of_within (n := 3) (by decide) d

theorem numbers_accounts (h : (numbers.read c).found = none) : (numbers.read c).Accounts := by
  have hnumber := found_eq_none_of_seq (isSome_reached_many _) (found_production_eq_none_iff.mp h)
  exact accounts_read_of_production (accounts_seq_of_none hnumber (number_accounts hnumber))

theorem atomicValue_accounts (h : (atomicValue.read c).found = none) :
    (atomicValue.read c).Accounts := by
  obtain ⟨-, h⟩ := found_alt_eq_none_iff.mp (found_production_eq_none_iff.mp h)
  obtain ⟨-, hnumber⟩ := found_alt_eq_none_iff.mp h
  have hboolean : (boolean.read c).Accounts := accounts_of_within (n := 3) (by decide) c
  have hstring : (string.read c).Accounts := accounts_of_within (n := 1) (by decide) c
  exact accounts_read_of_production
    (hboolean.orElse fun _ => hstring.orElse fun _ => number_accounts hnumber)

/-- Where neither an integer nor a name is found, there is no lower bound of a region either. -/
theorem arrayIndex_accounts (h : (arrayIndex.read c).found = none) :
    (arrayIndex.read c).Accounts := by
  obtain ⟨-, hrest⟩ := found_alt_eq_none_iff.mp (found_production_eq_none_iff.mp h)
  have hlower : (lowerBound.read c).found = none := found_production_eq_none_iff.mpr hrest
  have hopt := accounts_phrase (a := .opt (.call lowerBound)) .spaced (by decide) (by decide) c
  have hregion : (arrayIndexRegion.read c).Accounts := by
    refine accounts_read_of_production (hopt.andThen fun x _ => ⟨?_, .inl ?_⟩)
    · exact accounts_phrase .spaced (by decide) (by decide) (Cursor.skipGap x.2)
    · have hbound := (accounts_of_within (r := lowerBound) (n := 4) (by decide) c).answered hlower
      rw [Phrase.read, Phrase.read, Reading.orElse_of_none hlower]
      exact hbound.append (Call.answered_of_nil rfl)
  have hname := accounts_phrase (a := anyOf integer [name]) .spaced (by decide) (by decide) c
  exact accounts_read_of_production (hregion.orElse fun _ => hname)

/-- Where no name is found, there is no indexed array either. -/
theorem accessedVariable_accounts (h : (accessedVariable.read c).found = none) :
    (accessedVariable.read c).Accounts := by
  have hsign := accounts_phrase (a := .opt (.call sign)) .spaced (by decide) (by decide) c
  refine accounts_read_of_production
    (accounts_seq .spaced hsign (by decide) (by decide) (fun d hd => ?_)
      (found_production_eq_none_iff.mp h))
  obtain ⟨-, hname⟩ := found_alt_eq_none_iff.mp hd
  have haccounts : (name.read d).Accounts := accounts_of_within (n := 1) rfl d
  have hindexed : (indexedArray.read d).Accounts :=
    accounts_read_of_production (accounts_seq_of_none hname haccounts)
  exact hindexed.orElse fun _ => haccounts

/-- A call fails at its keyword or at the name behind it. -/
theorem subroutineCall_accounts (h : (subroutineCall.read c).found = none) :
    (subroutineCall.read c).Accounts := by
  have hkeyword : (callKeyword.read c).Accounts := accounts_of_within (n := 1) rfl c
  refine accounts_read_of_production
    (accounts_seq .spaced hkeyword (by decide) (by decide) (fun d hd => ?_)
      (found_production_eq_none_iff.mp h))
  have hname := found_eq_none_of_seq (isSome_reached_opt _) hd
  exact accounts_seq_of_none hname (accounts_of_within (n := 1) rfl d)

/-- Whether a failed run by the rule may match something behind all failures, because a mark has to
follow a match in the rule or in a rule that it tries. -/
def overreaches : Rule → Bool
  | float | arrayIndexRegion | indexedArray | inPlaceArray | functionCall | valueReturningCode
  | arithmeticStatement | relationalStatement | logicalStatement | argument | arguments
  | assignment => true
  | _ => false

/-- A failed run of any other rule accounts for its matches. -/
theorem accounts_of_found_none {r : Rule} (hr : r.overreaches = false)
    (h : (r.read c).found = none) : (r.read c).Accounts := by
  have hcases : r.accountsWithin 4 ∨ r = number ∨ r = numbers ∨ r = atomicValue ∨
      r = arrayIndex ∨ r = accessedVariable ∨ r = subroutineCall := by
    revert hr
    cases r <;> decide
  rcases hcases with hr | rfl | rfl | rfl | rfl | rfl | rfl
  · exact accounts_of_within hr c
  · exact number_accounts h
  · exact numbers_accounts h
  · exact atomicValue_accounts h
  · exact arrayIndex_accounts h
  · exact accessedVariable_accounts h
  · exact subroutineCall_accounts h

end Rule

/-! ## What a mismatch reports -/

/-- A parse of the text by the rule ends in a mismatch that reports the offset. -/
def Rule.GivesUpAt (r : Rule) (s : Text) (f : Nat) : Prop :=
  ∃ o e q es, parse s r o = .error e ∧ e.fault = .mismatch q f es

/-- Whether a parse by the rule ends in a mismatch although a call matched something behind the
place that is reported. -/
def Rule.overreachesOn (r : Rule) (s : Text) : Bool :=
  match parse s r {} with
  | .error ⟨.mismatch _ f _, _, _⟩ =>
    (r.calls s).any fun k => k.reached.any fun n => decide (f < n)
  | _ => false

namespace Rule

variable {r : Rule} {s : Text} {f : Nat}

theorem isGreatest_of_givesUpAt (h : r.GivesUpAt s f) :
    IsGreatest {n | ∃ k ∈ r.calls s, k.reached = none ∧ k.start = n} f := by
  obtain ⟨o, e, q, es, hparse, he⟩ := h
  obtain ⟨-, -, -, g, hg, hne, rfl, -⟩ := exists_frontier_of_mismatch hparse he
  obtain ⟨x, hx⟩ := List.exists_mem_of_ne_nil _ hne
  constructor
  · rcases hg.mem_rules x hx with ⟨hmem, -⟩ | ⟨k, hk, -, hfail⟩
    · exact absurd hmem List.not_mem_nil
    · exact ⟨k, hk, hfail⟩
  · rintro n ⟨k, hk, hreached, rfl⟩
    exact (hg.failed k hk hreached).1

theorem reached_le_of_givesUpAt (hr : r.overreaches = false) (h : r.GivesUpAt s f) :
    ∀ k ∈ r.calls s, ∀ n, k.reached = some n → n ≤ f := by
  obtain ⟨-, hle⟩ := isGreatest_of_givesUpAt h
  obtain ⟨o, e, q, es, hparse, he⟩ := h
  obtain ⟨-, -, hnone, -⟩ := exists_frontier_of_mismatch hparse he
  have hanswered := (accounts_of_found_none hr hnone).answered hnone
  intro k hk n hn
  obtain ⟨j, hj, hfail, hnj⟩ := hanswered k hk n hn
  exact Nat.le_trans hnj (hle ⟨j, hj, hfail, rfl⟩)

theorem lt_reached_of_overreachesOn (h : r.overreachesOn s) :
    ∃ f, r.GivesUpAt s f ∧ ∃ k ∈ r.calls s, ∃ n, k.reached = some n ∧ f < n := by
  unfold overreachesOn at h
  split at h
  · rename_i q f es source span hparse
    obtain ⟨k, hk, hany⟩ := List.any_eq_true.mp h
    obtain ⟨n, hn, hlt⟩ := (Option.any_eq_true ..).mp hany
    exact ⟨f, ⟨{}, _, q, es, hparse, rfl⟩, k, hk, n, hn, of_decide_eq_true hlt⟩
  · exact absurd h Bool.false_ne_true

/-- A digit, a name, or the beginning of an array of strings. -/
theorem exists_overreachesOn (h : r.overreaches) :
    r.overreachesOn ['1'] ∨ r.overreachesOn ['x'] ∨ r.overreachesOn ['(', '/', '"', '"'] := by
  revert h
  cases r <;> decide +kernel

end Rule

/-- **A mismatch reports the furthest place where a rule failed.**  For most start rules this is
the furthest place that the run got to: no match of any rule ends behind it.  The others are those
that `Rule.overreaches` lists, and for each of them there is a text on which a match ended behind
the place reported. -/
theorem furthest_of_mismatch (r : Rule) :
    (∀ s f, r.GivesUpAt s f →
      IsGreatest {n | ∃ k ∈ r.calls s, k.reached = none ∧ k.start = n} f) ∧
    (r.overreaches = false ↔ ∀ s f, r.GivesUpAt s f →
      ∀ k ∈ r.calls s, ∀ n, k.reached = some n → n ≤ f) := by
  refine ⟨fun s f h => Rule.isGreatest_of_givesUpAt h, fun hr s f h =>
    Rule.reached_le_of_givesUpAt hr h, fun h => ?_⟩
  rw [Bool.eq_false_iff]
  intro hr
  have overreach : ∀ s, ¬r.overreachesOn s := by
    intro s hs
    obtain ⟨f, hf, k, hk, n, hn, hlt⟩ := Rule.lt_reached_of_overreachesOn hs
    exact absurd (h s f hf k hk n hn) (Nat.not_le.mpr hlt)
  rcases Rule.exists_overreachesOn hr with hs | hs | hs
  · exact overreach _ hs
  · exact overreach _ hs
  · exact overreach _ hs

/-- A call without a name: the furthest failure is where the name should stand. -/
theorem furthest_of_nameless_call :
    let s : Text := ['c', 'a', 'l', 'l', ' ', '1']
    Rule.subroutineCall.GivesUpAt s 5 ∧
      (∃ k ∈ Rule.subroutineCall.calls s, k.reached = none ∧ k.start = 5) ∧
      ∀ k ∈ Rule.subroutineCall.calls s, ∀ n, k.reached = some n → n ≤ 5 := by
  intro s
  let o : Options := {}
  let e : ParseError := ⟨.mismatch .subroutineCall 5 [.name], ⟨o.sourceName, s⟩, ⟨5, 5⟩⟩
  have he : parse s .subroutineCall o = .error e := by decide +kernel
  have hs : Rule.subroutineCall.GivesUpAt s 5 := ⟨o, e, _, _, he, rfl⟩
  obtain ⟨hgreatest, hreach⟩ := furthest_of_mismatch .subroutineCall
  exact ⟨hs, (hgreatest s 5 hs).1, hreach.mp rfl s 5 hs⟩

/-- An assignment of which only the variable is there: its name is matched, and the mismatch is
reported in front of it. -/
theorem furthest_lt_reached_of_lone_name :
    let o : Options := {}
    let s : Text := ['x']
    parse s .assignment o =
        .error ⟨.mismatch .assignment 0 [.assignment], ⟨o.sourceName, s⟩, ⟨0, 0⟩⟩ ∧
      ∃ k ∈ Rule.assignment.calls s, k.rule = .name ∧ k.start = 0 ∧ k.reached = some 1 := by
  decide +kernel

end FreeForm
