import FreeForm.Proofs.Determined
import FreeForm.Proofs.Relocation

/-!
# Runs in lockstep

Two runs on two texts go in lockstep if their places stay related: at related places the same
lexemes apply, and passing a lexeme or noise leads to related places again (`Lockstep`).  Then
both runs make the same calls, take the same alternatives and find the same trees, up to where
the offsets of the one text lie in the other (`Lockstep.matches_read`).

So what is to be shown of two texts that should be read alike is about lexemes and noise only; no
rule of the grammar and no alternative tried in vain has to be looked at.
-/

namespace FreeForm

/-- Related places in two texts, of which the second has its offsets where `f` puts those of the
first. -/
structure Lockstep (f : Nat → Nat) (R : Cursor → Cursor → Prop) : Prop where
  pos : ∀ {c c'}, R c c' → c'.pos = f c.pos
  stop : ∀ {c c'}, R c c' → c'.stop = f c.stop
  token : ∀ {c c'}, R c c' → ∀ {r : Rule} {p : Pattern}, p ∈ r.production.lexemes →
    Option.Rel R (c.token? p) (c'.token? p)
  gap : ∀ {c c'}, R c c' → R c.skipGap c'.skipGap

/-- What two runs in lockstep return: the same trees and calls, up to their offsets, and related
places. -/
structure Reading.Matches (f : Nat → Nat) (R : Cursor → Cursor → Prop) (q q' : Reading) :
    Prop where
  found : Option.Rel (fun x y => y.1 = x.1.map (Tree.relocate f) ∧ R x.2 y.2) q.found q'.found
  calls : q'.calls = q.calls.map (Call.relocate f)

variable {f : Nat → Nat} {R : Cursor → Cursor → Prop}

namespace Reading

variable {q q' : Reading}

theorem Matches.cases (h : q.Matches f R q') :
    (q.found = none ∧ q'.found = none) ∨
      ∃ ts c c', q.found = some (ts, c) ∧ q'.found = some (ts.map (Tree.relocate f), c') ∧
        R c c' := by
  have hf := h.found
  cases hq : q.found with
  | none =>
    cases hq' : q'.found with
    | none => exact .inl ⟨rfl, rfl⟩
    | some y => rw [hq, hq'] at hf; cases hf
  | some x =>
    cases hq' : q'.found with
    | none => rw [hq, hq'] at hf; cases hf
    | some y =>
      rw [hq, hq'] at hf
      cases hf with
      | some h => exact .inr ⟨x.1, x.2, y.2, rfl, by rw [← h.1], h.2⟩

theorem matches_fail : fail.Matches f R fail := ⟨.none, rfl⟩

theorem matches_empty {c c' : Cursor} (h : R c c') : (empty c).Matches f R (empty c') :=
  ⟨.some ⟨rfl, h⟩, rfl⟩

theorem matches_ofToken {p : Pattern} {c c' : Cursor}
    (h : Option.Rel R (c.token? p) (c'.token? p)) : (ofToken p c).Matches f R (ofToken p c') := by
  refine ⟨?_, rfl⟩
  rw [ofToken, ofToken]
  generalize c.token? p = x at h
  generalize c'.token? p = y at h
  cases h with
  | none => exact .none
  | some h => exact .some ⟨rfl, h⟩

theorem Matches.andThen {next next' : Cursor → Reading} (h : q.Matches f R q')
    (k : ∀ ts c c', q.found = some (ts, c) → q'.found = some (ts.map (Tree.relocate f), c') →
      R c c' → (next c).Matches f R (next' c')) :
    (q.andThen next).Matches f R (q'.andThen next') := by
  rcases h.cases with ⟨hq, hq'⟩ | ⟨ts, c, c', hq, hq', hc⟩
  · simpa only [Reading.andThen, hq, hq'] using h
  · have hn := k ts c c' hq hq' hc
    simp only [Reading.andThen, hq, hq']
    refine ⟨?_, by rw [h.calls, hn.calls, List.map_append]⟩
    rcases hn.cases with ⟨hk, hk'⟩ | ⟨us, d, d', hk, hk', hd⟩
    · rw [hk, hk']
      exact .none
    · rw [hk, hk']
      exact .some ⟨List.map_append.symm, hd⟩

theorem Matches.orElse {other other' : Unit → Reading} (h : q.Matches f R q')
    (k : (other ()).Matches f R (other' ())) :
    (q.orElse other).Matches f R (q'.orElse other') := by
  rcases h.cases with ⟨hq, hq'⟩ | ⟨ts, c, c', hq, hq', -⟩
  · simp only [Reading.orElse, hq, hq']
    exact ⟨k.found, by rw [h.calls, k.calls, List.map_append]⟩
  · simpa only [Reading.orElse, hq, hq'] using h

theorem Matches.close (hl : Lockstep f R) (h : q.Matches f R q') (r : Rule) (start : Nat) :
    (q.close r start).Matches f R (q'.close r (f start)) := by
  rcases h.cases with ⟨hq, hq'⟩ | ⟨ts, c, c', hq, hq', hc⟩
  · simp only [Reading.close, hq, hq', Option.map_none]
    exact ⟨.none, by rw [List.map_singleton, Call.relocate_mk, h.calls, Option.map_none]⟩
  · simp only [Reading.close, hq, hq', Option.map_some]
    refine ⟨.some ⟨?_, hc⟩, ?_⟩
    · rw [List.map_singleton, Tree.relocate_mk, Span.relocate, hl.stop hc]
    · rw [List.map_singleton, Call.relocate_mk, h.calls, Option.map_some, hl.pos hc]

end Reading

namespace Phrase

/-- Whether every round of a repetition takes at least one character. -/
def advances : Phrase → Bool
  | token _ | .call _ => true
  | seq a b | alt a b => a.advances && b.advances
  | opt a => a.advances
  | many a => a.advances && a.consumes

/-- Rounds in lockstep.  A run with more rounds to go than characters left ends with a round that
fails, so the bounds, which are lengths of different texts, make no difference. -/
theorem matches_readRounds {step step' : Cursor → Reading} (hs : Advancing step)
    (hs' : Advancing step') (h : ∀ c c', R c c' → (step c).Matches f R (step' c')) (m n : Nat)
    {c c' : Cursor} (hc : R c c') (hm : c.rest.length < m) (hn : c'.rest.length < n) :
    (readRounds step m c).Matches f R (readRounds step' n c') := by
  induction m generalizing n c c' with
  | zero => exact absurd hm (Nat.not_lt_zero _)
  | succ m ih =>
    obtain ⟨n, rfl⟩ : ∃ k, n = k + 1 := ⟨n - 1, by omega⟩
    refine .orElse (.andThen (h c c' hc) fun ts d d' hd hd' hr => ?_) (Reading.matches_empty hc)
    have hlt := hs c _ hd
    have hlt' := hs' c' _ hd'
    simp only at hlt hlt'
    exact ih n hr (by omega) (by omega)

variable {call call' : Rule → Cursor → Reading} {skip : Cursor → Cursor}

/-- A phrase is read in lockstep if the calls it makes are. -/
theorem matches_read (hl : Lockstep f R) (hs : Spacing skip) (hc : Shrinking call)
    (hc' : Shrinking call')
    (h : ∀ r c c', R c c' → (call r c).Matches f R (call' r c')) (a : Phrase)
    (hp : ∀ p ∈ a.lexemes, ∃ r : Rule, p ∈ r.production.lexemes) (ha : a.advances) :
    ∀ c c', R c c' → (a.read call skip c).Matches f R (a.read call' skip c') := by
  have hskip : ∀ c c', R c c' → R (skip c) (skip c') := by
    intro c c' hr
    cases hs with
    | compact => exact hr
    | spaced => exact hl.gap hr
  induction a with
  | token p =>
    intro c c' hr
    obtain ⟨r, hpr⟩ := hp p (List.mem_singleton_self p)
    exact Reading.matches_ofToken (hl.token hr hpr)
  | call r => exact h r
  | seq a b iha ihb =>
    intro c c' hr
    simp only [advances, Bool.and_eq_true] at ha
    refine .andThen (iha (fun p h => hp p (List.mem_append_left _ h)) ha.1 c c' hr) ?_
    intro ts d d' _ _ hd
    exact ihb (fun p h => hp p (List.mem_append_right _ h)) ha.2 _ _ (hskip d d' hd)
  | alt a b iha ihb =>
    intro c c' hr
    simp only [advances, Bool.and_eq_true] at ha
    exact .orElse (iha (fun p h => hp p (List.mem_append_left _ h)) ha.1 c c' hr)
      (ihb (fun p h => hp p (List.mem_append_right _ h)) ha.2 c c' hr)
  | opt a ih =>
    intro c c' hr
    exact .orElse (ih hp ha c c' hr) (Reading.matches_empty hr)
  | many a ih =>
    intro c c' hr
    simp only [advances, Bool.and_eq_true] at ha
    have hround := ih hp ha.1
    have hadv := advancing_of_shrinking hc hs ha.2
    have hadv' := advancing_of_shrinking hc' hs ha.2
    refine .orElse (.andThen (hround c c' hr) fun ts d d' hd hd' hdd => ?_)
      (Reading.matches_empty hr)
    have hlt := lt_of_read hc (skipping_of_spacing hs) ha.2 hd
    have hlt' := lt_of_read hc' (skipping_of_spacing hs) ha.2 hd'
    exact matches_readRounds hadv hadv' (fun e e' he => hround _ _ (hskip e e' he)) _ _ hdd hlt hlt'

end Phrase

/-- Whether every round of a repetition in a right-hand side takes at least one character. -/
def Production.advances : Production → Bool
  | lexeme _ => true
  | compact a | spaced a => a.advances

theorem Rule.advances_production (r : Rule) : r.production.advances := by cases r <;> decide

namespace Lockstep

theorem matches_production (hl : Lockstep f R) {call call' : Rule → Cursor → Reading}
    (hc : Phrase.Shrinking call) (hc' : Phrase.Shrinking call')
    (h : ∀ r c c', R c c' → (call r c).Matches f R (call' r c')) (r : Rule) {c c' : Cursor}
    (hr : R c c') :
    (r.production.read call c).Matches f R (r.production.read call' c') := by
  have ha := r.advances_production
  have hp : ∀ p ∈ r.production.lexemes, ∃ q : Rule, p ∈ q.production.lexemes :=
    fun p hp => ⟨r, hp⟩
  cases hprod : r.production with
  | lexeme p =>
    have hmem : p ∈ r.production.lexemes := by rw [hprod]; exact List.mem_singleton_self p
    exact Reading.matches_ofToken (hl.token hr hmem)
  | compact a =>
    rw [hprod] at ha hp
    exact Phrase.matches_read hl .compact hc hc' h a hp ha c c' hr
  | spaced a =>
    rw [hprod] at ha hp
    exact Phrase.matches_read hl .spaced hc hc' h a hp ha c c' hr

theorem matches_readWithin (hl : Lockstep f R) (n : Nat) : ∀ (r : Rule) (c c' : Cursor), R c c' →
    (Rule.readWithin n r c).Matches f R (Rule.readWithin n r c') := by
  induction n with
  | zero => exact fun _ _ _ _ => Reading.matches_fail
  | succ n ih =>
    intro r c c' hr
    have hshrink := Rule.shrinking_readWithin n
    rw [Rule.readWithin, Rule.readWithin, hl.pos hr]
    exact (hl.matches_production hshrink hshrink ih r hr).close hl r c.pos

/-- **Runs in lockstep** make the same calls and find the same trees, up to their offsets. -/
theorem matches_read (hl : Lockstep f R) (r : Rule) {c c' : Cursor} (hr : R c c') :
    (r.read c).Matches f R (r.read c') := by
  have hrank := r.rank_lt_eight
  have hm := hl.matches_readWithin (8 * (c.rest.length + c'.rest.length) + 8) r c c' hr
  rwa [Rule.readWithin_eq_read (by omega), Rule.readWithin_eq_read (by omega)] at hm

/-- What is found at a place is found at the related place. -/
theorem found_read (hl : Lockstep f R) {r : Rule} {c c' d : Cursor} {ts : List Tree} (hr : R c c')
    (h : (r.read c).found = some (ts, d)) :
    ∃ d', (r.read c').found = some (ts.map (Tree.relocate f), d') ∧ R d d' := by
  rcases (hl.matches_read r hr).cases with ⟨hn, -⟩ | ⟨us, e, e', hf, hf', he⟩
  · rw [hn] at h
    exact absurd h (by simp)
  · rw [h, Option.some.injEq, Prod.mk.injEq] at hf
    obtain ⟨rfl, rfl⟩ := hf
    exact ⟨e', hf', he⟩

end Lockstep

end FreeForm
