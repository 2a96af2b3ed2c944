import FreeForm.Locate
import FreeForm.Reading.Depth
import FreeForm.Tree.Nodes

/-!
# Derivations

`Derives skip a c ts d`: the phrase `a` leads from the place `c` to the place `d` and leaves the
trees `ts`.  A derivation is what remains of a successful run when the alternatives that were
tried in vain are forgotten, so what holds of all derivations holds of every tree that a parse
returns, and it is shown by one induction with a case for each form of phrases.

* `derives_of_read`: what a rule reads is derived.
* `Tree.GrownIn`: a tree that a derivation inside a text leaves.  Every node of a tree that
  `parse` or `locate` returns is such a tree (`grownIn_of_parse`, `grownIn_of_mem_locate`).
-/

namespace FreeForm

/-- `a` leads from `c` to `d` and leaves `ts`; `skip` passes what stands between two parts. -/
inductive Derives : (Cursor → Cursor) → Phrase → Cursor → List Tree → Cursor → Prop
  | token {skip : Cursor → Cursor} {p : Pattern} {c d : Cursor} (h : c.token? p = some d) :
    Derives skip (.token p) c [] d
  | lexeme {skip : Cursor → Cursor} {r : Rule} {p : Pattern} {c d : Cursor}
    (hr : r.production = .lexeme p) (h : c.token? p = some d) :
    Derives skip (.call r) c [⟨r, ⟨c.pos, d.stop⟩, []⟩] d
  | compact {skip : Cursor → Cursor} {r : Rule} {a : Phrase} {c d : Cursor} {ts : List Tree}
    (hr : r.production = .compact a) (h : Derives id a c ts d) :
    Derives skip (.call r) c [⟨r, ⟨c.pos, d.stop⟩, ts⟩] d
  | spaced {skip : Cursor → Cursor} {r : Rule} {a : Phrase} {c d : Cursor} {ts : List Tree}
    (hr : r.production = .spaced a) (h : Derives Cursor.skipGap a c ts d) :
    Derives skip (.call r) c [⟨r, ⟨c.pos, d.stop⟩, ts⟩] d
  | seq {skip : Cursor → Cursor} {a b : Phrase} {c d e : Cursor} {ts us : List Tree}
    (ha : Derives skip a c ts d) (hb : Derives skip b (skip d) us e) :
    Derives skip (.seq a b) c (ts ++ us) e
  | left {skip : Cursor → Cursor} {a b : Phrase} {c d : Cursor} {ts : List Tree}
    (ha : Derives skip a c ts d) : Derives skip (.alt a b) c ts d
  | right {skip : Cursor → Cursor} {a b : Phrase} {c d : Cursor} {ts : List Tree}
    (hb : Derives skip b c ts d) : Derives skip (.alt a b) c ts d
  | absent {skip : Cursor → Cursor} {a : Phrase} {c : Cursor} : Derives skip (.opt a) c [] c
  | present {skip : Cursor → Cursor} {a : Phrase} {c d : Cursor} {ts : List Tree}
    (ha : Derives skip a c ts d) : Derives skip (.opt a) c ts d
  | never {skip : Cursor → Cursor} {a : Phrase} {c : Cursor} : Derives skip (.many a) c [] c
  | once {skip : Cursor → Cursor} {a : Phrase} {c d : Cursor} {ts : List Tree}
    (ha : Derives skip a c ts d) : Derives skip (.many a) c ts d
  | again {skip : Cursor → Cursor} {a : Phrase} {c d e : Cursor} {ts us : List Tree}
    (hm : Derives skip (.many a) c ts d) (ha : Derives skip a (skip d) us e) :
    Derives skip (.many a) c (ts ++ us) e

/-- What the right-hand side of a rule derives. -/
def Production.Derives : Production → Cursor → List Tree → Cursor → Prop
  | lexeme p, c, ts, d => ts = [] ∧ c.token? p = some d
  | compact a, c, ts, d => FreeForm.Derives id a c ts d
  | spaced a, c, ts, d => FreeForm.Derives Cursor.skipGap a c ts d

/-- A call derives one tree, whose children its right-hand side derives. -/
theorem derives_call_iff {skip : Cursor → Cursor} {r : Rule} {c d : Cursor} {ts : List Tree} :
    Derives skip (.call r) c ts d ↔
      ∃ us, ts = [⟨r, ⟨c.pos, d.stop⟩, us⟩] ∧ r.production.Derives c us d := by
  constructor
  · rintro (_ | ⟨hr, h⟩ | ⟨hr, h⟩ | ⟨hr, h⟩)
    · exact ⟨[], rfl, by rw [hr]; exact ⟨rfl, h⟩⟩
    · exact ⟨_, rfl, by rw [hr]; exact h⟩
    · exact ⟨_, rfl, by rw [hr]; exact h⟩
  · rintro ⟨us, rfl, h⟩
    cases hr : r.production with
    | lexeme p =>
      rw [hr] at h
      obtain ⟨rfl, h⟩ := h
      exact .lexeme hr h
    | compact a => rw [hr] at h; exact .compact hr h
    | spaced a => rw [hr] at h; exact .spaced hr h

theorem derives_token_iff {skip : Cursor → Cursor} {p : Pattern} {c d : Cursor}
    {ts : List Tree} : Derives skip (.token p) c ts d ↔ ts = [] ∧ c.token? p = some d := by
  constructor
  · rintro ⟨h⟩
    exact ⟨rfl, h⟩
  · rintro ⟨rfl, h⟩
    exact .token h

/-! ## Runs are derivations -/

section Sound

/-- Calls that are answered by what their rules derive. -/
def Sound (call : Rule → Cursor → Reading) : Prop :=
  ∀ r c ts d, (call r c).found = some (ts, d) →
    ∃ us, ts = [⟨r, ⟨c.pos, d.stop⟩, us⟩] ∧ r.production.Derives c us d

theorem Reading.found_andThen {r : Reading} {next : Cursor → Reading} {ts : List Tree}
    {d : Cursor} (h : (r.andThen next).found = some (ts, d)) :
    ∃ us c vs, r.found = some (us, c) ∧ (next c).found = some (vs, d) ∧ ts = us ++ vs := by
  unfold Reading.andThen at h
  split at h
  · rename_i hr
    simp [hr] at h
  · rename_i us c hr
    simp only [Option.map_eq_some_iff, Prod.mk.injEq] at h
    obtain ⟨⟨vs, e⟩, hn, rfl, rfl⟩ := h
    exact ⟨us, c, vs, hr, hn, rfl⟩

theorem Reading.found_orElse {r : Reading} {other : Unit → Reading} {x : List Tree × Cursor}
    (h : (r.orElse other).found = some x) : r.found = some x ∨ (other ()).found = some x := by
  unfold Reading.orElse at h
  split at h
  · exact .inl h
  · exact .inr h

variable {call : Rule → Cursor → Reading} {skip : Cursor → Cursor}

theorem derives_of_readRounds {a : Phrase}
    (ha : ∀ c ts d, (a.read call skip c).found = some (ts, d) → Derives skip a c ts d) (n : Nat)
    {c d e : Cursor} {ts us : List Tree} (hm : Derives skip (.many a) c ts d)
    (h : (Phrase.readRounds (fun x => a.read call skip (skip x)) n d).found = some (us, e)) :
    Derives skip (.many a) c (ts ++ us) e := by
  induction n generalizing d ts us with
  | zero =>
    simp only [Phrase.readRounds, Reading.empty, Option.some.injEq, Prod.mk.injEq] at h
    obtain ⟨rfl, rfl⟩ := h
    rwa [List.append_nil]
  | succ n ih =>
    rcases Reading.found_orElse h with h | h
    · obtain ⟨vs, x, ws, hx, hn, rfl⟩ := Reading.found_andThen h
      rw [← List.append_assoc]
      exact ih (.again hm (ha _ _ _ hx)) hn
    · simp only [Reading.empty, Option.some.injEq, Prod.mk.injEq] at h
      obtain ⟨rfl, rfl⟩ := h
      rwa [List.append_nil]

theorem Phrase.derives_of_read (hc : Sound call) (a : Phrase) {c d : Cursor} {ts : List Tree}
    (h : (a.read call skip c).found = some (ts, d)) : Derives skip a c ts d := by
  induction a generalizing c d ts with
  | token p =>
    simp only [read, Reading.ofToken, Option.map_eq_some_iff, Prod.mk.injEq] at h
    obtain ⟨e, he, rfl, rfl⟩ := h
    exact .token he
  | call r => exact derives_call_iff.mpr (hc r c ts d h)
  | seq a b iha ihb =>
    obtain ⟨us, e, vs, ha, hb, rfl⟩ := Reading.found_andThen h
    exact .seq (iha ha) (ihb hb)
  | alt a b iha ihb =>
    rcases Reading.found_orElse h with h | h
    · exact .left (iha h)
    · exact .right (ihb h)
  | opt a ih =>
    rcases Reading.found_orElse h with h | h
    · exact .present (ih h)
    · simp only [Reading.empty, Option.some.injEq, Prod.mk.injEq] at h
      obtain ⟨rfl, rfl⟩ := h
      exact .absent
  | many a ih =>
    rcases Reading.found_orElse h with h | h
    · obtain ⟨us, e, vs, ha, hr, rfl⟩ := Reading.found_andThen h
      exact derives_of_readRounds (fun _ _ _ => ih) _ (.once (ih ha)) hr
    · simp only [Reading.empty, Option.some.injEq, Prod.mk.injEq] at h
      obtain ⟨rfl, rfl⟩ := h
      exact .never

theorem Production.derives_of_read (hc : Sound call) (p : Production) {c d : Cursor}
    {ts : List Tree} (h : (p.read call c).found = some (ts, d)) : p.Derives c ts d := by
  cases p with
  | lexeme p =>
    simp only [read, Reading.ofToken, Option.map_eq_some_iff, Prod.mk.injEq] at h
    obtain ⟨e, he, rfl, rfl⟩ := h
    exact ⟨rfl, he⟩
  | compact a => exact a.derives_of_read hc h
  | spaced a => exact a.derives_of_read hc h

theorem Rule.sound_readWithin (n : Nat) : Sound (readWithin n) := by
  induction n with
  | zero => intro r c ts d h; simp [readWithin, Reading.fail] at h
  | succ n ih =>
    intro r c ts d h
    simp only [readWithin, Reading.close, Option.map_eq_some_iff, Prod.mk.injEq] at h
    obtain ⟨⟨us, e⟩, hu, rfl, rfl⟩ := h
    exact ⟨us, rfl, Production.derives_of_read ih _ hu⟩

/-- What a rule reads is one tree, whose children its right-hand side derives. -/
theorem Rule.derives_of_read {r : Rule} {c d : Cursor} {ts : List Tree}
    (h : (r.read c).found = some (ts, d)) :
    ∃ us, ts = [⟨r, ⟨c.pos, d.stop⟩, us⟩] ∧ r.production.Derives c us d :=
  sound_readWithin _ r c ts d h

end Sound

/-! ## Lexemes of the grammar -/

/-- The patterns of the lexemes in a phrase. -/
def Phrase.lexemes : Phrase → List Pattern
  | token p => [p]
  | .call _ => []
  | seq a b | alt a b => a.lexemes ++ b.lexemes
  | opt a | many a => a.lexemes

/-- The patterns of the lexemes in the right-hand side of a rule. -/
def Production.lexemes : Production → List Pattern
  | lexeme p => [p]
  | compact a | spaced a => a.lexemes

/-- The rules that a phrase calls. -/
def Phrase.calls : Phrase → List Rule
  | token _ => []
  | .call r => [r]
  | seq a b | alt a b => a.calls ++ b.calls
  | opt a | many a => a.calls

/-- The rules that the right-hand side of a rule calls. -/
def Production.calls : Production → List Rule
  | lexeme _ => []
  | compact a | spaced a => a.calls

/-- No lexeme of the grammar is empty. -/
theorem Rule.consumes_of_mem_lexemes {r : Rule} {p : Pattern} (hp : p ∈ r.production.lexemes) :
    p.consumes := by
  have h : ∀ p ∈ r.production.lexemes, p.consumes := by cases r <;> decide
  exact h p hp

/-! ## Movement along the text -/

/-- What is passed between two parts of a rule: nothing, or noise. -/
inductive Spacing : (Cursor → Cursor) → Prop
  | compact : Spacing id
  | spaced : Spacing Cursor.skipGap

namespace Cursor

variable {b c d e : Cursor} {p : Pattern} {s v w : Text} {skip : Cursor → Cursor}

/-- Between `c` and `d` stands the text `w`. -/
structure Passes (c : Cursor) (w : Text) (d : Cursor) : Prop where
  rest : c.rest = w ++ d.rest
  pos : d.pos = c.pos + Text.size w

/-- Between two places stands one text. -/
theorem Passes.unique (h : c.Passes v d) (k : c.Passes w d) : v = w :=
  List.append_cancel_right (h.rest.symm.trans k.rest)

theorem Passes.trans (h : c.Passes v d) (k : d.Passes w e) : c.Passes (v ++ w) e where
  rest := by rw [h.rest, k.rest, List.append_assoc]
  pos := by rw [k.pos, h.pos, Text.size_append, Nat.add_assoc]

/-- From `c` to `d` no lexeme is passed. -/
def Idle (c d : Cursor) : Prop := ∃ w, c.Passes w d ∧ d.stop = c.stop

/-- From `c` to `d` some lexeme is passed: `u` up to the end of the last one, `v` behind it. -/
def Taken (c d : Cursor) : Prop :=
  ∃ u v, u ≠ [] ∧ c.Passes (u ++ v) d ∧ d.stop = c.pos + Text.size u

theorem Idle.refl (c : Cursor) : c.Idle c := ⟨[], ⟨rfl, rfl⟩, rfl⟩

theorem Idle.trans (h : c.Idle d) (k : d.Idle e) : c.Idle e := by
  obtain ⟨v, hv, hs⟩ := h
  obtain ⟨w, hw, ks⟩ := k
  exact ⟨v ++ w, hv.trans hw, ks.trans hs⟩

theorem Idle.taken (h : c.Idle d) (k : d.Taken e) : c.Taken e := by
  obtain ⟨w, hw, -⟩ := h
  obtain ⟨u, v, hu, huv, hs⟩ := k
  refine ⟨w ++ u, v, by simp [hu], ?_, by rw [hs, hw.pos, Text.size_append, Nat.add_assoc]⟩
  rw [List.append_assoc]
  exact hw.trans huv

theorem Taken.idle (h : c.Taken d) (k : d.Idle e) : c.Taken e := by
  obtain ⟨u, v, hu, huv, hs⟩ := h
  obtain ⟨w, hw, ks⟩ := k
  refine ⟨u, v ++ w, hu, ?_, ks.trans hs⟩
  rw [← List.append_assoc]
  exact huv.trans hw

theorem Taken.trans (h : c.Taken d) (k : d.Taken e) : c.Taken e := by
  obtain ⟨u, v, hu, huv, -⟩ := h
  have hi : Idle c ⟨d.rest, d.pos, c.stop⟩ := ⟨u ++ v, ⟨huv.rest, huv.pos⟩, rfl⟩
  obtain ⟨u', v', hu', h', hs'⟩ := k
  exact hi.taken ⟨u', v', hu', ⟨h'.rest, h'.pos⟩, hs'⟩

/-- From `c` to `d` lexemes are passed or not. -/
def Moves (c d : Cursor) : Prop := c.Idle d ∨ c.Taken d

theorem Moves.taken (h : c.Moves d) (k : d.Taken e) : c.Taken e := by
  rcases h with h | h
  · exact h.taken k
  · exact h.trans k

theorem Taken.moves (h : c.Taken d) (k : d.Moves e) : c.Taken e := by
  rcases k with k | k
  · exact h.idle k
  · exact h.trans k

theorem Moves.trans (h : c.Moves d) (k : d.Moves e) : c.Moves e := by
  rcases h with h | h
  · rcases k with k | k
    · exact .inl (h.trans k)
    · exact .inr (h.taken k)
  · exact .inr (h.moves k)

theorem passes_of_token? (h : c.token? p = some d) :
    ∃ w, p.split? c.rest = some (w, d.rest) ∧ c.Passes w d ∧ d.stop = d.pos := by
  simp only [token?, Option.map_eq_some_iff] at h
  obtain ⟨⟨w, r⟩, hw, rfl⟩ := h
  exact ⟨w, hw, ⟨Pattern.split?_eq_append hw, rfl⟩, rfl⟩

theorem taken_of_token? (hp : p.consumes) (h : c.token? p = some d) : c.Taken d := by
  obtain ⟨w, hw, hcd, hs⟩ := passes_of_token? h
  exact ⟨w, [], Pattern.ne_nil_of_consumes hp hw, by simpa using hcd, by rw [hs, hcd.pos]⟩

theorem passes_skipGap (c : Cursor) :
    ∃ w, Pattern.gap.split? c.rest = some (w, c.skipGap.rest) ∧ c.Passes w c.skipGap ∧
      c.skipGap.stop = c.stop := by
  obtain ⟨x, hx⟩ : ∃ x, Pattern.gap.split? c.rest = some x := by simp [Pattern.gap, Pattern.split?]
  have hs : c.skipGap = ⟨x.2, c.pos + Text.size x.1, c.stop⟩ := by rw [skipGap, hx]
  rw [hs]
  exact ⟨x.1, hx, ⟨Pattern.split?_eq_append hx, rfl⟩, rfl⟩

theorem idle_skip (hs : Spacing skip) (c : Cursor) : c.Idle (skip c) := by
  cases hs with
  | compact => exact .refl c
  | spaced =>
    obtain ⟨w, -, hw, hstop⟩ := passes_skipGap c
    exact ⟨w, hw, hstop⟩

/-- `c` is a place in the text `s`, behind its last lexeme. -/
structure In (s : Text) (c : Cursor) : Prop where
  split : ∃ u v, s = u ++ c.rest ++ v ∧ c.pos = Text.size u
  stop_le : c.stop ≤ c.pos

theorem Passes.split (h : c.Passes w d) (hc : c.In s) :
    ∃ u v, s = u ++ d.rest ++ v ∧ d.pos = Text.size u := by
  obtain ⟨u, v, rfl, hu⟩ := hc.split
  exact ⟨u ++ w, v, by simp [h.rest], by rw [h.pos, hu, Text.size_append]⟩

theorem Idle.in (h : c.Idle d) (hc : c.In s) : d.In s := by
  obtain ⟨w, hw, hs⟩ := h
  exact ⟨hw.split hc, by rw [hs, hw.pos]; exact Nat.le_trans hc.stop_le (Nat.le_add_right ..)⟩

theorem Taken.in (h : c.Taken d) (hc : c.In s) : d.In s := by
  obtain ⟨u, v, -, huv, hs⟩ := h
  exact ⟨huv.split hc, by rw [hs, huv.pos, Text.size_append]; omega⟩

/-- The part of the text from a place to the end of the last lexeme of a run from there. -/
theorem Taken.slice? (h : c.Taken d) (hc : c.In s) :
    ∃ u v, u ≠ [] ∧ c.rest = u ++ v ∧ s.slice? c.pos d.stop = some u := by
  obtain ⟨u, v, hu, huv, hs⟩ := h
  obtain ⟨x, y, rfl, hx⟩ := hc.split
  refine ⟨u, v ++ d.rest, hu, by rw [huv.rest, List.append_assoc], ?_⟩
  rw [hs, hx, huv.rest]
  simpa using Text.slice?_size_append x u (v ++ (d.rest ++ y))

end Cursor

theorem Cursor.moves_skip {skip : Cursor → Cursor} (hs : Spacing skip) (c : Cursor) :
    c.Moves (skip c) := .inl (Cursor.idle_skip hs c)

namespace Derives

variable {skip : Cursor → Cursor} {a : Phrase} {r : Rule} {s : Text} {c d : Cursor}
  {ts : List Tree}

/-- A derivation moves along the text, and over some lexeme if the phrase takes one. -/
theorem moves_and_taken (h : Derives skip a c ts d) (hs : Spacing skip)
    (hp : ∀ p ∈ a.lexemes, p.consumes) : c.Moves d ∧ (a.consumes → c.Taken d) := by
  induction h with
  | token h =>
    have ht := Cursor.taken_of_token? (hp _ (by simp [Phrase.lexemes])) h
    exact ⟨.inr ht, fun _ => ht⟩
  | @lexeme _ r _ _ _ hr h =>
    have hc := r.consumes_of_mem_lexemes (by rw [hr]; exact List.mem_singleton_self _)
    have ht := Cursor.taken_of_token? hc h
    exact ⟨.inr ht, fun _ => ht⟩
  | @compact _ r a _ _ _ hr _ ih | @spaced _ r a _ _ _ hr _ ih =>
    have hc : a.consumes := by simpa [hr, Production.consumes] using r.consumes_production
    have hp' : ∀ p ∈ a.lexemes, p.consumes := fun p hp =>
      r.consumes_of_mem_lexemes (by rw [hr]; exact hp)
    have ht := (ih (by constructor) hp').2 hc
    exact ⟨.inr ht, fun _ => ht⟩
  | @seq _ a b _ d _ _ _ _ _ iha ihb =>
    simp only [Phrase.lexemes, List.mem_append] at hp
    obtain ⟨ha, hac⟩ := iha hs fun p h => hp p (.inl h)
    obtain ⟨hb, hbc⟩ := ihb hs fun p h => hp p (.inr h)
    have hi := Cursor.moves_skip hs d
    refine ⟨(ha.trans hi).trans hb, fun hc => ?_⟩
    simp only [Phrase.consumes, Bool.or_eq_true] at hc
    rcases hc with hc | hc
    · exact ((hac hc).moves hi).moves hb
    · exact (ha.trans hi).taken (hbc hc)
  | left _ ih =>
    obtain ⟨hm, hc⟩ := ih hs fun p h => hp p (List.mem_append_left _ h)
    exact ⟨hm, fun h => hc (by simp only [Phrase.consumes, Bool.and_eq_true] at h; exact h.1)⟩
  | right _ ih =>
    obtain ⟨hm, hc⟩ := ih hs fun p h => hp p (List.mem_append_right _ h)
    exact ⟨hm, fun h => hc (by simp only [Phrase.consumes, Bool.and_eq_true] at h; exact h.2)⟩
  | absent => exact ⟨.inl (.refl _), by simp [Phrase.consumes]⟩
  | present _ ih => exact ⟨(ih hs hp).1, by simp [Phrase.consumes]⟩
  | never => exact ⟨.inl (.refl _), by simp [Phrase.consumes]⟩
  | once _ ih => exact ⟨(ih hs hp).1, by simp [Phrase.consumes]⟩
  | again _ _ ihm iha =>
    refine ⟨?_, by simp [Phrase.consumes]⟩
    exact ((ihm hs hp).1.trans (Cursor.moves_skip hs _)).trans (iha hs hp).1

theorem moves (h : Derives skip a c ts d) (hs : Spacing skip)
    (hp : ∀ p ∈ a.lexemes, p.consumes) : c.Moves d := (h.moves_and_taken hs hp).1

end Derives

/-- A rule that matches passes some lexeme. -/
theorem Rule.taken_of_derives {r : Rule} {c d : Cursor} {ts : List Tree}
    (h : r.production.Derives c ts d) : c.Taken d := by
  have hc : (Phrase.call r).consumes := rfl
  exact ((derives_call_iff.mpr ⟨ts, rfl, h⟩).moves_and_taken .compact
    (by simp [Phrase.lexemes])).2 hc

/-! ## Where trees grow -/

/-- A property of places that is kept wherever a lexeme with a pattern in `L` is passed, and where
noise is. -/
structure Cursor.Invariant (L : Pattern → Prop) (Q : Cursor → Prop) : Prop where
  token : ∀ {p c d}, L p → Q c → c.token? p = some d → Q d
  gap : ∀ {c}, Q c → Q c.skipGap

theorem Cursor.Invariant.skip {L : Pattern → Prop} {Q : Cursor → Prop} (hQ : Invariant L Q)
    {skip : Cursor → Cursor} (hs : Spacing skip) {c : Cursor} (hc : Q c) : Q (skip c) := by
  cases hs with
  | compact => exact hc
  | spaced => exact hQ.gap hc

/-- A tree that a rule leaves between two places with the property `Q`. -/
def Tree.GrownFrom (Q : Cursor → Prop) (t : Tree) : Prop :=
  ∃ c d, Q c ∧ Q d ∧ t.rule.production.Derives c t.children d ∧ t.span = ⟨c.pos, d.stop⟩

/-- A derivation keeps an invariant, and so do the derivations of all the nodes it leaves. -/
theorem Derives.grownFrom {L : Pattern → Prop} {Q : Cursor → Prop} (hQ : Cursor.Invariant L Q)
    (hL : ∀ r : Rule, ∀ p ∈ r.production.lexemes, L p) {skip : Cursor → Cursor} {a : Phrase}
    {c d : Cursor} {ts : List Tree} (h : Derives skip a c ts d) (hs : Spacing skip)
    (hp : ∀ p ∈ a.lexemes, L p) (hc : Q c) :
    Q d ∧ ∀ t ∈ ts, ∀ n ∈ t.nodes, n.GrownFrom Q := by
  have node : ∀ {r : Rule} {c d : Cursor} {ts : List Tree}, Q c → Q d →
      r.production.Derives c ts d → (∀ t ∈ ts, ∀ n ∈ t.nodes, n.GrownFrom Q) →
      ∀ n ∈ (⟨r, ⟨c.pos, d.stop⟩, ts⟩ : Tree).nodes, n.GrownFrom Q := by
    intro r c d ts hc hd h hts n hn
    rcases Tree.mem_nodes_iff.mp hn with rfl | ⟨u, hu, hn⟩
    · exact ⟨c, d, hc, hd, h, rfl⟩
    · exact hts u hu n hn
  induction h with
  | token h => exact ⟨hQ.token (hp _ (List.mem_singleton_self _)) hc h, by simp⟩
  | absent | never => exact ⟨hc, by simp⟩
  | @lexeme _ r p c d hr h =>
    have hd := hQ.token (hL r p (by rw [hr]; exact List.mem_singleton_self p)) hc h
    simp only [List.mem_singleton, forall_eq]
    exact ⟨hd, node hc hd (by rw [hr]; exact ⟨rfl, h⟩) (by simp)⟩
  | @compact _ r _ _ _ _ hr h ih | @spaced _ r _ _ _ _ hr h ih =>
    obtain ⟨hd, hts⟩ := ih (by constructor) (fun p hp => hL r p (by rw [hr]; exact hp)) hc
    simp only [List.mem_singleton, forall_eq]
    exact ⟨hd, node hc hd (by rw [hr]; exact h) hts⟩
  | seq _ _ iha ihb =>
    simp only [Phrase.lexemes, List.mem_append] at hp
    obtain ⟨hd, hts⟩ := iha hs (fun p h => hp p (.inl h)) hc
    obtain ⟨he, hus⟩ := ihb hs (fun p h => hp p (.inr h)) (hQ.skip hs hd)
    exact ⟨he, fun t ht => (List.mem_append.mp ht).elim (hts t) (hus t)⟩
  | left _ ih => exact ih hs (fun p h => hp p (List.mem_append_left _ h)) hc
  | right _ ih => exact ih hs (fun p h => hp p (List.mem_append_right _ h)) hc
  | present _ ih | once _ ih => exact ih hs hp hc
  | again _ _ ihm iha =>
    obtain ⟨hd, hts⟩ := ihm hs hp hc
    obtain ⟨he, hus⟩ := iha hs hp (hQ.skip hs hd)
    exact ⟨he, fun t ht => (List.mem_append.mp ht).elim (hts t) (hus t)⟩

/-- A tree that a rule leaves somewhere in the text `s`. -/
def Tree.GrownIn (s : Text) (t : Tree) : Prop :=
  ∃ c d, c.In s ∧ t.rule.production.Derives c t.children d ∧ t.span = ⟨c.pos, d.stop⟩

theorem Cursor.invariant_in (s : Text) : Invariant (fun p => p.consumes) (In s) where
  token hp hc h := (taken_of_token? hp h).in hc
  gap hc := (idle_skip .spaced _).in hc

/-- Every node of a tree that a derivation in a text leaves is a tree of this text. -/
theorem Derives.grownIn {skip : Cursor → Cursor} {a : Phrase} {s : Text} {c d : Cursor}
    {ts : List Tree} (h : Derives skip a c ts d) (hs : Spacing skip)
    (hp : ∀ p ∈ a.lexemes, p.consumes) (hc : c.In s) : ∀ t ∈ ts, ∀ n ∈ t.nodes, n.GrownIn s := by
  intro t ht n hn
  have hgrown := h.grownFrom (Cursor.invariant_in s) (fun r _ => r.consumes_of_mem_lexemes) hs hp hc
  obtain ⟨x, y, hx, -, hd, hspan⟩ := hgrown.2 t ht n hn
  exact ⟨x, y, hx, hd, hspan⟩

/-! ## Trees that are returned -/

/-- A rule matches at the front of a fragment where it reads a tree. -/
theorem matchFragment_eq_ok_iff {source : Source} {r : Rule} {base : Nat} {w : Text} {t : Tree} :
    matchFragment source r base w = .ok t ↔
      ∃ d, (r.read (.start w base)).found = some ([t], d) := by
  unfold matchFragment
  dsimp only
  cases hf : (r.read (.start w base)).found with
  | none => simp
  | some x =>
    obtain ⟨ts, d⟩ := x
    obtain ⟨us, rfl, -⟩ := Rule.derives_of_read hf
    simp

theorem parseFragment_eq_ok_iff {source : Source} {r : Rule} {base : Nat} {w : Text} {o : Options}
    {t : Tree} :
    parseFragment source r base w o = .ok t ↔
      nestingDepth w ≤ o.maxNesting ∧ matchFragment source r base w = .ok t ∧
        (o.requireComplete → base + Text.size w ≤ skipTrailing source.content t.span.stop) := by
  unfold parseFragment
  dsimp only
  by_cases hn : o.maxNesting < nestingDepth w
  · rw [if_pos hn]
    simp [Nat.not_le.mpr hn]
  · rw [if_neg hn]
    cases hm : matchFragment source r base w with
    | error e => simp [bind, Except.bind]
    | ok u =>
      simp only [bind, Except.bind, Except.ok.injEq]
      split
      · rename_i hc
        constructor
        · simp
        · rintro ⟨-, rfl, h⟩
          exact absurd (h hc.1) (Nat.not_le.mpr hc.2)
      · rename_i hc
        simp only [Except.ok.injEq]
        constructor
        · rintro rfl
          exact ⟨Nat.not_lt.mp hn, rfl, fun h => Nat.not_lt.mp fun hl => hc ⟨h, hl⟩⟩
        · exact fun h => h.2.1

/-- A parse inside a range returns the tree that is read there, provided that the range can be cut
out of the text, that parentheses do not nest too deeply in it, and that the match is complete if
it has to be. -/
theorem parseRange_eq_ok_iff {s : Text} {range : Span} {r : Rule} {o : Options} {t : Tree} :
    parseRange s range r o = .ok t ↔
      ∃ w d, s.slice? range.start range.stop = some w ∧ nestingDepth w ≤ o.maxNesting ∧
        (r.read (.start w range.start)).found = some ([t], d) ∧
        (o.requireComplete → range.stop ≤ skipTrailing s t.span.stop) := by
  unfold parseRange
  dsimp only
  cases hw : s.slice? range.start range.stop with
  | none => simp
  | some w =>
    obtain ⟨u, v, -, -, hstop⟩ := Text.eq_append_of_slice? hw
    dsimp only
    rw [parseFragment_eq_ok_iff, matchFragment_eq_ok_iff, hstop]
    simp

/-- A parse finds its tree at the start of the range, if the parentheses there do not nest too
deeply. -/
theorem derives_of_parseRange {s : Text} {range : Span} {r : Rule} {o : Options} {t : Tree}
    (h : parseRange s range r o = .ok t) :
    ∃ w d ts, s.slice? range.start range.stop = some w ∧ nestingDepth w ≤ o.maxNesting ∧
      t = ⟨r, ⟨range.start, d.stop⟩, ts⟩ ∧
      r.production.Derives (.start w range.start) ts d := by
  obtain ⟨w, d, hw, hn, hf, -⟩ := parseRange_eq_ok_iff.mp h
  obtain ⟨ts, hts, hd⟩ := Rule.derives_of_read hf
  exact ⟨w, d, ts, hw, hn, List.head_eq_of_cons_eq hts, hd⟩

theorem parse_eq_ok_iff {s : Text} {r : Rule} {o : Options} {t : Tree} :
    parse s r o = .ok t ↔
      nestingDepth s ≤ o.maxNesting ∧ ∃ d, (r.read (.start s 0)).found = some ([t], d) ∧
        (o.requireComplete → Text.size s ≤ skipTrailing s t.span.stop) := by
  rw [parse, parseRange_eq_ok_iff, Text.slice?_size]
  simp

theorem derives_of_parse {s : Text} {r : Rule} {o : Options} {t : Tree}
    (h : parse s r o = .ok t) :
    ∃ d ts, nestingDepth s ≤ o.maxNesting ∧ t = ⟨r, ⟨0, d.stop⟩, ts⟩ ∧
      r.production.Derives (.start s 0) ts d := by
  obtain ⟨hn, d, hf, -⟩ := parse_eq_ok_iff.mp h
  obtain ⟨ts, hts, hd⟩ := Rule.derives_of_read hf
  exact ⟨d, ts, hn, List.head_eq_of_cons_eq hts, hd⟩

theorem rule_of_parse {s : Text} {r : Rule} {o : Options} {t : Tree} (h : parse s r o = .ok t) :
    t.rule = r := by
  obtain ⟨d, ts, -, rfl, -⟩ := derives_of_parse h
  rfl

/-- An invariant that holds where a text begins holds around every node of the tree of a parse. -/
theorem Cursor.Invariant.grownFrom_of_parse {L : Pattern → Prop} {Q : Cursor → Prop}
    (hQ : Invariant L Q) (hL : ∀ r : Rule, ∀ p ∈ r.production.lexemes, L p) {s : Text} {r : Rule}
    {o : Options} {t : Tree} (hs : Q (.start s 0)) (h : parse s r o = .ok t) :
    ∀ n ∈ t.nodes, n.GrownFrom Q := by
  obtain ⟨d, ts, -, rfl, hd⟩ := derives_of_parse h
  have hcall : Derives id (.call r) (.start s 0) [⟨r, ⟨0, d.stop⟩, ts⟩] d :=
    derives_call_iff.mpr ⟨ts, rfl, hd⟩
  exact (hcall.grownFrom hQ hL .compact (by simp [Phrase.lexemes]) hs).2 _
    (List.mem_singleton_self _)

/-- Every node of a tree found in a range of a text is a tree of this text. -/
theorem grownIn_of_parseRange {s : Text} {range : Span} {r : Rule} {o : Options} {t : Tree}
    (h : parseRange s range r o = .ok t) : ∀ n ∈ t.nodes, n.GrownIn s := by
  obtain ⟨w, d, ts, hw, -, rfl, hd⟩ := derives_of_parseRange h
  obtain ⟨u, v, rfl, hu, -⟩ := Text.eq_append_of_slice? hw
  have hc : (Cursor.start w range.start).In (u ++ w ++ v) := ⟨⟨u, v, rfl, hu.symm⟩, Nat.le_refl _⟩
  have hcall : Derives id (.call r) (.start w range.start) [⟨r, ⟨range.start, d.stop⟩, ts⟩] d :=
    derives_call_iff.mpr ⟨ts, rfl, hd⟩
  exact hcall.grownIn .compact (by simp [Phrase.lexemes]) hc _ (List.mem_singleton_self _)

theorem grownIn_of_parse {s : Text} {r : Rule} {o : Options} {t : Tree}
    (h : parse s r o = .ok t) : ∀ n ∈ t.nodes, n.GrownIn s := grownIn_of_parseRange h

/-- A hit on a logical line is a parse from the start of the statement to the end of the line. -/
theorem locateOn?_eq_some_iff {s : Text} {r : Rule} {o : Options} {l : LogicalLine} {t : Tree} :
    locateOn? s r o l = some t ↔
      l.statementStart < l.span.stop ∧ ¬startsComment s l.statementStart ∧
        parseRange s ⟨l.statementStart, l.span.stop⟩ r o = .ok t := by
  simp only [locateOn?]
  split
  · rename_i h
    simp only [reduceCtorEq, false_iff]
    rintro ⟨hlt, hc, -⟩
    exact h.elim (Nat.not_le.mpr hlt) hc
  · rename_i h
    rw [not_or, Nat.not_le] at h
    cases hp : parseRange s ⟨l.statementStart, l.span.stop⟩ r o with
    | error e => simp [Except.toOption]
    | ok u => simp [Except.toOption, h]

theorem grownIn_of_mem_locate {s : Text} {r : Rule} {o : Options} {t : Tree}
    (h : t ∈ locate s r o) : ∀ n ∈ t.nodes, n.GrownIn s := by
  obtain ⟨l, -, hl⟩ := List.mem_filterMap.mp h
  exact grownIn_of_parseRange (locateOn?_eq_some_iff.mp hl).2.2

end FreeForm
