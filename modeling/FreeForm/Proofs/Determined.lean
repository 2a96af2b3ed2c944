import FreeForm.Proofs.Follow

/-!
# Derivations that runs make

A derivation forgets the alternatives that were tried in vain, so there may be derivations that no
run makes.  Where all choices are decided, there are none: a run finds what a derivation leaves,
provided that the derivation ends before the end of a line or before a lexeme that may follow it
(`Derives.found`).
-/

namespace FreeForm

theorem Cursor.skip_skip {skip : Cursor → Cursor} (hs : Spacing skip) (c : Cursor) :
    skip (skip c) = skip c := by
  cases hs with
  | compact => rfl
  | spaced => exact c.skipGap_skipGap

namespace Phrase

/-! ## Rounds of a repetition -/

variable {step : Cursor → Reading} {c d e : Cursor} {us vs : List Tree}

/-- Steps that take some character. -/
def Advancing (step : Cursor → Reading) : Prop :=
  ∀ c x, (step c).found = some x → x.2.rest.length < c.rest.length

theorem found_readRounds_of_none (h : (step c).found = none) (n : Nat) :
    (readRounds step n c).found = some ([], c) := by
  cases n with
  | zero => rfl
  | succ n =>
    have hn := Reading.found_andThen_of_none h (readRounds step n)
    rw [readRounds, Reading.found_orElse_of_none hn]
    rfl

theorem exists_found_readRounds (step : Cursor → Reading) (n : Nat) (c : Cursor) :
    ∃ x, (readRounds step n c).found = some x := by
  cases n with
  | zero => exact ⟨_, rfl⟩
  | succ n =>
    rw [readRounds, Reading.found_orElse_eq]
    cases ((step c).andThen (readRounds step n)).found with
    | none => exact ⟨_, rfl⟩
    | some x => exact ⟨x, rfl⟩

theorem found_readRounds_of_some {n : Nat} (h : (step c).found = some (us, d))
    (hr : (readRounds step n d).found = some (vs, e)) :
    (readRounds step (n + 1) c).found = some (us ++ vs, e) := by
  rw [readRounds]
  exact Reading.found_orElse_of_some (Reading.found_andThen_of_some h hr) _

/-- Any bound on the number of rounds serves that is not below the number of characters. -/
theorem found_readRounds_congr (hstep : Advancing step) (m n : Nat) {c : Cursor}
    (hm : c.rest.length ≤ m) (hn : c.rest.length ≤ n) :
    (readRounds step m c).found = (readRounds step n c).found := by
  induction m generalizing n c with
  | zero =>
    have hnone : (step c).found = none := by
      cases h : (step c).found with
      | none => rfl
      | some x => exact absurd (hstep c x h) (by omega)
    rw [found_readRounds_of_none hnone, found_readRounds_of_none hnone]
  | succ m ih =>
    cases h : (step c).found with
    | none => rw [found_readRounds_of_none h, found_readRounds_of_none h]
    | some x =>
      have hx := hstep c x h
      obtain ⟨k, rfl⟩ : ∃ k, n = k + 1 := ⟨n - 1, by omega⟩
      obtain ⟨y, hy⟩ := exists_found_readRounds step m x.2
      have hk := ih (c := x.2) k (by omega) (by omega)
      have hy' := hk ▸ hy
      rw [found_readRounds_of_some h hy, found_readRounds_of_some h hy']

/-- The rounds of a repetition from a place on. -/
def rounds (skip : Cursor → Cursor) (a : Phrase) (c : Cursor) : Reading :=
  readRounds (fun d => a.read Rule.read skip (skip d)) c.rest.length c

variable {skip : Cursor → Cursor} {a : Phrase}

theorem skipping_of_spacing (hs : Spacing skip) : Skipping skip := by
  cases hs with
  | compact => exact Cursor.skipping_id
  | spaced => exact Cursor.skipping_skipGap

theorem advancing_of_shrinking {call : Rule → Cursor → Reading} (hc : Shrinking call)
    (hs : Spacing skip) (ha : a.consumes) : Advancing fun d => a.read call skip (skip d) := by
  have hskip := skipping_of_spacing hs
  intro c x hx
  exact Nat.lt_of_lt_of_le (lt_of_read hc hskip ha hx) (hskip c)

theorem advancing_read (hs : Spacing skip) (ha : a.consumes) :
    Advancing fun d => a.read Rule.read skip (skip d) :=
  advancing_of_shrinking (fun _ _ _ => Rule.length_lt_of_read) hs ha

theorem found_rounds_of_none (h : (a.read Rule.read skip (skip c)).found = none) :
    (a.rounds skip c).found = some ([], c) := by
  rw [rounds]
  refine found_readRounds_of_none ?_ _
  exact h

theorem found_rounds_of_some (hs : Spacing skip) (ha : a.consumes)
    (h : (a.read Rule.read skip (skip c)).found = some (us, d))
    (hr : (a.rounds skip d).found = some (vs, e)) :
    (a.rounds skip c).found = some (us ++ vs, e) := by
  have hadv := advancing_read hs ha
  have hd : d.rest.length < c.rest.length := hadv c _ h
  obtain ⟨n, hn⟩ : ∃ n, c.rest.length = n + 1 := ⟨c.rest.length - 1, by omega⟩
  rw [rounds, hn]
  refine found_readRounds_of_some h ?_
  rw [← hr]
  exact found_readRounds_congr hadv _ _ (by omega) (Nat.le_refl _)

/-- A repetition that begins where no noise is passed is just its rounds. -/
theorem found_many (hs : Spacing skip) (ha : a.consumes) (hc : skip c = c) :
    ((many a).read Rule.read skip c).found = (a.rounds skip c).found := by
  have hadv := advancing_read hs ha
  rw [read]
  cases h : (a.read Rule.read skip c).found with
  | none =>
    have hstep : (a.read Rule.read skip (skip c)).found = none := by rw [hc, h]
    rw [Reading.found_orElse_of_none (Reading.found_andThen_of_none h _),
      found_rounds_of_none hstep]
    rfl
  | some x =>
    obtain ⟨ts, d⟩ := x
    have hstep : (a.read Rule.read skip (skip c)).found = some (ts, d) := by rw [hc, h]
    have hd : d.rest.length < c.rest.length := hadv c _ hstep
    obtain ⟨⟨us, e⟩, hr⟩ := exists_found_readRounds
      (fun d => a.read Rule.read skip (skip d)) c.rest.length d
    have hr' : (a.rounds skip d).found = some (us, e) := by
      rw [← hr]
      exact found_readRounds_congr hadv _ _ (Nat.le_refl _) (by omega)
    rw [Reading.found_orElse_of_some (Reading.found_andThen_of_some h hr),
      found_rounds_of_some hs ha hstep hr']

end Phrase

/-! ## A run follows a derivation -/

/-- Every child of a node of the tree satisfies the condition of the rule of the node. -/
def Tree.Settled (ok : Rule → Tree → Prop) (t : Tree) : Prop :=
  ∀ n ∈ t.nodes, ∀ u ∈ n.children, ok n.rule u

theorem Tree.Settled.child {ok : Rule → Tree → Prop} {t u : Tree} (h : t.Settled ok)
    (hu : u ∈ t.children) : ok t.rule u ∧ u.Settled ok :=
  ⟨h t t.self_mem_nodes u hu,
    fun n hn => h n (Tree.mem_nodes_iff.mpr (.inr ⟨u, hu, hn⟩))⟩

/-- What a run finds behind the rounds of a repetition, it finds together with them. -/
def Phrase.GoesOn (skip : Cursor → Cursor) (a : Phrase) (c : Cursor) (ts : List Tree)
    (d : Cursor) : Prop :=
  ∀ us e, (a.rounds skip d).found = some (us, e) → (a.rounds skip c).found = some (ts ++ us, e)

theorem Rule.found_of_production {r : Rule} {c d : Cursor} {ts : List Tree}
    (h : (r.production.read Rule.read c).found = some (ts, d)) :
    (r.read c).found = some ([⟨r, ⟨c.pos, d.stop⟩, ts⟩], d) := by
  rw [r.found_read_eq, h]
  rfl

theorem Phrase.found_many_of_goesOn {P : Tree → Prop} {skip : Cursor → Cursor} {a : Phrase}
    {ps : List Pattern} {c d : Cursor} {ts : List Tree} (hs : Spacing skip)
    (hps : (many a).Decided P skip ps) (hc : skip c = c) (hd : d.Followed ps)
    (hgo : a.GoesOn skip c ts d) : ((many a).read Rule.read skip c).found = some (ts, d) := by
  obtain ⟨-, -, hcons, hnone⟩ := hps
  have hr := hgo [] d (found_rounds_of_none (hnone d hd))
  rw [List.append_nil] at hr
  rw [found_many hs hcons hc, hr]

/-- What opens the next round follows the rounds before. -/
theorem Derives.followed {skip : Cursor → Cursor} {a : Phrase} {d e : Cursor} {us : List Tree}
    (h : Derives skip a (skip d) us e) (hs : Spacing skip) (ha : a.openers.all Pattern.isClear)
    {ps : List Pattern} (he : e.Followed ps) :
    d.Followed (a.openers ++ if a.consumes then [] else ps) := by
  rcases h.opens hs ha with ⟨hn, hgap⟩ | ho
  · rw [hn]
    refine (he.congr ?_).mono fun p hp => List.mem_append_right _ hp
    rw [hgap, Cursor.rest_skipGap_skip hs]
  · exact .inr ((ho.congr (Cursor.rest_skipGap_skip hs d)).mono
      fun p hp => List.mem_append_left _ hp)

/-- The induction for `Derives.found`.  The rounds of a repetition are derived from the last one
back, but run from the first one on; this is why a repetition has to go on behind its derivation. -/
theorem Derives.found_and_goesOn {ok : Rule → Tree → Prop} (hdec : ∀ r : Rule, r.Decided (ok r))
    {skip : Cursor → Cursor} {a : Phrase} {c d : Cursor} {ts : List Tree}
    (h : Derives skip a c ts d) (hs : Spacing skip) {P : Tree → Prop}
    (hts : ∀ t ∈ ts, P t ∧ t.Settled ok) {ps : List Pattern} (hps : a.Decided P skip ps)
    (hc : a.opensWithMany → skip c = c) :
    (d.Followed ps → (a.read Rule.read skip c).found = some (ts, d)) ∧
      ∀ b, a = .many b → d.Followed (b.openers ++ ps) → b.GoesOn skip c ts d := by
  induction h generalizing P ps with
  | token h =>
    refine ⟨fun _ => ?_, by simp⟩
    rw [Phrase.read, Reading.ofToken, h]
    rfl
  | @lexeme _ r p c d hr h =>
    refine ⟨fun _ => Rule.found_of_production ?_, by simp⟩
    rw [hr, Production.read, Reading.ofToken, h]
    rfl
  | @compact _ r a c d us hr h ih =>
    refine ⟨fun hd => Rule.found_of_production ?_, by simp⟩
    have hr' := hdec r
    simp only [Rule.Decided, hr] at hr'
    obtain ⟨-, hsettled⟩ := hts _ (List.mem_singleton_self _)
    have hus := fun u hu => hsettled.child (u := u) hu
    rw [hr]
    exact (ih .compact hus hr'.2 (by simp [hr'.1])).1 (hd.mono hps)
  | @spaced _ r a c d us hr h ih =>
    refine ⟨fun hd => Rule.found_of_production ?_, by simp⟩
    have hr' := hdec r
    simp only [Rule.Decided, hr] at hr'
    obtain ⟨-, hsettled⟩ := hts _ (List.mem_singleton_self _)
    have hus := fun u hu => hsettled.child (u := u) hu
    rw [hr]
    exact (ih .spaced hus hr'.2 (by simp [hr'.1])).1 (hd.mono hps)
  | @seq _ a b c d e ts us h k iha ihb =>
    refine ⟨fun he => ?_, by simp⟩
    obtain ⟨ha, hb, hclear⟩ := hps
    have hh := (iha hs (fun t ht => hts t (List.mem_append_left _ ht)) ha hc).1
      (k.followed hs hclear he)
    have hk := (ihb hs (fun t ht => hts t (List.mem_append_right _ ht)) hb
      fun _ => Cursor.skip_skip hs d).1 he
    exact Reading.found_andThen_of_some hh hk
  | @left skip a b c d ts h ih =>
    refine ⟨fun hd => ?_, by simp⟩
    have hca : a.opensWithMany → skip c = c := fun hm => hc (by simp [Phrase.opensWithMany, hm])
    exact Reading.found_orElse_of_some ((ih hs hts hps.1 hca).1 hd) _
  | @right skip a b c d ts h ih =>
    refine ⟨fun hd => ?_, by simp⟩
    have hcb : b.opensWithMany → skip c = c := fun hm => hc (by simp [Phrase.opensWithMany, hm])
    have hh := (ih hs hts hps.2.1 hcb).1 hd
    have hn := hps.2.2 c d ts hh (fun t ht => (hts t ht).1) hd
    rw [Phrase.read, Reading.found_orElse_of_none hn]
    exact hh
  | @absent _ a c =>
    refine ⟨fun hd => ?_, by simp⟩
    rw [Phrase.read, Reading.found_orElse_of_none (hps.2 c hd)]
    rfl
  | @present _ a c d ts h ih =>
    refine ⟨fun hd => ?_, by simp⟩
    exact Reading.found_orElse_of_some ((ih hs hts hps.1 hc).1 hd) _
  | @never skip a c =>
    have hgo : a.GoesOn skip c [] c := fun us e hr => hr
    refine ⟨fun hd => Phrase.found_many_of_goesOn hs hps (hc rfl) hd hgo, fun b hb _ => ?_⟩
    cases hb
    exact hgo
  | @once skip a c d ts h ih =>
    have hgo : d.Followed (a.openers ++ ps) → a.GoesOn skip c ts d := by
      intro hd us e hr
      have hh := (ih hs hts hps.1 fun _ => hc rfl).1 hd
      exact Phrase.found_rounds_of_some hs hps.2.2.1 ((hc rfl).symm ▸ hh) hr
    refine ⟨fun hd => ?_, fun b hb hd => ?_⟩
    · exact Phrase.found_many_of_goesOn hs hps (hc rfl) hd
        (hgo (hd.mono fun p hp => List.mem_append_right _ hp))
    · cases hb
      exact hgo hd
  | @again skip a c d e ts us h k ihm iha =>
    have hparts := hps
    obtain ⟨ha, hclear, hcons, -⟩ := hparts
    have hgo : e.Followed (a.openers ++ ps) → a.GoesOn skip c (ts ++ us) e := by
      intro he vs x hr
      have hk := (iha hs (fun t ht => hts t (List.mem_append_right _ ht)) ha
        fun _ => Cursor.skip_skip hs d).1 he
      have hd := k.followed hs hclear he
      rw [hcons, if_pos rfl, List.append_nil] at hd
      have hm := (ihm hs (fun t ht => hts t (List.mem_append_left _ ht)) hps hc).2 a rfl
        (hd.mono fun p hp => List.mem_append_left _ hp)
      rw [List.append_assoc]
      exact hm _ _ (Phrase.found_rounds_of_some hs hcons hk hr)
    refine ⟨fun he => ?_, fun b hb he => ?_⟩
    · exact Phrase.found_many_of_goesOn hs hps (hc rfl) he
        (hgo (he.mono fun p hp => List.mem_append_right _ hp))
    · cases hb
      exact hgo he

/-- **A run finds what a derivation leaves**, where all choices are decided and the derivation ends
before the end of a line or a lexeme that may follow. -/
theorem Derives.found {ok : Rule → Tree → Prop} (hdec : ∀ r : Rule, r.Decided (ok r))
    {skip : Cursor → Cursor} {a : Phrase} {c d : Cursor} {ts : List Tree}
    (h : Derives skip a c ts d) (hs : Spacing skip) {P : Tree → Prop}
    (hts : ∀ t ∈ ts, P t ∧ t.Settled ok) {ps : List Pattern} (hps : a.Decided P skip ps)
    (hc : a.opensWithMany → skip c = c) (hd : d.Followed ps) :
    (a.read Rule.read skip c).found = some (ts, d) :=
  (h.found_and_goesOn hdec hs hts hps hc).1 hd

end FreeForm
