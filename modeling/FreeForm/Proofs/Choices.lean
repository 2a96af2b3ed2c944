import FreeForm.Proofs.Determined

/-!
# The choices that need more than the first lexemes

Seven rules are not decided by the first lexemes of their alternatives.

* An operator may be spelled like the beginning of another one (`*` and `**`, `<` and `<=`, `/` and
  `/=`).  Then what is left of the longer one stands where an operand should.
* The whole part of a float is an integer, a lower bound is an index, and the name of an array is a
  variable.  Then what comes next tells: a point with a digit, a colon, a parenthesis.
* A sign stands before a number or a variable.  Then a digit or a letter comes next.
* A call and an array access look alike up to the first colon.  `Tree.Operand` is what is asked of
  an array access, so that it is not a call.
-/

namespace FreeForm

/-! ## Parts of a run -/

namespace Phrase

variable {call : Rule → Cursor → Reading} {skip : Cursor → Cursor} {c d : Cursor}
  {ts : List Tree}

/-- A choice between rules finds what one of them finds. -/
theorem exists_of_found_anyOf {r : Rule} {rs : List Rule} {x : List Tree × Cursor}
    (h : ((anyOf r rs).read call skip c).found = some x) :
    ∃ q ∈ r :: rs, (call q c).found = some x := by
  induction rs generalizing r with
  | nil => exact ⟨r, List.mem_singleton_self r, h⟩
  | cons q rs ih =>
    rcases Reading.found_orElse h with h | h
    · exact ⟨r, List.mem_cons_self, h⟩
    · obtain ⟨p, hp, hx⟩ := ih h
      exact ⟨p, List.mem_cons_of_mem r hp, hx⟩

/-- Behind an option, the rest is found where the option ends, or right there if it is absent. -/
theorem found_seq_opt {r : Rule} {b : Phrase}
    (h : ((seq (opt (.call r)) b).read call skip c).found = some (ts, d)) :
    (∃ us x vs, (call r c).found = some (us, x) ∧
        (b.read call skip (skip x)).found = some (vs, d) ∧ ts = us ++ vs) ∨
      (call r c).found = none ∧ (b.read call skip (skip c)).found = some (ts, d) := by
  obtain ⟨us, x, vs, ha, hb, rfl⟩ := Reading.found_andThen h
  rw [read, Reading.found_orElse_eq, Option.or_eq_some_iff] at ha
  rcases ha with ha | ⟨hn, ha⟩
  · exact .inl ⟨us, x, vs, ha, hb, rfl⟩
  · simp only [read, Reading.empty, Option.some.injEq, Prod.mk.injEq] at ha hn
    obtain ⟨rfl, rfl⟩ := ha
    exact .inr ⟨hn, hb⟩

end Phrase

/-- A choice between rules derives what one of them derives. -/
theorem derives_anyOf {skip : Cursor → Cursor} {r : Rule} {rs : List Rule} {c d : Cursor}
    {ts : List Tree} (h : Derives skip (.anyOf r rs) c ts d) :
    ∃ q ∈ r :: rs, Derives skip (.call q) c ts d := by
  induction rs generalizing r with
  | nil => exact ⟨r, List.mem_singleton_self r, h⟩
  | cons q rs ih =>
    have h' : Derives skip (.alt (.call r) (.anyOf q rs)) c ts d := h
    cases h' with
    | left h => exact ⟨r, List.mem_cons_self, h⟩
    | right h =>
      obtain ⟨p, hp, h⟩ := ih h
      exact ⟨p, List.mem_cons_of_mem r hp, h⟩

/-- A node of a rule that only chooses between rules has one child, which covers the same part of the
text. -/
theorem Tree.GrownIn.only_child {s : Text} {t : Tree} {r : Rule} {rs : List Rule} (h : t.GrownIn s)
    (hp : t.rule.production = .spaced (.anyOf r rs)) :
    ∃ u, t.children = [u] ∧ u.rule ∈ r :: rs ∧ u.span = t.span := by
  obtain ⟨c, d, -, hd, hspan⟩ := h
  rw [hp] at hd
  obtain ⟨q, hq, hcall⟩ := derives_anyOf hd
  obtain ⟨us, hts, -⟩ := derives_call_iff.mp hcall
  exact ⟨_, hts, hq, hspan.symm⟩

theorem derives_seq_iff {skip : Cursor → Cursor} {a b : Phrase} {c e : Cursor} {ts : List Tree} :
    Derives skip (.seq a b) c ts e ↔
      ∃ us d vs, Derives skip a c us d ∧ Derives skip b (skip d) vs e ∧ ts = us ++ vs := by
  constructor
  · rintro ⟨⟩
    exact ⟨_, _, _, ‹_›, ‹_›, rfl⟩
  · rintro ⟨us, d, vs, ha, hb, rfl⟩
    exact .seq ha hb

theorem derives_opt_iff {skip : Cursor → Cursor} {a : Phrase} {c d : Cursor} {ts : List Tree} :
    Derives skip (.opt a) c ts d ↔ ts = [] ∧ d = c ∨ Derives skip a c ts d := by
  constructor
  · intro h
    cases h with
    | absent => exact .inl ⟨rfl, rfl⟩
    | present h => exact .inr h
  · rintro (⟨rfl, rfl⟩ | h)
    · exact .absent
    · exact .present h

namespace Rule

open Phrase

variable {r q : Rule} {a : Phrase} {c d x : Cursor} {ts us : List Tree} {ps : List Pattern}

/-- What a rule finds is what its right-hand side finds. -/
theorem found_production_of_found (h : (r.read c).found = some (ts, d)) :
    ∃ us, ts = [⟨r, ⟨c.pos, d.stop⟩, us⟩] ∧
      (r.production.read Rule.read c).found = some (us, d) := by
  rw [r.found_read_eq, Option.map_eq_some_iff] at h
  obtain ⟨⟨us, e⟩, hu, hx⟩ := h
  obtain ⟨hts, rfl⟩ := Prod.mk.inj hx
  exact ⟨us, hts.symm, hu⟩

/-! ## Operators -/

/-- The lexeme that a rule is made of, if it is an operator spelled in fixed ways. -/
def spelling? (r : Rule) : Option Pattern :=
  match r.production with
  | .spaced (.token p) => if p.isSpelling then some p else none
  | _ => none

theorem token?_of_derives {p : Pattern} (hr : r.spelling? = some p)
    (h : r.production.Derives c ts d) : p.isSpelling ∧ c.token? p = some d := by
  unfold spelling? at hr
  split at hr
  · rename_i q hq
    simp only [Option.ite_none_right_eq_some, Option.some.injEq] at hr
    obtain ⟨hs, rfl⟩ := hr
    rw [hq] at h
    exact ⟨hs, (derives_token_iff.mp h).2⟩
  · exact absurd hr (by simp)

theorem token?_of_found {p : Pattern} (hr : r.spelling? = some p)
    (h : (r.read c).found = some (ts, d)) : p.isSpelling ∧ c.token? p = some d := by
  obtain ⟨us, -, hd⟩ := derives_of_read h
  exact token?_of_derives hr hd

/-- Whether nothing of `ps` stands behind the operator `q` where the pattern `p` applies too. -/
def overruns (p : Pattern) (ps : List Pattern) (q : Rule) : Bool :=
  match q.spelling? with
  | none => false
  | some w => (Pattern.tails p w).all fun h => Pattern.clash h [.idle] && ps.all (·.bars h)

/-- Behind the shorter one of two operators, the rest of the longer one stands in the way. -/
theorem not_followed_of_overruns {p : Pattern} (hq : q.overruns p ps)
    (h : (q.read c).found = some (ts, d)) (hp : (p.split? c.rest).isSome) : ¬d.Followed ps := by
  unfold overruns at hq
  split at hq
  · exact absurd hq (by simp)
  · rename_i w hw
    obtain ⟨hspell, htok⟩ := token?_of_found hw h
    obtain ⟨t, ht, -, -⟩ := Cursor.passes_of_token? htok
    obtain ⟨k, hk, hfits⟩ := Pattern.exists_tail hspell ht hp
    have hk' := List.all_eq_true.mp hq k hk
    simp only [Bool.and_eq_true] at hk'
    exact Cursor.not_followed_of_fits hk'.1 hk'.2 hfits

/-- Whether no operator of a list is spelled like the beginning of one before it, given what
follows. -/
def inTurn (ps : List Pattern) : List Rule → Bool
  | [] => true
  | r :: rs =>
    (ps.all r.follow.contains) && r.spelling?.any (fun p => rs.all (overruns p ps)) && inTurn ps rs

/-- A choice between operators is decided, if none is the beginning of one before it. -/
theorem decided_anyOf_of_inTurn (ok : Tree → Prop) (skip : Cursor → Cursor) {rs : List Rule}
    (h : inTurn ps (r :: rs)) : (anyOf r rs).Decided ok skip ps := by
  induction rs generalizing r with
  | nil =>
    simp only [inTurn, Bool.and_eq_true] at h
    exact fun p hp => List.contains_iff_mem.mp (List.all_eq_true.mp h.1.1 p hp)
  | cons q rs ih =>
    rw [inTurn, Bool.and_eq_true, Bool.and_eq_true] at h
    obtain ⟨⟨hps, hany⟩, hrest⟩ := h
    refine ⟨fun p hp => List.contains_iff_mem.mp (List.all_eq_true.mp hps p hp), ih hrest, ?_⟩
    intro c d ts hf _ hd
    obtain ⟨q', hq', hfound⟩ := exists_of_found_anyOf hf
    cases hr : r.spelling? with
    | none => simp [hr] at hany
    | some p =>
      rw [hr, Option.any_some] at hany
      have hover := List.all_eq_true.mp hany q' hq'
      cases hx : (r.read c).found with
      | none => exact hx
      | some x =>
        obtain ⟨-, htok⟩ := token?_of_found hr hx
        obtain ⟨t, ht, -, -⟩ := Cursor.passes_of_token? htok
        exact absurd hd (not_followed_of_overruns hover hfound (Option.isSome_of_eq_some ht))

theorem arithmeticOperator_decided (ok : Tree → Prop) : arithmeticOperator.Decided ok :=
  ⟨rfl, decided_anyOf_of_inTurn ok _ (by decide)⟩

theorem relationalOperator_decided (ok : Tree → Prop) : relationalOperator.Decided ok :=
  ⟨rfl, decided_anyOf_of_inTurn ok _ (by decide)⟩

/-- Where the line ends, no rule is found. -/
theorem found_eq_none_of_atLineEnd (r : Rule) (h : c.skipGap.rest.AtLineEnd) :
    (r.read c).found = none := by
  cases hr : (r.read c).found with
  | none => rfl
  | some x =>
    have hn : Pattern.allClash r.firstLexemes [] := List.all_eq_true.mpr fun _ _ => rfl
    have ho := (opens_of_found hr).not_followed r.isClear_of_mem_firstLexemes hn
    exact absurd (.inl h) ho

/-- No arithmetic operator stands before an operand where a relation or a logical operator stands:
a slash would be the first half of an inequality. -/
theorem not_followed_of_arithmeticOperator {us vs : List Tree} {x y : Cursor}
    (hc : c.skipGap = c) (h : (arithmeticOperator.read c).found = some (us, x))
    (k : (valueReturningCode.read x.skipGap).found = some (vs, y)) :
    ¬c.Followed arithmeticStatement.follow := by
  obtain ⟨_, -, hop⟩ := found_production_of_found h
  obtain ⟨q, hq, hq'⟩ := exists_of_found_anyOf hop
  have hx : x.Followed valueReturningCode.firstLexemes :=
    .inr ((opens_of_found k).congr (Cursor.rest_skipGap_skip .spaced x))
  have hover : arithmeticStatement.follow.all fun p =>
      [power, multiplication, division, addition, subtraction].all
        (overruns p valueReturningCode.firstLexemes) := by decide
  rintro (hl | ⟨p, hp, hs⟩)
  · rw [found_eq_none_of_atLineEnd _ hl] at h
    exact absurd h (by simp)
  · rw [hc] at hs
    have hpq := List.all_eq_true.mp (List.all_eq_true.mp hover p hp) q hq
    exact absurd hx (not_followed_of_overruns hpq hq' hs)

theorem arithmeticStatement_decided (ok : Tree → Prop) : arithmeticStatement.Decided ok := by
  refine ⟨rfl, ?_, ⟨?_, ?_, rfl, fun c hc => ?_⟩, ?_⟩
  · exact Phrase.decided_of_settles ok .spaced (by decide)
  · exact Phrase.decided_of_settles ok .spaced (by decide)
  · decide
  · cases h : ((seq (.call arithmeticOperator) (.call valueReturningCode)).read Rule.read
        Cursor.skipGap c.skipGap).found with
    | none => rfl
    | some x =>
      obtain ⟨us, y, vs, hop, hval, -⟩ := Reading.found_andThen h
      have hc' := hc.congr (Cursor.rest_skipGap_skip .spaced c).symm
      exact absurd hc' (not_followed_of_arithmeticOperator c.skipGap_skipGap hop hval)
  · decide

/-! ## One lexeme further -/

/-- Where an integer is found, and behind it not the point and the digits of a float, there is no
float. -/
theorem float_absent (h : (integer.read c).found = some (ts, d)) (hd : d.Followed number.follow) :
    (float.read c).found = none := by
  cases hf : (float.read c).found with
  | none => rfl
  | some y =>
    obtain ⟨us, -, hint⟩ := derives_of_read h
    obtain ⟨vs, -, hflt⟩ := derives_of_read hf
    obtain ⟨_, x, _, hdig, hopt, -⟩ := derives_seq_iff.mp hint
    obtain ⟨_, x', _, hdig', hrest, -⟩ := derives_seq_iff.mp hflt
    obtain ⟨_, z, _, hpoint, hrest, -⟩ := derives_seq_iff.mp hrest
    obtain ⟨_, w, _, hfrac, -, -⟩ := derives_seq_iff.mp hrest
    obtain ⟨_, -, -, hdig⟩ := derives_call_iff.mp hdig
    obtain ⟨_, -, -, hdig'⟩ := derives_call_iff.mp hdig'
    obtain rfl : x = x' := Option.some.inj (hdig.symm.trans hdig')
    -- a point and a digit stand behind the first run of digits
    obtain ⟨-, hpoint⟩ := derives_token_iff.mp hpoint
    obtain ⟨p, hp, hxz, -⟩ := Cursor.passes_of_token? hpoint
    obtain ⟨_, -, -, hfrac⟩ := derives_call_iff.mp hfrac
    obtain ⟨q, hq, -⟩ := Cursor.passes_of_token? hfrac
    have hfits : Pattern.fits [.oneOf ['.'], .digit] x.rest := by
      obtain ⟨k, hk, hks⟩ := Pattern.exists_head (Option.isSome_of_eq_some hq)
      obtain rfl := List.mem_singleton.mp hk
      have hx : x.rest = '.' :: z.rest := by
        rw [show x.rest = p ++ z.rest from hxz.rest, Pattern.eq_of_split?_lit hp]
        rfl
      rw [hx]
      exact hks
    have hx := hopt.followed .compact (precisionSpec.isClear_of_mem_firstLexemes) hd
    refine absurd hx (Cursor.not_followed_of_fits ?_ ?_ hfits)
    · decide
    · decide

theorem number_decided (ok : Tree → Prop) : number.Decided ok := by
  refine ⟨rfl, ?_, ⟨?_, ?_, fun c d ts h _ hd => ?_⟩, ?_⟩
  · exact Phrase.decided_of_settles ok .compact (by decide)
  · exact Phrase.decided_of_settles ok .compact (by decide)
  · exact Phrase.decided_of_settles ok .compact (by decide)
  · exact float_absent h hd
  · decide

/-- Where an index is found, and behind it not the colon of a region, there is no region. -/
theorem arrayIndexRegion_absent
    (h : ((anyOf integer [name]).read Rule.read Cursor.skipGap c).found = some (ts, d))
    (hd : d.Followed arrayIndex.follow) : (arrayIndexRegion.read c).found = none := by
  cases hr : (arrayIndexRegion.read c).found with
  | none => rfl
  | some y =>
    obtain ⟨us, -, hreg⟩ := found_production_of_found hr
    rcases found_seq_opt hreg with ⟨vs, x, ws, hlow, hcolon, -⟩ | ⟨-, hcolon⟩
    · -- the lower bound is the index, so a colon stands behind the index
      obtain ⟨vs', -, hlow⟩ := found_production_of_found hlow
      have hx : d = x := by
        have := h.symm.trans hlow
        simp only [Option.some.injEq, Prod.mk.injEq] at this
        exact this.2
      have ho := Phrase.opens_of_found hcolon .spaced (by decide) rfl
      have ho' := ho.congr (Cursor.rest_skipGap_skip .spaced x)
      exact absurd (hx ▸ hd) (ho'.not_followed (by decide) (by decide))
    · have ho := Phrase.opens_of_found hcolon .spaced (by decide) rfl
      have ho' := ho.congr (Cursor.rest_skipGap_skip .spaced c)
      have hi := Phrase.opens_of_found h .spaced (by decide) rfl
      exact absurd hi (ho'.not_opens (by decide))

theorem arrayIndex_decided (ok : Tree → Prop) : arrayIndex.Decided ok := by
  refine ⟨rfl, ?_, ?_, fun c d ts h _ hd => arrayIndexRegion_absent h hd⟩
  · exact Phrase.decided_of_settles ok .spaced (by decide)
  · exact Phrase.decided_of_settles ok .spaced (by decide)

/-- Where a name is found, and behind it no parenthesis, there is neither an array access nor a
call. -/
theorem parenthesis_absent {r : Rule} {b : Phrase}
    (hr : r.production = .spaced (.seq (.call name) (.seq (punct ['(']) b)))
    (h : (name.read c).found = some (ts, d)) (hd : d.Followed accessedVariable.follow) :
    (r.read c).found = none := by
  cases hf : (r.read c).found with
  | none => rfl
  | some y =>
    obtain ⟨us, -, hacc⟩ := found_production_of_found hf
    rw [hr] at hacc
    obtain ⟨_, x, _, hname, hrest, -⟩ := Reading.found_andThen hacc
    obtain rfl : d = x := by
      have := h.symm.trans hname
      simp only [Option.some.injEq, Prod.mk.injEq] at this
      exact this.2
    obtain ⟨_, z, _, hparen, -, -⟩ := Reading.found_andThen hrest
    have ho := Phrase.opens_of_found hparen .spaced (by decide) (by decide)
    have ho' := ho.congr (Cursor.rest_skipGap_skip .spaced d)
    exact absurd hd (ho'.not_followed (by decide) (by decide))

theorem accessedVariable_decided (ok : Tree → Prop) : accessedVariable.Decided ok := by
  refine ⟨rfl, ?_, ⟨?_, ?_, fun c d ts h _ hd => parenthesis_absent rfl h hd⟩, ?_⟩
  · exact Phrase.decided_of_settles ok .spaced (by decide)
  · exact Phrase.decided_of_settles ok .spaced (by decide)
  · exact Phrase.decided_of_settles ok .spaced (by decide)
  · decide

/-! ## Values -/

/-- Two rules whose first lexemes clash are not found at one place. -/
theorem found_eq_none_of_opens {x : List Tree × Cursor} (h : (q.read c).found = some x)
    (hrq : Pattern.allClash q.firstLexemes r.firstLexemes) : (r.read c).found = none := by
  cases hr : (r.read c).found with
  | none => rfl
  | some y => exact absurd (opens_of_found hr) ((opens_of_found h).not_opens hrq)

/-- Behind a sign stands a digit or a letter, and so no number where a variable is found. -/
theorem number_absent (h : (accessedVariable.read c).found = some (ts, d)) :
    (number.read c).found = none := by
  cases hn : (number.read c).found with
  | none => rfl
  | some y =>
    obtain ⟨us, -, hnum⟩ := found_production_of_found hn
    obtain ⟨vs, -, hacc⟩ := found_production_of_found h
    have hclash : Pattern.allClash (anyOf float [integer]).openers
        (anyOf indexedArray [name]).openers := by decide
    -- both parts behind the option begin at the same text
    have hboth : ∀ {x z w : Cursor} {ts us : List Tree},
        ((anyOf float [integer]).read Rule.read id x).found = some (ts, z) →
        ((anyOf indexedArray [name]).read Rule.read Cursor.skipGap x.skipGap).found ≠
          some (us, w) := by
      intro x z w ts us hx hy
      have ho := Phrase.opens_of_found hx .compact (by decide) rfl
      have ho' := Phrase.opens_of_found hy .spaced (by decide) rfl
      exact ho.not_opens hclash (ho'.congr (Cursor.rest_skipGap_skip .spaced x))
    rcases found_seq_opt hnum with ⟨_, x, _, hsign, hnum, -⟩ | ⟨hsign, hnum⟩
    · rcases found_seq_opt hacc with ⟨_, x', _, hsign', hacc, -⟩ | ⟨hsign', -⟩
      · have hx : x = x' := by
          have := hsign.symm.trans hsign'
          simp only [Option.some.injEq, Prod.mk.injEq] at this
          exact this.2
        exact absurd (hx ▸ hacc) (hboth hnum)
      · rw [hsign'] at hsign
        exact absurd hsign (by simp)
    · rcases found_seq_opt hacc with ⟨_, x', _, hsign', -, -⟩ | ⟨-, hacc⟩
      · rw [hsign] at hsign'
        exact absurd hsign' (by simp)
      · exact absurd hacc (hboth hnum)

theorem atomicValue_absent (h : (accessedVariable.read c).found = some (ts, d)) :
    (atomicValue.read c).found = none := by
  cases ha : (atomicValue.read c).found with
  | none => rfl
  | some y =>
    obtain ⟨us, -, hval⟩ := found_production_of_found ha
    obtain ⟨q, hq, hq'⟩ := exists_of_found_anyOf hval
    simp only [List.mem_cons, List.not_mem_nil, or_false] at hq
    rcases hq with rfl | rfl | rfl
    · rw [found_eq_none_of_opens h (by decide)] at hq'
      exact absurd hq' (by simp)
    · rw [found_eq_none_of_opens h (by decide)] at hq'
      exact absurd hq' (by simp)
    · rw [number_absent h] at hq'
      exact absurd hq' (by simp)

end Rule

/-- What is asked of the array access in a variable: `Q`, if it stands at the start of the
variable, where a call could stand too. -/
def Tree.Operand (Q : Tree → Prop) (v : Tree) : Prop :=
  v.rule = .accessedVariable → ∀ x ∈ v.children, x.rule = .indexedArray →
    x.span.start = v.span.start → Q x

/-- A condition on array accesses under which they are no calls. -/
def TellsCalls (Q : Tree → Prop) : Prop :=
  ∀ c x d, (Rule.indexedArray.read c).found = some ([x], d) → Q x →
    (Rule.functionCall.read c).found = none

namespace Rule

open Phrase

variable {Q : Tree → Prop} {r q : Rule} {c d : Cursor} {ts : List Tree}

theorem functionCall_absent (hQ : TellsCalls Q)
    (h : (accessedVariable.read c).found = some (ts, d)) (hts : ∀ t ∈ ts, t.Operand Q)
    (hd : d.Followed valueReturningCode.follow) : (functionCall.read c).found = none := by
  cases hf : (functionCall.read c).found with
  | none => rfl
  | some y =>
    obtain ⟨us, rfl, hacc⟩ := found_production_of_found h
    obtain ⟨_, -, hcall⟩ := derives_of_read hf
    have hcall' : Derives id (.call functionCall) c _ _ := derives_call_iff.mpr ⟨_, rfl, hcall⟩
    have hclean : c.skipGap = c := hcall'.skipGap_eq rfl
    rcases found_seq_opt hacc with ⟨_, x, _, hsign, -, -⟩ | ⟨-, hacc⟩
    · rw [found_eq_none_of_opens hsign (by decide)] at hf
      exact absurd hf (by simp)
    · rw [hclean] at hacc
      obtain ⟨q, hq, hq'⟩ := exists_of_found_anyOf hacc
      simp only [List.mem_cons, List.not_mem_nil, or_false] at hq
      rcases hq with rfl | rfl
      · obtain ⟨vs, rfl, -⟩ := found_production_of_found hq'
        have hop := hts _ (List.mem_singleton_self _) rfl _ (List.mem_singleton_self _) rfl rfl
        rw [hQ c _ d hq' hop] at hf
        exact absurd hf (by simp)
      · have hd' : d.Followed accessedVariable.follow := hd.mono (by decide)
        rw [parenthesis_absent rfl hq' hd'] at hf
        exact absurd hf (by simp)

theorem valueReturningCode_decided (hQ : TellsCalls Q) :
    valueReturningCode.Decided (Tree.Operand Q) := by
  refine ⟨rfl, ?_, ⟨?_, ⟨?_, ?_, fun c d ts h _ _ => ?_⟩, fun c d ts h _ _ => ?_⟩,
    fun c d ts h hts hd => ?_⟩
  · exact Phrase.decided_of_settles _ .spaced (by decide)
  · exact Phrase.decided_of_settles _ .spaced (by decide)
  · exact Phrase.decided_of_settles _ .spaced (by decide)
  · exact Phrase.decided_of_settles _ .spaced (by decide)
  · exact atomicValue_absent h
  · have ho := Phrase.opens_of_found h .spaced (by decide) rfl
    exact found_eq_none_of_avoids .spaced (by decide) (.inr ho)
  · have hany : ((anyOf inPlaceArray [atomicValue, accessedVariable]).read Rule.read
        Cursor.skipGap c).found = some (ts, d) := h
    obtain ⟨q, hq, hq'⟩ := exists_of_found_anyOf hany
    simp only [List.mem_cons, List.not_mem_nil, or_false] at hq
    rcases hq with rfl | rfl | rfl
    · exact found_eq_none_of_opens hq' (by decide)
    · exact found_eq_none_of_opens hq' (by decide)
    · exact functionCall_absent hQ hq' hts hd

/-- The condition on the children of a node under which its rule is decided. -/
def Asks (Q : Tree → Prop) (r : Rule) (t : Tree) : Prop := r = valueReturningCode → t.Operand Q

/-- **Every rule is decided**, if array accesses can be told from calls. -/
theorem decided (hQ : TellsCalls Q) (r : Rule) : r.Decided (Asks Q r) := by
  by_cases h : r.settles
  · exact decided_of_settles _ h
  · have hr : r ∈ all.filter (!·.settles) := List.mem_filter.mpr ⟨r.mem_all, by simpa using h⟩
    have hlist : all.filter (!·.settles) = [number, arithmeticOperator, relationalOperator,
        arrayIndex, accessedVariable, valueReturningCode, arithmeticStatement] := by
      decide
    rw [hlist] at hr
    simp only [List.mem_cons, List.not_mem_nil, or_false] at hr
    rcases hr with rfl | rfl | rfl | rfl | rfl | rfl | rfl
    · exact number_decided _
    · exact arithmeticOperator_decided _
    · exact relationalOperator_decided _
    · exact arrayIndex_decided _
    · exact accessedVariable_decided _
    · have hset : Asks Q valueReturningCode = Tree.Operand Q := by
        funext t
        exact propext ⟨fun h => h rfl, fun h _ => h⟩
      rw [hset]
      exact valueReturningCode_decided hQ
    · exact arithmeticStatement_decided _

end Rule

/-- What a rule derives, it finds, if array accesses can be told from calls in the trees and the
derivation ends before something that may follow. -/
theorem Rule.found_of_derives {Q : Tree → Prop} (hQ : TellsCalls Q) {r : Rule} {c d : Cursor}
    {ts : List Tree} (h : r.production.Derives c ts d)
    (hts : (⟨r, ⟨c.pos, d.stop⟩, ts⟩ : Tree).Settled (Rule.Asks Q))
    (hd : d.Followed r.follow) :
    (r.read c).found = some ([⟨r, ⟨c.pos, d.stop⟩, ts⟩], d) := by
  have hcall : Derives id (.call r) c [⟨r, ⟨c.pos, d.stop⟩, ts⟩] d :=
    derives_call_iff.mpr ⟨ts, rfl, h⟩
  have hmany : (Phrase.call r).opensWithMany → id c = c := fun _ => rfl
  exact hcall.found (P := fun _ => True) (Rule.decided hQ) .compact
    (List.forall_mem_singleton.mpr ⟨trivial, hts⟩) (fun _ hp => hp) hmany hd

end FreeForm
