import FreeForm.Proofs.Choices

/-!
# Calls and array accesses

A call and an array access begin alike, and a call is tried first.  An array access without a
region among its indices reads as a call too (`Rule.found_functionCall_of_indices`).  With a region
it does not, because no value ends in front of a colon or begins with one
(`tellsCalls_hasRegion`).
-/

namespace FreeForm

/-! ## Trees without array accesses -/

/-- The rules of the nodes of a derivation are closed under calls. -/
theorem Derives.rule_mem {rs : List Rule} (hrs : ∀ r ∈ rs, ∀ q ∈ r.production.calls, q ∈ rs)
    {skip : Cursor → Cursor} {a : Phrase} {c d : Cursor} {ts : List Tree}
    (h : Derives skip a c ts d) (ha : ∀ q ∈ a.calls, q ∈ rs) :
    ∀ t ∈ ts, ∀ n ∈ t.nodes, n.rule ∈ rs := by
  have hnode : ∀ {r : Rule} {x : Span} {us : List Tree}, r ∈ rs →
      (∀ t ∈ us, ∀ n ∈ t.nodes, n.rule ∈ rs) →
      ∀ t ∈ [(⟨r, x, us⟩ : Tree)], ∀ n ∈ t.nodes, n.rule ∈ rs := by
    intro r x us hr hus
    simp only [List.mem_singleton, forall_eq]
    intro n hn
    rcases Tree.mem_nodes_iff.mp hn with rfl | ⟨u, hu, hn⟩
    · exact hr
    · exact hus u hu n hn
  induction h with
  | token | absent | never => simp
  | @lexeme _ r p c d hr h => exact hnode (ha r (List.mem_singleton_self r)) (by simp)
  | @compact _ r a c d us hr h ih | @spaced _ r a c d us hr h ih =>
    have hmem := ha r (List.mem_singleton_self r)
    have hcalls := hrs r hmem
    rw [hr] at hcalls
    exact hnode hmem (ih hcalls)
  | seq _ _ iha ihb =>
    intro t ht
    rcases List.mem_append.mp ht with ht | ht
    · exact iha (fun q hq => ha q (List.mem_append_left _ hq)) t ht
    · exact ihb (fun q hq => ha q (List.mem_append_right _ hq)) t ht
  | left _ ih => exact ih fun q hq => ha q (List.mem_append_left _ hq)
  | right _ ih => exact ih fun q hq => ha q (List.mem_append_right _ hq)
  | present _ ih | once _ ih => exact ih ha
  | again _ _ ihm iha =>
    intro t ht
    rcases List.mem_append.mp ht with ht | ht
    · exact ihm ha t ht
    · exact iha ha t ht

/-- No node of the tree is an array access. -/
def Tree.AccessFree (t : Tree) : Prop := ∀ n ∈ t.nodes, n.rule ≠ .indexedArray

theorem Tree.AccessFree.settled {t : Tree} (h : t.AccessFree) (Q : Tree → Prop) :
    t.Settled (Rule.Asks Q) := by
  intro n hn v hv _ _ x hx hr
  have hnx : x ∈ t.nodes :=
    mem_nodes_trans hn (mem_nodes_trans (mem_nodes_of_child hv) (mem_nodes_of_child hx))
  exact absurd hr (h x hnx)

theorem Tree.accessFree_of_children {r : Rule} {x : Span} {ts : List Tree}
    (hr : r ≠ .indexedArray) (hts : ∀ t ∈ ts, t.AccessFree) : (⟨r, x, ts⟩ : Tree).AccessFree := by
  intro n hn
  rcases mem_nodes_iff.mp hn with rfl | ⟨u, hu, hn⟩
  · exact hr
  · exact hts u hu n hn

/-- The tree is an array access with a region among its indices. -/
def Tree.HasRegion (t : Tree) : Prop :=
  ∃ i ∈ t.children, ∃ j ∈ i.children, j.rule = .arrayIndexRegion

theorem tellsCalls_false : TellsCalls fun _ => False := fun _ _ _ _ h => h.elim

/-! ## Derivations without array accesses -/

/-- The phrase leads from `c` to `d` and leaves trees without array accesses. -/
def Phrase.Plain (skip : Cursor → Cursor) (a : Phrase) (c d : Cursor) : Prop :=
  ∃ ts, (∀ t ∈ ts, t.AccessFree) ∧ Derives skip a c ts d

namespace Phrase.Plain

variable {skip skip' : Cursor → Cursor} {r : Rule} {p : Pattern} {a b : Phrase} {c d e : Cursor}

theorem token (h : c.token? p = some d) : (Phrase.token p).Plain skip c d :=
  ⟨[], by simp, .token h⟩

theorem absent : (opt a).Plain skip c c := ⟨[], by simp, .absent⟩

theorem never : (many a).Plain skip c c := ⟨[], by simp, .never⟩

theorem left (h : a.Plain skip c d) : (alt a b).Plain skip c d := by
  obtain ⟨ts, hts, h⟩ := h
  exact ⟨ts, hts, .left h⟩

theorem right (h : b.Plain skip c d) : (alt a b).Plain skip c d := by
  obtain ⟨ts, hts, h⟩ := h
  exact ⟨ts, hts, .right h⟩

theorem present (h : a.Plain skip c d) : (opt a).Plain skip c d := by
  obtain ⟨ts, hts, h⟩ := h
  exact ⟨ts, hts, .present h⟩

theorem once (h : a.Plain skip c d) : (many a).Plain skip c d := by
  obtain ⟨ts, hts, h⟩ := h
  exact ⟨ts, hts, .once h⟩

theorem append {ts us : List Tree} (hts : ∀ t ∈ ts, t.AccessFree) (hus : ∀ t ∈ us, t.AccessFree) :
    ∀ t ∈ ts ++ us, t.AccessFree := by
  intro t ht
  rcases List.mem_append.mp ht with ht | ht
  · exact hts t ht
  · exact hus t ht

theorem seq (h : a.Plain skip c d) (k : b.Plain skip (skip d) e) :
    (Phrase.seq a b).Plain skip c e := by
  obtain ⟨ts, hts, h⟩ := h
  obtain ⟨us, hus, k⟩ := k
  exact ⟨ts ++ us, append hts hus, .seq h k⟩

theorem again (h : (many a).Plain skip c d) (k : a.Plain skip (skip d) e) :
    (many a).Plain skip c e := by
  obtain ⟨ts, hts, h⟩ := h
  obtain ⟨us, hus, k⟩ := k
  exact ⟨ts ++ us, append hts hus, .again h k⟩

theorem compact (hr : r.production = .compact a) (hne : r ≠ .indexedArray)
    (h : a.Plain id c d) : (Phrase.call r).Plain skip c d := by
  obtain ⟨ts, hts, h⟩ := h
  refine ⟨_, ?_, .compact hr h⟩
  exact List.forall_mem_singleton.mpr (Tree.accessFree_of_children hne hts)

theorem spaced (hr : r.production = .spaced a) (hne : r ≠ .indexedArray)
    (h : a.Plain Cursor.skipGap c d) : (Phrase.call r).Plain skip c d := by
  obtain ⟨ts, hts, h⟩ := h
  refine ⟨_, ?_, .spaced hr h⟩
  exact List.forall_mem_singleton.mpr (Tree.accessFree_of_children hne hts)

theorem call (h : (Phrase.call r).Plain skip c d) : (Phrase.call r).Plain skip' c d := by
  obtain ⟨ts, hts, h⟩ := h
  exact ⟨ts, hts, derives_call_iff.mpr (derives_call_iff.mp h)⟩

end Phrase.Plain

namespace Rule

open Phrase

variable {skip : Cursor → Cursor} {q : Rule} {c d : Cursor} {t : Tree} {ts us : List Tree}

/-- An integer or a name holds no array access. -/
theorem plain_of_bound (hq : q ∈ [integer, name]) (h : Derives skip (.call q) c ts d) :
    (Phrase.call q).Plain skip c d := by
  have hclosed : ∀ r ∈ [integer, name, digits, precisionSpec], ∀ p ∈ r.production.calls,
      p ∈ [integer, name, digits, precisionSpec] := by decide
  refine ⟨ts, fun t ht n hn hr => ?_, h⟩
  have hmem := h.rule_mem hclosed (fun p hp => ?_) t ht n hn
  · rw [hr] at hmem
    exact absurd hmem (by decide)
  · rw [List.mem_singleton.mp hp]
    exact List.mem_append_left [digits, precisionSpec] hq

/-- An integer or a name is a value. -/
theorem plain_value_of_bound (hq : q ∈ [integer, name]) (h : Derives skip (.call q) c ts d) :
    (Phrase.call valueReturningCode).Plain skip c d := by
  have hplain := plain_of_bound hq h
  simp only [List.mem_cons, List.not_mem_nil, or_false] at hq
  rcases hq with rfl | rfl
  · have hnumber : (Phrase.call number).Plain Cursor.skipGap c d :=
      .compact rfl (by decide) (.seq .absent (.right hplain.call))
    have hatom : (Phrase.call atomicValue).Plain Cursor.skipGap c d :=
      .spaced rfl (by decide) (.right (.right hnumber))
    exact .spaced rfl (by decide) (.right (.right (.left hatom)))
  · -- a name begins where it is tried, so there is no noise to pass behind the absent sign
    have hclean : c.skipGap = c := h.skipGap_eq rfl
    have hname : (Phrase.call name).Plain Cursor.skipGap c.skipGap d := by
      rw [hclean]
      exact hplain.call
    have hacc : (Phrase.call accessedVariable).Plain Cursor.skipGap c d :=
      .spaced rfl (by decide) (.seq .absent (.right hname))
    exact .spaced rfl (by decide) (.right (.right (.right hacc)))

/-- Where an integer or a name ends before something that may follow a value, a value is found that
ends with it. -/
theorem found_value_of_bound (hq : q ∈ [integer, name]) (h : (q.read c).found = some (ts, d))
    (hd : d.Followed valueReturningCode.follow) :
    ∃ us, (valueReturningCode.read c).found = some (us, d) := by
  obtain ⟨us, rfl, hq'⟩ := derives_of_read h
  have hcall : Derives id (.call q) c _ d := derives_call_iff.mpr ⟨us, rfl, hq'⟩
  obtain ⟨vs, hvs, hval⟩ := plain_value_of_bound hq hcall
  obtain ⟨ws, rfl, hprod⟩ := derives_call_iff.mp hval
  have hsettled := (hvs _ (List.mem_singleton_self _)).settled fun _ => False
  exact ⟨_, found_of_derives tellsCalls_false hprod hsettled hd⟩

/-! ## Without a region, an array access is a call -/

/-- An index that is no region is an argument. -/
theorem plain_argument_of_index (h : Derives skip (.call arrayIndex) c ts d)
    (hts : ∀ t ∈ ts, ∀ u ∈ t.children, u.rule ≠ arrayIndexRegion) :
    (Phrase.call argument).Plain skip c d := by
  obtain ⟨us, rfl, hprod⟩ := derives_call_iff.mp h
  have hus : ∀ u ∈ us, u.rule ≠ arrayIndexRegion := hts _ (List.mem_singleton_self _)
  obtain ⟨q, hq, hcall⟩ := derives_anyOf hprod
  have hqs : q ∈ [integer, name] := by
    rcases List.mem_cons.mp hq with rfl | hq
    · obtain ⟨vs, rfl, -⟩ := derives_call_iff.mp hcall
      exact absurd rfl (hus _ (List.mem_singleton_self _))
    · exact hq
  exact .spaced rfl (by decide) (plain_value_of_bound hqs hcall)

/-- Further indices that are no regions are further arguments. -/
theorem plain_arguments_of_indices {a : Phrase}
    (h : Derives skip (.many (.seq a (.call arrayIndex))) c ts d) (ha : a = punct [','])
    (hts : ∀ t ∈ ts, ∀ u ∈ t.children, u.rule ≠ arrayIndexRegion) :
    (Phrase.many (.seq a (.call argument))).Plain skip c d := by
  have hround : ∀ {c d : Cursor} {ts : List Tree}, Derives skip (.seq a (.call arrayIndex)) c ts d →
      (∀ t ∈ ts, ∀ u ∈ t.children, u.rule ≠ arrayIndexRegion) →
      (Phrase.seq a (.call argument)).Plain skip c d := by
    intro c d ts h hts
    obtain ⟨us, x, vs, hcomma, hindex, rfl⟩ := derives_seq_iff.mp h
    subst ha
    obtain ⟨-, htok⟩ := derives_token_iff.mp hcomma
    have hvs := fun t ht => hts t (List.mem_append_right us ht)
    exact .seq (.token htok) (plain_argument_of_index hindex hvs)
  generalize hb : Phrase.many (.seq a (.call arrayIndex)) = b at h
  induction h with
  | never => exact .never
  | once h =>
    cases hb
    exact .once (hround h hts)
  | again hm h ihm _ =>
    cases hb
    exact .again (ihm (fun t ht => hts t (List.mem_append_left _ ht)) hround rfl)
      (hround h fun t ht => hts t (List.mem_append_right _ ht))
  | _ => cases hb

/-- **An array access without a region reads as a call**, which ends where it ends. -/
theorem found_functionCall_of_indices (h : (indexedArray.read c).found = some ([t], d))
    (ht : ¬t.HasRegion) : ∃ us, (functionCall.read c).found = some (us, d) := by
  obtain ⟨ts, hts, hprod⟩ := derives_of_read h
  have hus : ∀ i ∈ ts, ∀ u ∈ i.children, u.rule ≠ arrayIndexRegion := by
    intro i hi u hu hr
    refine ht ⟨i, ?_, u, hu, hr⟩
    rw [List.head_eq_of_cons_eq hts]
    exact hi
  obtain ⟨ns, x, us, hname, hrest, rfl⟩ := derives_seq_iff.mp hprod
  obtain ⟨ps, y, us, hopen, hrest₁, rfl⟩ := derives_seq_iff.mp hrest
  obtain ⟨is, z, us, hindex, hrest₂, rfl⟩ := derives_seq_iff.mp hrest₁
  obtain ⟨js, w, us, hindices, hclose, rfl⟩ := derives_seq_iff.mp hrest₂
  obtain ⟨-, hopen⟩ := derives_token_iff.mp hopen
  obtain ⟨-, hclose⟩ := derives_token_iff.mp hclose
  have hfirst := plain_argument_of_index hindex fun i hi => hus i (by simp [hi])
  have hothers := plain_arguments_of_indices hindices rfl fun i hi => hus i (by simp [hi])
  have hargs : (Phrase.call arguments).Plain Cursor.skipGap y.skipGap w :=
    .spaced rfl (by decide) (.seq hfirst hothers)
  obtain ⟨ts, hfree, hcall⟩ : (Phrase.seq (.call name)
      (inParentheses (.opt (.call arguments)))).Plain Cursor.skipGap c d :=
    .seq (plain_of_bound (by simp) hname)
      (.seq (.token hopen) (.seq (.present hargs) (.token hclose)))
  -- whatever follows, since nothing behind the closing parenthesis is read
  have hd : d.Followed [.lit []] := .inr ⟨_, List.mem_singleton_self _, rfl⟩
  have hdec : (Phrase.seq (.call name) (inParentheses (.opt (.call arguments)))).Decided
      (fun _ => True) Cursor.skipGap [.lit []] :=
    Phrase.decided_of_settles _ .spaced (by decide)
  have hf := hcall.found (decided tellsCalls_false) .spaced
    (fun t ht => ⟨trivial, (hfree t ht).settled _⟩) hdec (by simp [opensWithMany]) hd
  exact ⟨_, found_of_production hf⟩

/-! ## With a region, it is not -/

/-- Two values that begin at one place end at one place. -/
theorem found_unique {x y : List Tree × Cursor} {f : Reading} (h : f.found = some x)
    (k : f.found = some y) : x = y := Option.some.inj (h.symm.trans k)

/-- Where an argument and an index are found, both before a comma or a parenthesis, the index is no
region, and both end at the same place. -/
theorem index_of_argument (h : (argument.read c).found = some (ts, d))
    (k : (arrayIndex.read c).found = some (us, e)) (hd : d.Followed arrayIndex.follow)
    (he : e.Followed arrayIndex.follow) :
    d = e ∧ ∀ u ∈ us, ∀ j ∈ u.children, j.rule ≠ arrayIndexRegion := by
  obtain ⟨vs, -, hval⟩ := found_production_of_found h
  have hval' : (valueReturningCode.read c).found = some (vs, d) := hval
  -- a bound before something that may follow a value is this value
  have hbound : ∀ {q : Rule} {ws : List Tree} {x : Cursor}, q ∈ [integer, name] →
      (q.read c).found = some (ws, x) → x.Followed valueReturningCode.follow → d = x := by
    intro q ws x hq hx hfollow
    obtain ⟨_, hv⟩ := found_value_of_bound hq hx hfollow
    exact (Prod.mk.inj (found_unique hval' hv)).2
  obtain ⟨ws, rfl, hindex⟩ := found_production_of_found k
  obtain ⟨q, hq, hq'⟩ := exists_of_found_anyOf hindex
  obtain ⟨xs, rfl, hprod⟩ := found_production_of_found hq'
  rcases List.mem_cons.mp hq with rfl | hq
  · exfalso
    rcases found_seq_opt hprod with ⟨ls, x, _, hlow, hcolon, -⟩ | ⟨-, hcolon⟩
    · have ho := Phrase.opens_of_found hcolon .spaced (by decide) rfl
      have ho' : x.Opens [.lit [':']] := ho.congr (Cursor.rest_skipGap_skip .spaced x)
      obtain ⟨_, -, hlow⟩ := found_production_of_found hlow
      obtain ⟨p, hp, hp'⟩ := exists_of_found_anyOf hlow
      have hx : x.Followed valueReturningCode.follow := .inr (ho'.mono (by decide))
      rw [hbound hp hp' hx] at hd
      exact ho'.not_followed (by decide) (by decide) hd
    · have ho := Phrase.opens_of_found hcolon .spaced (by decide) rfl
      have ho' : c.Opens [.lit [':']] := ho.congr (Cursor.rest_skipGap_skip .spaced c)
      exact ho'.not_opens (by decide) (opens_of_found hval')
  · refine ⟨hbound hq hq' (he.mono (by decide)), ?_⟩
    simp only [List.mem_singleton, forall_eq]
    rintro rfl
    exact absurd hq (by decide)

/-- A round of a list of `r` with commas. -/
abbrev item (r : Rule) : Phrase := .seq (punct [',']) (.call r)

theorem found_item (h : ((item q).read Rule.read Cursor.skipGap c).found = some (ts, d)) :
    ∃ x us, c.token? (.lit [',']) = some x ∧ (q.read x.skipGap).found = some (us, d) ∧
      ts = us := by
  obtain ⟨us, x, vs, hcomma, hq, rfl⟩ := Reading.found_andThen h
  simp only [punct, Phrase.read, Reading.ofToken, Option.map_eq_some_iff, Prod.mk.injEq] at hcomma
  obtain ⟨_, hx, rfl, rfl⟩ := hcomma
  exact ⟨_, vs, hx, hq, rfl⟩

theorem opens_of_found_item {x : List Tree × Cursor}
    (h : ((item q).read Rule.read Cursor.skipGap c.skipGap).found = some x) :
    c.Opens [.lit [',']] := by
  have hopeners : (item q).openers = [.lit [',']] := rfl
  have ho : c.skipGap.Opens (item q).openers :=
    Phrase.opens_of_found h .spaced (by rw [hopeners]; decide) rfl
  exact (hopeners ▸ ho).congr (Cursor.rest_skipGap_skip .spaced c)

/-- What follows the rounds of a list, or a comma, follows the place before them. -/
theorem followed_of_rounds {n : Nat}
    (h : (readRounds (fun x => (item q).read Rule.read Cursor.skipGap x.skipGap) n c).found =
      some (ts, d)) (hd : d.Opens [.lit [')']]) : c.Followed arrayIndex.follow := by
  cases n with
  | zero =>
    simp only [readRounds, Reading.empty, Option.some.injEq, Prod.mk.injEq] at h
    rw [h.2]
    exact .inr (hd.mono (by decide))
  | succ n =>
    rcases Reading.found_orElse h with h | h
    · obtain ⟨us, x, vs, hx, -, -⟩ := Reading.found_andThen h
      exact .inr ((opens_of_found_item hx).mono (by decide))
    · simp only [Reading.empty, Option.some.injEq, Prod.mk.injEq] at h
      rw [h.2]
      exact .inr (hd.mono (by decide))

/-- Of two lists from one place to closing parentheses, one of indices and one of arguments, the
first holds no region. -/
theorem indices_of_arguments {m n : Nat} {i j : Cursor}
    (h : (readRounds (fun x => (item arrayIndex).read Rule.read Cursor.skipGap x.skipGap)
      n c).found = some (us, i))
    (k : (readRounds (fun x => (item argument).read Rule.read Cursor.skipGap x.skipGap)
      m c).found = some (ts, j)) (hi : i.Opens [.lit [')']]) (hj : j.Opens [.lit [')']]) :
    ∀ u ∈ us, ∀ r ∈ u.children, r.rule ≠ arrayIndexRegion := by
  induction n generalizing m c us ts with
  | zero =>
    simp only [readRounds, Reading.empty, Option.some.injEq, Prod.mk.injEq] at h
    rw [← h.1]
    simp
  | succ n ih =>
    rcases Reading.found_orElse h with h | h
    · obtain ⟨vs, x, ws, hx, hrest, rfl⟩ := Reading.found_andThen h
      have hcomma := opens_of_found_item hx
      have hcj : c ≠ j := by
        rintro rfl
        exact hcomma.not_opens (by decide) hj
      obtain ⟨y, _, hy, hindex, rfl⟩ := found_item hx
      cases m with
      | zero =>
        simp only [readRounds, Reading.empty, Option.some.injEq, Prod.mk.injEq] at k
        exact absurd k.2 hcj
      | succ m =>
        rcases Reading.found_orElse k with k | k
        · obtain ⟨vs', x', ws', hx', hrest', rfl⟩ := Reading.found_andThen k
          obtain ⟨y', _, hy', hargument, rfl⟩ := found_item hx'
          obtain rfl : y = y' := Option.some.inj (hy.symm.trans hy')
          obtain ⟨rfl, hno⟩ := index_of_argument hargument hindex
            (followed_of_rounds hrest' hj) (followed_of_rounds hrest hi)
          intro u hu
          rcases List.mem_append.mp hu with hu | hu
          · exact hno u hu
          · exact ih hrest hrest' u hu
        · simp only [Reading.empty, Option.some.injEq, Prod.mk.injEq] at k
          exact absurd k.2 hcj
    · simp only [Reading.empty, Option.some.injEq, Prod.mk.injEq] at h
      rw [← h.1]
      simp

theorem opens_of_found_close (h : ((punct [')']).read Rule.read Cursor.skipGap c.skipGap).found =
    some (ts, d)) : c.Opens [.lit [')']] := by
  have ho := Phrase.opens_of_found h .spaced (by decide) (by decide)
  exact ho.congr (Cursor.rest_skipGap_skip .spaced c)

/-- The parts of a list of `r` in parentheses: the first one, and the rounds of the others. -/
theorem found_list (h : ((Phrase.seq (.call q) (.many (item q))).read Rule.read Cursor.skipGap
    c).found = some (ts, d)) :
    ∃ us x vs n, (q.read c).found = some (us, x) ∧ ts = us ++ vs ∧
      (readRounds (fun y => (item q).read Rule.read Cursor.skipGap y.skipGap) n x.skipGap).found =
        some (vs, d) := by
  obtain ⟨us, x, vs, hfirst, hothers, rfl⟩ := Reading.found_andThen h
  rw [found_many .spaced rfl x.skipGap_skipGap] at hothers
  exact ⟨us, x, vs, _, hfirst, rfl, hothers⟩

theorem eq_nil_of_found_punct {w : Text}
    (h : ((punct w).read Rule.read Cursor.skipGap c).found = some (ts, d)) : ts = [] := by
  simp only [punct, Phrase.read, Reading.ofToken, Option.map_eq_some_iff, Prod.mk.injEq] at h
  obtain ⟨_, _, rfl, _⟩ := h
  rfl

theorem children_of_found_name (h : (name.read c).found = some (ts, d)) :
    ∀ t ∈ ts, t.children = [] := by
  obtain ⟨us, rfl, hprod⟩ := derives_of_read h
  exact List.forall_mem_singleton.mpr hprod.1

/-- Where a call is found, an array access has no region among its indices. -/
theorem indices_of_functionCall (h : (indexedArray.read c).found = some ([t], d))
    (hf : (functionCall.read c).found = some (us, e)) : ¬t.HasRegion := by
  obtain ⟨ts, hts, hacc⟩ := found_production_of_found h
  obtain ⟨_, -, hcall⟩ := found_production_of_found hf
  -- both begin with the same name and the same parenthesis
  obtain ⟨ns, x, is, hname, hacc₁, rfl⟩ := Reading.found_andThen hacc
  obtain ⟨_, x', _, hname', hcall₁, -⟩ := Reading.found_andThen hcall
  obtain ⟨-, rfl⟩ := Prod.mk.inj (found_unique hname hname')
  obtain ⟨ps, z, js, hopen, hacc₂, rfl⟩ := Reading.found_andThen hacc₁
  obtain ⟨_, z', _, hopen', hcall₂, -⟩ := Reading.found_andThen hcall₁
  obtain ⟨-, rfl⟩ := Prod.mk.inj (found_unique hopen hopen')
  obtain ⟨ks, i, ms, hfirst, hacc₃, rfl⟩ := Reading.found_andThen hacc₂
  obtain ⟨ls, w, os, hothers, hclose, rfl⟩ := Reading.found_andThen hacc₃
  obtain ⟨qs, v, rs, hargs, hclose', -⟩ := Reading.found_andThen hcall₂
  have hw := opens_of_found_close hclose
  have hv := opens_of_found_close hclose'
  rw [found_many .spaced rfl i.skipGap_skipGap] at hothers
  -- so the indices are the arguments
  have hno : ∀ u ∈ ks ++ ls, ∀ j ∈ u.children, j.rule ≠ arrayIndexRegion := by
    rcases Reading.found_orElse hargs with hargs | hargs
    · obtain ⟨_, -, hlist⟩ := found_production_of_found hargs
      obtain ⟨_, j, _, m, hargument, -, hrounds⟩ := found_list hlist
      have hi := (followed_of_rounds hothers hw).congr (Cursor.rest_skipGap_skip .spaced i)
      have hj := (followed_of_rounds hrounds hv).congr (Cursor.rest_skipGap_skip .spaced j)
      obtain ⟨rfl, hks⟩ := index_of_argument hargument hfirst hj hi
      have hls := indices_of_arguments hothers hrounds hw hv
      intro u hu
      rcases List.mem_append.mp hu with hu | hu
      · exact hks u hu
      · exact hls u hu
    · simp only [Reading.empty, Option.some.injEq, Prod.mk.injEq] at hargs
      rw [← hargs.2] at hv
      have ho : z.skipGap.Opens arrayIndex.firstLexemes := Rule.opens_of_found hfirst
      exact absurd hv (ho.not_opens (by decide))
  rintro ⟨u, hu, r, hr, hrule⟩
  rw [List.head_eq_of_cons_eq hts] at hu
  rcases List.mem_append.mp hu with hu | hu
  · rw [children_of_found_name hname u hu] at hr
    exact absurd hr List.not_mem_nil
  · rw [eq_nil_of_found_punct hopen, eq_nil_of_found_punct hclose, List.append_nil] at hu
    exact hno u hu r hr hrule

end Rule

/-- **An array access with a region reads as no call.** -/
theorem tellsCalls_hasRegion : TellsCalls Tree.HasRegion := by
  intro c t d h ht
  cases hf : (Rule.functionCall.read c).found with
  | none => rfl
  | some y => exact absurd ht (Rule.indices_of_functionCall h hf)

end FreeForm
