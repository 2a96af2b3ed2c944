import FreeForm.Proofs.ChainSpans
import FreeForm.Proofs.NoiseText

/-!
# Calls with and without parentheses

The parentheses behind the name of a subroutine leave no node.  That there are any is seen from the
span of the call alone: it ends behind the name if and only if it ends with a closing parenthesis,
because noise behind the last lexeme never belongs to a span, and a lexeme always does.

Which text makes up a group in parentheses is said without the rule for calls.  `Text.GroupAt` goes
along the text from one parenthesis to the other, and takes for arguments what a parse finds between
them.  `Text.IsEmptyGroup` describes a group without arguments by its noise.
-/

namespace FreeForm

open Pattern (lit)

/-- The character `x` stands at the offset `n`. -/
def Text.MarkAt (s : Text) (x : Char) (n : Nat) : Prop := ∃ r, s.dropBytes? n = some (x :: r)

/-- From the offset `q` up to the given one stands a complete group: an opening parenthesis, maybe
arguments, and a closing parenthesis, with noise between them. -/
inductive Text.GroupAt (s : Text) (q : Nat) : Nat → Prop
  | empty (hopen : s.MarkAt '(' q) (hclose : s.MarkAt ')' (skipNoise s (q + 1))) :
    GroupAt s q (skipNoise s (q + 1) + 1)
  | filled {t : Tree} {o : Options} (hopen : s.MarkAt '(' q)
    (ht : parseRange s ⟨skipNoise s (q + 1), s.size⟩ .arguments o = .ok t)
    (hclose : s.MarkAt ')' (skipNoise s t.span.stop)) :
    GroupAt s q (skipNoise s t.span.stop + 1)

/-- Noise, an opening parenthesis, noise and a closing parenthesis. -/
def Text.IsEmptyGroup (w : Text) : Prop :=
  ∃ g h, w = g ++ '(' :: (h ++ [')']) ∧ IsNoise false ('(' :: (h ++ [')'])) g ∧
    IsNoise false [')'] h

theorem Text.IsEmptyGroup.ne_nil {w : Text} (h : w.IsEmptyGroup) : w ≠ [] := by
  obtain ⟨g, k, rfl, -⟩ := h
  simp

/-- Noise in front of a text is noise in front of any text that begins alike. -/
theorem Text.IsNoise.congr_head {breaks : Bool} {r r' w : Text} (h : IsNoise breaks r w)
    (hr : r'.head? = r.head?) : IsNoise breaks r' w := by
  induction h with
  | nil => exact .nil
  | @cons k w hk _ ih =>
    have hhead : (w ++ r').head? = (w ++ r).head? := Pattern.head?_append_congr (.inr hr)
    refine .cons ?_ ih
    cases hk with
    | blank hc => exact .blank hc
    | comment hk hend => exact .comment hk fun x hx => hend x (hhead ▸ hx)
    | continuation hk => exact .continuation hk
    | lineBreak hb hc => exact .lineBreak hb hc

/-! ## Marks and groups at a place -/

namespace Cursor

variable {s w : Text} {c d : Cursor} {x : Char} {p : Pattern}

theorem token?_mark_iff :
    c.token? (lit [x]) = some d ↔ ∃ r, c.rest = x :: r ∧ d = .start r (c.pos + Text.size [x]) := by
  constructor
  · intro h
    obtain ⟨w, hw, hcd, hstop⟩ := passes_of_token? h
    obtain rfl : w = [x] := Pattern.eq_of_split?_lit hw
    obtain ⟨r, n, k⟩ := d
    obtain rfl : k = n := hstop
    obtain rfl : k = c.pos + Text.size [x] := hcd.pos
    exact ⟨r, hcd.rest, rfl⟩
  · rintro ⟨r, hr, rfl⟩
    rw [token?, hr]
    exact congrArg _ (Pattern.split?_lit_self [x] r)

/-- A mark stands where its lexeme is passed. -/
theorem At.markAt_iff (hc : c.At s) : s.MarkAt x c.pos ↔ ∃ d, c.token? (lit [x]) = some d := by
  simp only [Text.MarkAt, hc.dropBytes?, token?_mark_iff]
  constructor
  · rintro ⟨r, hr⟩
    exact ⟨_, r, Option.some.inj hr, rfl⟩
  · rintro ⟨d, r, hr, -⟩
    exact ⟨r, congrArg some hr⟩

theorem At.endsAt_of_token? (hc : c.At s) (h : c.token? p = some d) : d.At s ∧ d.EndsAt s d := by
  obtain ⟨w, -, hw, hstop⟩ := passes_of_token? h
  exact ⟨hc.passes hw, hc.passes hw, hstop, Nat.le_refl _, rfl⟩

end Cursor

section Groups

variable {s : Text} {c d : Cursor} {ts : List Tree}

/-- What a rule finds ends in front of noise, if it begins there. -/
theorem Rule.endsAt_of_found {r : Rule} (hc : c.At s) (hf : ∃ f, c.EndsAt s f)
    (h : (r.read c).found = some (ts, d)) : d.At s ∧ ∃ f, d.EndsAt s f := by
  obtain ⟨us, -, hd⟩ := derives_of_read h
  have hcall : Derives id (.call r) c [⟨r, ⟨c.pos, d.stop⟩, us⟩] d :=
    derives_call_iff.mpr ⟨us, rfl, hd⟩
  exact hcall.endsAt .compact hc hf

/-- No arguments begin with a closing parenthesis. -/
theorem Rule.arguments_absent (h : c.token? (lit [')']) = some d) :
    (arguments.read c).found = none := by
  cases hf : (arguments.read c).found with
  | none => rfl
  | some x =>
    have hgap : c.skipGap = c := Cursor.skipGap_of_token? (by decide) h
    obtain ⟨w, hw, -⟩ := Cursor.passes_of_token? h
    have ho : c.Opens [lit [')']] :=
      ⟨_, List.mem_singleton_self _, by rw [hgap, hw]; rfl⟩
    exact absurd (opens_of_found hf) (ho.not_opens (by decide))

/-- The parentheses of a call with the arguments between them. -/
abbrev Phrase.group : Phrase := inParentheses (.opt (.call .arguments))

/-- A group is found where its parentheses stand, and between them arguments or nothing. -/
theorem Phrase.found_group_iff :
    (group.read Rule.read Cursor.skipGap c).found = some (ts, d) ↔
      ∃ y, c.token? (lit ['(']) = some y ∧
        ((Rule.arguments.read y.skipGap).found = none ∧ ts = [] ∧
            y.skipGap.token? (lit [')']) = some d ∨
          ∃ w, (Rule.arguments.read y.skipGap).found = some (ts, w) ∧
            w.skipGap.token? (lit [')']) = some d) := by
  have found_punct {w : Text} {a b : Cursor} {us : List Tree} :
      ((punct w).read Rule.read Cursor.skipGap a).found = some (us, b) ↔
        us = [] ∧ a.token? (lit w) = some b := by
    simp only [punct, Phrase.read, Reading.ofToken, Option.map_eq_some_iff, Prod.mk.injEq]
    constructor
    · rintro ⟨_, h, rfl, rfl⟩
      exact ⟨rfl, h⟩
    · rintro ⟨rfl, h⟩
      exact ⟨b, h, rfl, rfl⟩
  constructor
  · intro h
    obtain ⟨_, y, _, hopen, hrest, rfl⟩ := Reading.found_andThen h
    obtain ⟨rfl, hy⟩ := found_punct.mp hopen
    refine ⟨y, hy, ?_⟩
    rcases found_seq_opt hrest with ⟨us, w, _, hargs, hclose, rfl⟩ | ⟨hnone, hclose⟩
    · obtain ⟨rfl, hd⟩ := found_punct.mp hclose
      exact .inr ⟨w, by simpa using hargs, hd⟩
    · obtain ⟨rfl, hd⟩ := found_punct.mp hclose
      rw [Cursor.skipGap_skipGap] at hd
      exact .inl ⟨hnone, rfl, hd⟩
  · rintro ⟨y, hy, hbody⟩
    have hrest : ((Phrase.seq (.opt (.call .arguments)) (punct [')'])).read Rule.read
        Cursor.skipGap y.skipGap).found = some (ts, d) := by
      rcases hbody with ⟨hnone, rfl, hd⟩ | ⟨w, hargs, hd⟩
      · have hopt : ((Phrase.opt (.call .arguments)).read Rule.read Cursor.skipGap
            y.skipGap).found = some ([], y.skipGap) := Reading.found_orElse_of_none hnone _
        rw [← y.skipGap_skipGap] at hd
        exact Reading.found_andThen_of_some hopt (found_punct.mpr ⟨rfl, hd⟩)
      · have hopt : ((Phrase.opt (.call .arguments)).read Rule.read Cursor.skipGap
            y.skipGap).found = some (ts, w) := Reading.found_orElse_of_some hargs _
        rw [← List.append_nil ts]
        exact Reading.found_andThen_of_some hopt (found_punct.mpr ⟨rfl, hd⟩)
    exact Reading.found_andThen_of_some (found_punct.mpr ⟨rfl, hy⟩) hrest

/-- **A group is found where the text has a complete one.** -/
theorem Text.groupAt_iff {j : Nat} (hc : c.At s) : s.GroupAt c.pos j ↔
    ∃ ts d, (Phrase.group.read Rule.read Cursor.skipGap c).found = some (ts, d) ∧ d.stop = j := by
  -- behind the opening parenthesis
  have behind {y : Cursor} (hy : c.token? (lit ['(']) = some y) :
      skipNoise s (c.pos + 1) = y.skipGap.pos ∧ y.skipGap.At s ∧ y.skipGap.EndsAt s y := by
    obtain ⟨hat, hends⟩ := hc.endsAt_of_token? hy
    obtain ⟨r, -, rfl⟩ := Cursor.token?_mark_iff.mp hy
    exact ⟨hat.skipNoise, hat.skip .spaced, hends.skip .spaced⟩
  -- at the closing one
  have closed {x d : Cursor} (hx : x.At s) (hd : x.token? (lit [')']) = some d) :
      s.MarkAt ')' x.pos ∧ d.stop = x.pos + 1 := by
    refine ⟨hx.markAt_iff.mpr ⟨d, hd⟩, ?_⟩
    obtain ⟨r, -, rfl⟩ := Cursor.token?_mark_iff.mp hd
    rfl
  constructor
  · intro h
    have hopen : s.MarkAt '(' c.pos := by cases h <;> assumption
    obtain ⟨y, hy⟩ := hc.markAt_iff.mp hopen
    obtain ⟨hskip, hgap, hends⟩ := behind hy
    cases h with
    | empty _ hclose =>
      rw [hskip] at hclose ⊢
      obtain ⟨d, hd⟩ := hgap.markAt_iff.mp hclose
      have hnone := Rule.arguments_absent hd
      exact ⟨[], d, Phrase.found_group_iff.mpr ⟨y, hy, .inl ⟨hnone, rfl, hd⟩⟩, (closed hgap hd).2⟩
    | @filled t o _ ht hclose =>
      rw [hskip] at ht
      obtain ⟨w, hw⟩ := hgap.found_of_parseRange ht
      obtain ⟨hwat, f, hf⟩ := Rule.endsAt_of_found hgap ⟨y, hends⟩ hw
      obtain ⟨us, hts, -⟩ := Rule.derives_of_read hw
      obtain rfl := List.head_eq_of_cons_eq hts
      rw [hf.skipNoise_stop] at hclose ⊢
      have hgap' : w.skipGap.At s := hwat.skip .spaced
      obtain ⟨d, hd⟩ := hgap'.markAt_iff.mp hclose
      exact ⟨_, d, Phrase.found_group_iff.mpr ⟨y, hy, .inr ⟨w, hw, hd⟩⟩, (closed hgap' hd).2⟩
  · rintro ⟨ts, d, h, rfl⟩
    obtain ⟨y, hy, hbody⟩ := Phrase.found_group_iff.mp h
    have hopen := hc.markAt_iff.mpr ⟨y, hy⟩
    obtain ⟨hskip, hgap, hends⟩ := behind hy
    rcases hbody with ⟨-, -, hd⟩ | ⟨w, hargs, hd⟩
    · obtain ⟨hclose, hstop⟩ := closed hgap hd
      rw [← hskip] at hclose hstop
      exact hstop ▸ .empty hopen hclose
    · obtain ⟨hwat, f, hf⟩ := Rule.endsAt_of_found hgap ⟨y, hends⟩ hargs
      obtain ⟨us, rfl, -⟩ := Rule.derives_of_read hargs
      obtain ⟨hclose, hstop⟩ := closed (hwat.skip .spaced) hd
      have hread : Tree.ReadIn s ⟨.arguments, ⟨y.skipGap.pos, w.stop⟩, us⟩ :=
        ⟨_, w, hgap, rfl, hargs⟩
      obtain ⟨r, -, hparse⟩ := hread.parseRange
      have ht := hparse { maxNesting := nestingDepth r } rfl (Nat.le_refl _)
      rw [← hskip] at ht
      rw [← hf.skipNoise_stop] at hclose hstop
      exact hstop ▸ .filled hopen ht hclose

/-- Where a group is found, no complete one has another end. -/
theorem Text.groupAt_iff_of_found {j : Nat} (hc : c.At s)
    (h : (Phrase.group.read Rule.read Cursor.skipGap c).found = some (ts, d)) :
    s.GroupAt c.pos j ↔ j = d.stop := by
  rw [groupAt_iff hc]
  constructor
  · rintro ⟨us, e, hfound, rfl⟩
    rw [(Prod.mk.inj (Option.some.inj (hfound.symm.trans h))).2]
  · rintro rfl
    exact ⟨ts, d, h, rfl⟩

theorem Text.not_groupAt_of_found_eq_none (hc : c.At s)
    (h : (Phrase.group.read Rule.read Cursor.skipGap c).found = none) :
    ∀ j, ¬s.GroupAt c.pos j := by
  intro j hj
  obtain ⟨ts, d, hfound, -⟩ := (groupAt_iff hc).mp hj
  rw [h] at hfound
  exact absurd hfound (by simp)

/-- Nothing is left by a group, or one node for its arguments. -/
theorem Phrase.trees_of_found_group
    (h : (group.read Rule.read Cursor.skipGap c).found = some (ts, d)) :
    c.pos < d.stop ∧ (ts = [] ∨ ∃ u, ts = [u] ∧ u.rule = .arguments) := by
  obtain ⟨y, hy, hbody⟩ := found_group_iff.mp h
  have hd := derives_of_read (fun _ _ _ _ => Rule.derives_of_read) group h
  constructor
  · obtain ⟨u, v, hu, -, hstop⟩ := (hd.moves_and_taken .spaced (by decide)).2 rfl
    have hpos := Text.size_pos hu
    omega
  · rcases hbody with ⟨-, hts, -⟩ | ⟨w, hargs, -⟩
    · exact .inl hts
    · obtain ⟨us, hts, -⟩ := Rule.derives_of_read hargs
      exact .inr ⟨_, hts, rfl⟩

/-- What is passed in front of a place is noise. -/
theorem Cursor.isNoise_skipGap (c : Cursor) :
    ∃ w, c.Passes w c.skipGap ∧ Text.IsNoise false c.skipGap.rest w := by
  obtain ⟨⟨w, r⟩, hw⟩ : ∃ x, Pattern.noise.split? c.rest = some x := ⟨_, rfl⟩
  rw [skipGap_of_noise hw]
  exact ⟨w, ⟨Pattern.split?_eq_append hw, rfl⟩, (Pattern.isAllNoise_of_split? hw).noise⟩

/-- Noise is passed up to a character with which none begins. -/
theorem Cursor.rest_skipGap_of_isNoise {w r : Text} {x : Char} (hc : c.rest = w ++ x :: r)
    (h : Text.IsNoise false (x :: r) w) (hx : x ∉ Pattern.noiseMarks) :
    c.skipGap.rest = x :: r := by
  have hstop : Pattern.noise.split? (x :: r) = some ([], x :: r) :=
    Pattern.split?_noise_of_notMem fun y hy => by
      obtain rfl : x = y := Option.some.inj hy
      exact hx
  have hsplit : Pattern.noise.split? (w ++ x :: r) = some (w ++ [], x :: r) :=
    Pattern.split?_items_append h hstop
  rw [skipGap_of_noise (hc ▸ hsplit)]

/-- **A group leaves nothing where its text is that of an empty one.** -/
theorem Text.isEmptyGroup_iff (hc : c.At s)
    (h : (Phrase.group.read Rule.read Cursor.skipGap c.skipGap).found = some (ts, d)) :
    (∃ w, s.slice? c.pos d.stop = some w ∧ w.IsEmptyGroup) ↔ ts = [] := by
  obtain ⟨y, hy, hbody⟩ := Phrase.found_group_iff.mp h
  obtain ⟨r, hr, rfl⟩ := Cursor.token?_mark_iff.mp hy
  constructor
  · rintro ⟨w, hw, g, k, rfl, hg, hk⟩
    obtain ⟨u, v, rfl, hu, -⟩ := eq_append_of_slice? hw
    have hrest : c.rest = g ++ '(' :: (k ++ ')' :: v) := by
      have hdrop := dropBytes?_size_append u (g ++ '(' :: (k ++ [')']) ++ v)
      rw [hu, ← List.append_assoc, hc.dropBytes?] at hdrop
      simpa using Option.some.inj hdrop
    rw [Cursor.rest_skipGap_of_isNoise hrest (hg.congr_head rfl) (by decide)] at hr
    obtain rfl := (List.cons.inj hr).2
    rcases hbody with ⟨-, hts, -⟩ | ⟨w, hargs, -⟩
    · exact hts
    · -- the closing parenthesis stands where the arguments would
      have hgap := Cursor.rest_skipGap_of_isNoise
        (c := .start (k ++ ')' :: v) (c.skipGap.pos + size ['('])) rfl (hk.congr_head rfl)
        (by decide)
      rw [Rule.arguments_absent (Cursor.token?_mark_iff.mpr ⟨v, hgap, rfl⟩)] at hargs
      exact absurd hargs (by simp)
  · rintro rfl
    rcases hbody with ⟨-, -, hd⟩ | ⟨w, hargs, -⟩
    · obtain ⟨g, hcg, hg⟩ := c.isNoise_skipGap
      obtain ⟨k, hyk, hk⟩ := (Cursor.start r (c.skipGap.pos + size ['('])).isNoise_skipGap
      obtain ⟨v, hv, rfl⟩ := Cursor.token?_mark_iff.mp hd
      have hopen : c.skipGap.Passes ['('] (.start r (c.skipGap.pos + size ['('])) := ⟨hr, rfl⟩
      have hclose : Cursor.Passes _ [')'] (.start v _) := ⟨hv, rfl⟩
      have hall := ((hcg.trans hopen).trans hyk).trans hclose
      refine ⟨_, hc.slice? hall, g, k, by simp, ?_, ?_⟩
      · exact hg.congr_head (by rw [hr]; rfl)
      · exact hk.congr_head (by rw [hv]; rfl)
    · obtain ⟨us, hts, -⟩ := Rule.derives_of_read hargs
      exact absurd hts (by simp)

end Groups

/-! ## The parts of a call -/

section Calls

variable {s : Text} {source : Source} {t k u v : Tree} {ts : List Tree}

/-- A call consists of its keyword, a name and maybe a group.  From the place behind the name on, the
group is found if there is any. -/
theorem exists_group_of_parse {o : Options} (h : parse s .subroutineCall o = .ok t) :
    ∃ (k v : Tree) (ts : List Tree) (f d : Cursor), t.children = k :: v :: ts ∧
      k.rule = .callKeyword ∧ v.rule = .name ∧ t.span = ⟨0, d.stop⟩ ∧
      f.At s ∧ f.pos = v.span.stop ∧
      ((Phrase.group.read Rule.read Cursor.skipGap f.skipGap).found = some (ts, d) ∨
        (Phrase.group.read Rule.read Cursor.skipGap f.skipGap).found = none ∧ ts = [] ∧
          d.stop = f.pos) := by
  obtain ⟨-, d, hfound, -⟩ := parse_eq_ok_iff.mp h
  obtain ⟨us, ht, hprod⟩ := Rule.found_production_of_found hfound
  obtain rfl := List.head_eq_of_cons_eq ht
  obtain ⟨_, x, _, hkeyword, hrest, rfl⟩ := Reading.found_andThen hprod
  obtain ⟨_, y, ts, hname, hgroup, rfl⟩ := Reading.found_andThen hrest
  obtain ⟨hx, f₀, hf₀⟩ := Rule.endsAt_of_found (Cursor.endsAt_start s).1 (Cursor.endsAt_start s).2
    hkeyword
  obtain ⟨hy, f, hf⟩ := Rule.endsAt_of_found (hx.skip .spaced) ⟨f₀, hf₀.skip .spaced⟩ hname
  obtain ⟨_, rfl, -⟩ := Rule.derives_of_read hkeyword
  obtain ⟨_, rfl, -⟩ := Rule.derives_of_read hname
  refine ⟨_, _, ts, f, d, rfl, rfl, rfl, rfl, hf.place, ?_, ?_⟩
  · rw [← hf.stop_eq, hf.stop]
  · rw [hf.gap]
    have hor := (Reading.found_orElse_eq _ _).symm.trans hgroup
    rcases Option.or_eq_some_iff.mp hor with hgroup | ⟨hnone, habsent⟩
    · exact .inl hgroup
    · simp only [Reading.empty, Option.some.injEq, Prod.mk.injEq] at habsent
      obtain ⟨rfl, rfl⟩ := habsent
      refine .inr ⟨hnone, rfl, ?_⟩
      rw [Cursor.stop_skipGap, ← hf.stop_eq, hf.stop]

/-- The expressions in a list of arguments stand where its children do, and there are some. -/
theorem spans_of_argumentsOfTree {es : List Expr} (h : ∀ n ∈ u.nodes, n.GrownIn source.content)
    (hes : argumentsOfTree source u = .ok es) :
    u.rule = .arguments ∧ es ≠ [] ∧ (∀ a ∈ u.children, a.rule = .argument) ∧
      es.map Expr.span = u.children.map Tree.span := by
  obtain ⟨_, hr, hes⟩ := bind_eq_ok hes
  have hrule := Tree.rule_of_expect hr
  have hself := h u u.self_mem_nodes
  have hall : ∀ a ∈ u.children, a.rule = .argument := by
    intro a ha
    have hcalls := hself.rule_mem_calls a ha
    rw [hrule] at hcalls
    simpa [Rule.production, Phrase.commaList, Phrase.punct, Production.calls, Phrase.calls]
      using hcalls
  have hne : u.children ≠ [] := by
    have hdemands : Rule.arguments.production.demands [.argument] := by decide
    obtain ⟨r, -, hr⟩ := Production.exists_mem_of_demands hdemands (hrule ▸ hself.map_rule_mem)
    exact List.map_eq_nil_iff.not.mp (List.ne_nil_of_mem hr)
  have hfilter : u.children.filter (·.rule = .argument) = u.children :=
    List.filter_eq_self.mpr fun a ha => decide_eq_true (hall a ha)
  have hpairs := Expr.forall₂_of_ofArguments hes
  rw [hfilter] at hpairs
  refine ⟨hrule, fun hnil => hne ?_, hall, ?_⟩
  · exact List.forall₂_nil_right_iff.mp (hnil ▸ hpairs)
  · refine (map_eq_map_of_forall₂ hpairs fun a ha e he => ?_).symm
    exact (Expr.span_of_ofTree (Tree.forall_nodes_of_child h ha) he).symm

/-- The arguments of a call whose children are known, with the spans of the call and of its name. -/
theorem SubroutineCall.arguments_of_ofTree {c : SubroutineCall}
    (hc : SubroutineCall.ofTree source t = .ok c) (ht : t.children = k :: v :: ts)
    (hk : k.rule = .callKeyword) (hv : v.rule = .name) :
    c.name.span = v.span ∧ c.span = t.span ∧
      (ts = [] → c.arguments = if v.span.stop < t.span.stop then some [] else none) ∧
      ∀ u, ts = [u] → u.rule = .arguments →
        ∃ es, argumentsOfTree source u = .ok es ∧ c.arguments = some es := by
  obtain ⟨r, x, _⟩ := t
  obtain rfl : _ = k :: v :: ts := ht
  obtain ⟨_, -, hc₁⟩ := bind_eq_ok hc
  obtain ⟨w, hw, hc₂⟩ := bind_eq_ok hc₁
  obtain ⟨y, hy, hc₃⟩ := bind_eq_ok hc₂
  obtain ⟨a, ha, hc₄⟩ := bind_eq_ok hc₃
  obtain rfl := Except.ok.inj hc₄
  have hname : w = v := by
    have hchild := Tree.child?_of_required hw
    simpa [Tree.child?, hk, hv] using hchild.symm
  obtain rfl := hname
  obtain rfl := Identifier.eq_of_ofTree hy
  refine ⟨rfl, rfl, ?_, ?_⟩
  · rintro rfl
    have hnone : (⟨r, x, [k, w]⟩ : Tree).child? .arguments = none := by
      simp [Tree.child?, hk, hv]
    rw [argumentsIn, hnone] at ha
    exact (Except.ok.inj ha).symm
  · rintro u rfl hu
    have hsome : (⟨r, x, [k, w, u]⟩ : Tree).child? .arguments = some u := by
      simp [Tree.child?, hk, hv, hu]
    rw [argumentsIn, hsome] at ha
    obtain ⟨es, hes, rfl⟩ := map_eq_ok ha
    exact ⟨es, hes, rfl⟩

end Calls

/-- **The source tells which arguments a call of a subroutine has.**  There is no list of arguments
if and only if the call ends with its name, and this is so if and only if no complete group stands
behind the name and its noise; a group that stands there ends with the call.  The list is empty if
and only if the text behind the name is that of an empty group.  In any other case it has one
element for each argument in the tree, in their order and with their spans. -/
theorem subroutine_arguments_of_parse {s : Text} {c : SubroutineCall}
    (h : parseSubroutineCall s = .ok c) :
    ∃ t k v ts, parse s .subroutineCall {} = .ok t ∧ t.children = k :: v :: ts ∧
      v.rule = .name ∧ c.name.span = v.span ∧ c.span = t.span ∧ t.span.start = 0 ∧
      (c.arguments = none ↔ c.span.stop = c.name.span.stop) ∧
      (c.span.stop = c.name.span.stop ↔ ∀ j, ¬s.GroupAt (skipNoise s c.name.span.stop) j) ∧
      (∀ j, s.GroupAt (skipNoise s c.name.span.stop) j → j = c.span.stop) ∧
      (c.arguments = some [] ↔
        ∃ w, s.slice? c.name.span.stop c.span.stop = some w ∧ w.IsEmptyGroup) ∧
      ∀ es, c.arguments = some es → es ≠ [] →
        ∃ u, ts = [u] ∧ u.rule = .arguments ∧ (∀ a ∈ u.children, a.rule = .argument) ∧
          es.map Expr.span = u.children.map Tree.span := by
  obtain ⟨t, ht, hc⟩ := bind_eq_ok h
  obtain ⟨k, v, ts, f, d, hchildren, hk, hv, hspan, hf, hpos, hgroup⟩ := exists_group_of_parse ht
  obtain ⟨hname, hcspan, hnil, hcons⟩ :=
    SubroutineCall.arguments_of_ofTree hc hchildren hk hv
  refine ⟨t, k, v, ts, ht, hchildren, hv, hname, hcspan, by rw [hspan], ?_⟩
  rw [hspan] at hnil
  simp only [hname, hcspan, hspan, ← hpos, hf.skipNoise] at hnil ⊢
  have hgap : f.skipGap.At s := hf.skip .spaced
  rcases hgroup with hgroup | ⟨hnone, rfl, hstop⟩
  · obtain ⟨hlt, hts⟩ := Phrase.trees_of_found_group hgroup
    obtain ⟨w, -, hw, -⟩ := f.passes_skipGap
    have hle : f.pos < d.stop := by
      have := hw.pos
      omega
    have hends : ∀ j, s.GroupAt f.skipGap.pos j ↔ j = d.stop := fun j =>
      Text.groupAt_iff_of_found hgap hgroup
    have hstop : d.stop = f.pos ↔ ∀ j, ¬s.GroupAt f.skipGap.pos j := by
      simp [hends, Nat.ne_of_gt hle]
    rw [Text.isEmptyGroup_iff hf hgroup]
    rcases hts with rfl | ⟨u, rfl, hu⟩
    · rw [hnil rfl, if_pos hle]
      exact ⟨by simp [Nat.ne_of_gt hle], hstop, fun j => (hends j).mp, by simp, by simp⟩
    · obtain ⟨es, hes, hargs⟩ := hcons u rfl hu
      have hu : ∀ n ∈ u.nodes, n.GrownIn s :=
        Tree.forall_nodes_of_child (grownIn_of_parse ht) (by simp [hchildren])
      obtain ⟨hrule, hsome, hall, hspans⟩ := spans_of_argumentsOfTree hu hes
      rw [hargs]
      refine ⟨by simp [Nat.ne_of_gt hle], hstop, fun j => (hends j).mp, by simp [hsome], ?_⟩
      intro es' hes' _
      obtain rfl := Option.some.inj hes'
      exact ⟨u, rfl, hrule, hall, hspans⟩
  · have hno := Text.not_groupAt_of_found_eq_none hgap hnone
    rw [hstop] at hnil ⊢
    rw [hnil rfl, if_neg (Nat.lt_irrefl _)]
    refine ⟨by simp, by simp [hno], fun j hj => absurd hj (hno j), ?_, by simp⟩
    simp only [reduceCtorEq, false_iff]
    rintro ⟨w, hw, hempty⟩
    obtain ⟨-, -, -, -, hsize⟩ := Text.eq_append_of_slice? hw
    exact hempty.ne_nil (Text.eq_nil_of_size (by omega))

/-- A group behind a continuation, with noise around its argument and behind it. -/
theorem subroutine_arguments_of_continued_call :
    let s : Text := ['c', 'a', 'l', 'l', ' ', 'f', ' ', '&', '\n', '&', '(', ' ', 'a', ' ', ')',
      ' ', '!']
    let x : AccessedVariable := ⟨none, .plain ⟨['a'], ⟨12, 13⟩⟩, ⟨12, 13⟩⟩
    let c : SubroutineCall := ⟨⟨['f'], ⟨5, 6⟩⟩, some [.access x], ⟨0, 15⟩⟩
    parseSubroutineCall s = .ok c ∧ s.GroupAt 10 15 ∧
      (¬∃ w, s.slice? 6 15 = some w ∧ w.IsEmptyGroup) ∧
      ∃ t k v u, parse s .subroutineCall {} = .ok t ∧ t.children = [k, v, u] ∧
        u.rule = .arguments ∧ u.children.map Tree.span = [⟨12, 13⟩] := by
  intro s x c
  have hc : parseSubroutineCall s = .ok c := by decide +kernel
  obtain ⟨t, k, v, ts, ht, hchildren, -, -, -, -, -, hgroup, hends, hnil, hspans⟩ :=
    subroutine_arguments_of_parse hc
  have hskip : skipNoise s c.name.span.stop = 10 := by decide
  have hstop : c.span.stop ≠ c.name.span.stop := by decide
  rw [hskip] at hgroup hends
  obtain ⟨j, hj⟩ := not_forall_not.mp (hgroup.not.mp hstop)
  obtain rfl := hends j hj
  obtain ⟨u, rfl, hu, -, hmap⟩ := hspans _ rfl (List.cons_ne_nil _ _)
  exact ⟨hc, hj, hnil.not.mp (by simp [c]), t, k, v, u, ht, hchildren, hu, hmap.symm⟩

end FreeForm
