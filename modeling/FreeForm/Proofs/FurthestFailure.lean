import FreeForm.Proofs.CallRecord
import FreeForm.Proofs.CompleteParse
import FreeForm.Proofs.RangeParse

/-!
# The furthest failure

What a mismatch reports is computed from the record of the failed run, call by call.  The frontier
stands at the furthest place where a call failed, and every rule it blames is the rule of a call
that failed there (`Frontier.After`, `Frontier.after_afterCalls`).  Hence a mismatch expects at least
one rule, and none of the rules it expects matches the text from the furthest place on
(`mismatch_of_parse`).
-/

namespace FreeForm

namespace Frontier

/-- `g` is what the frontier `f` can become by the calls `ks`: it lies where one of the calls failed
and at or behind the others that did, and it blames rules that failed there. -/
structure After (f : Frontier) (ks : List Call) (g : Frontier) : Prop where
  le_pos : f.pos ≤ g.pos
  mem_rules : ∀ r ∈ g.rules, (r ∈ f.rules ∧ g.pos = f.pos) ∨
    ∃ k ∈ ks, k.rule = r ∧ k.reached = none ∧ k.start = g.pos
  failed : ∀ k ∈ ks, k.reached = none → k.start ≤ g.pos ∧ (f.pos ≤ k.start → g.rules ≠ [])
  eq_of_nil : g.rules = [] → g = f

variable {f g h : Frontier} {ks js : List Call} {r : Rule} {start keep : Nat}

theorem After.refl (f : Frontier) : f.After [] f where
  le_pos := Nat.le_refl _
  mem_rules _ hr := .inl ⟨hr, rfl⟩
  failed _ hk := absurd hk List.not_mem_nil
  eq_of_nil _ := rfl

theorem After.trans (hf : f.After ks g) (hg : g.After js h) : f.After (ks ++ js) h where
  le_pos := Nat.le_trans hf.le_pos hg.le_pos
  mem_rules r hr := by
    rcases hg.mem_rules r hr with ⟨hr, hpos⟩ | ⟨k, hk, hfail⟩
    · rcases hf.mem_rules r hr with ⟨hr, hpos'⟩ | ⟨k, hk, hfail⟩
      · exact .inl ⟨hr, hpos.trans hpos'⟩
      · exact .inr ⟨k, List.mem_append_left _ hk, hpos ▸ hfail⟩
    · exact .inr ⟨k, List.mem_append_right _ hk, hfail⟩
  failed k hk hnone := by
    rcases List.mem_append.mp hk with hk | hk
    · obtain ⟨hle, hne⟩ := hf.failed k hk hnone
      exact ⟨Nat.le_trans hle hg.le_pos, fun hfk hnil => hne hfk (hg.eq_of_nil hnil ▸ hnil)⟩
    · obtain ⟨hle, hne⟩ := hg.failed k hk hnone
      refine ⟨hle, fun hfk hnil => ?_⟩
      obtain rfl : h = g := hg.eq_of_nil hnil
      obtain rfl : h = f := hf.eq_of_nil hnil
      exact hne hfk hnil
  eq_of_nil hnil := by
    obtain rfl : h = g := hg.eq_of_nil hnil
    exact hf.eq_of_nil hnil

theorem blame_cases (g : Frontier) (r : Rule) (start keep : Nat) :
    (start < g.pos ∧ g.blame r start keep = g) ∨
      (start = g.pos ∧ g.blame r start keep = ⟨start, g.rules.take keep ++ [r]⟩) ∨
      (g.pos < start ∧ g.blame r start keep = ⟨start, [r]⟩) := by
  unfold blame
  rcases Nat.lt_trichotomy start g.pos with h | h | h
  · exact .inl ⟨h, if_pos h⟩
  · exact .inr (.inl ⟨h, by rw [if_neg (by omega), if_pos h]⟩)
  · exact .inr (.inr ⟨h, by rw [if_neg (by omega), if_neg (by omega)]⟩)

/-- A further call leaves the frontier as it is if it failed in front of it or is counted there. -/
theorem After.cons {k : Call} (hf : f.After ks g)
    (hk : k.reached = none → k.start ≤ g.pos ∧ (f.pos ≤ k.start → g.rules ≠ [])) :
    f.After (k :: ks) g where
  le_pos := hf.le_pos
  mem_rules r hr := (hf.mem_rules r hr).imp_right fun ⟨j, hj, hfail⟩ =>
    ⟨j, List.mem_cons_of_mem _ hj, hfail⟩
  failed j hj hnone := by
    rcases List.mem_cons.mp hj with rfl | hj
    · exact hk hnone
    · exact hf.failed j hj hnone
  eq_of_nil := hf.eq_of_nil

/-- A further call that failed at or behind the frontier moves it there. -/
theorem After.moved {k : Call} {rs : List Rule} (hf : f.After ks g) (hk : k.reached = none)
    (hle : g.pos ≤ k.start) (hne : rs ≠ [])
    (hrs : ∀ r ∈ rs, r ∈ g.rules ∧ k.start = g.pos ∨ r = k.rule) :
    f.After (k :: ks) ⟨k.start, rs⟩ where
  le_pos := Nat.le_trans hf.le_pos hle
  mem_rules r hr := by
    rcases hrs r hr with ⟨hr, hpos⟩ | rfl
    · exact hpos ▸ (hf.mem_rules r hr).imp_right fun ⟨j, hj, hfail⟩ =>
        ⟨j, List.mem_cons_of_mem _ hj, hfail⟩
    · exact .inr ⟨k, List.mem_cons_self, rfl, hk, rfl⟩
  failed j hj hnone := by
    refine ⟨?_, fun _ => hne⟩
    rcases List.mem_cons.mp hj with rfl | hj
    · exact Nat.le_refl _
    · exact Nat.le_trans (hf.failed j hj hnone).1 hle
  eq_of_nil hnil := absurd hnil hne

/-- A call that failed is counted if exactly one name was added where it began. -/
theorem rules_ne_nil_of_countAt (hcount : g.countAt start = f.countAt start + 1) :
    start = g.pos ∧ g.rules ≠ [] := by
  unfold countAt at hcount
  by_cases hpos : start = g.pos
  · refine ⟨hpos, fun hnil => ?_⟩
    rw [if_pos hpos, hnil] at hcount
    exact absurd hcount (by simp)
  · rw [if_neg hpos] at hcount
    exact absurd hcount (by omega)

/-- Any other call that failed is blamed itself. -/
theorem After.blamed {k : Call} (hf : f.After ks g) (hk : k.reached = none) (keep : Nat) :
    f.After (k :: ks) (g.blame k.rule k.start keep) := by
  rcases g.blame_cases k.rule k.start keep with ⟨hlt, hg⟩ | ⟨heq, hg⟩ | ⟨hgt, hg⟩
  · rw [hg]
    refine hf.cons fun _ => ⟨Nat.le_of_lt hlt, fun hfk hnil => ?_⟩
    rw [hf.eq_of_nil hnil] at hlt
    exact absurd hfk (Nat.not_le.mpr hlt)
  · rw [hg]
    refine hf.moved hk (Nat.le_of_eq heq.symm) (by simp) fun r hr => ?_
    rcases List.mem_append.mp hr with hr | hr
    · exact .inl ⟨List.mem_of_mem_take hr, heq⟩
    · exact .inr (List.mem_singleton.mp hr)
  · rw [hg]
    exact hf.moved hk (Nat.le_of_lt hgt) (by simp) fun r hr => .inr (List.mem_singleton.mp hr)

mutual

/-- One call, with the calls inside it. -/
theorem after_afterCall (f : Frontier) : ∀ k : Call, f.After k.all (f.afterCall k)
  | .mk r start reached inner => by
    have hinner := after_afterCalls f inner
    rw [Call.all, afterCall]
    split_ifs with hk
    · refine hinner.cons fun hnone => ?_
      rcases hk with hsome | hcount
      · rw [show reached = none from hnone] at hsome
        exact absurd hsome (by decide)
      · obtain ⟨hpos, hne⟩ := rules_ne_nil_of_countAt hcount
        exact ⟨Nat.le_of_eq hpos, fun _ => hne⟩
    · rw [not_or, Option.not_isSome_iff_eq_none] at hk
      exact hinner.blamed (k := .mk r start reached inner) hk.1 _

/-- **The frontier stands at the furthest failure**, and blames rules that failed there. -/
theorem after_afterCalls (f : Frontier) :
    ∀ ks : List Call, f.After (Call.allOf ks) (f.afterCalls ks)
  | [] => .refl f
  | k :: ks => (after_afterCall f k).trans (after_afterCalls (f.afterCall k) ks)

end

end Frontier

theorem Rule.pairwise_index_all : Rule.all.Pairwise (·.index < ·.index) := by decide

/-- The calls of a run by the rule from the beginning of a text. -/
def Rule.calls (r : Rule) (s : Text) : List Call := Call.allOf (r.read (.start s 0)).calls

theorem Rule.calls_eq_all (r : Rule) (s : Text) : r.calls s = (r.callAt (.start s 0)).all := by
  rw [calls, calls_read, Call.allOf_singleton]

/-- In a failed run at least the call of the start rule fails. -/
theorem Rule.exists_failed_of_found_none {r : Rule} {s : Text}
    (h : (r.read (.start s 0)).found = none) : ∃ k ∈ r.calls s, k.reached = none := by
  refine ⟨r.callAt (.start s 0), ?_, reached_callAt_eq_none_iff.mpr h⟩
  rw [calls_eq_all]
  exact Call.self_mem_all _

/-- A rule that does not match a text that stands somewhere does not match it at the offset 0. -/
theorem Rule.found_start_eq_none {r : Rule} {v : Text} {n : Nat}
    (h : (r.read (.start v n)).found = none) : (r.read (.start v 0)).found = none := by
  have hstart : (Cursor.start v 0).advance n = .start v n := by
    rw [Cursor.advance, Cursor.start, Nat.add_zero, ← Cursor.start]
  have hm := (lockstep_advance n).matches_read r (c := .start v 0) hstart.symm
  rcases hm.cases with ⟨hstay, -⟩ | ⟨ts, c, c', -, hmoved, -⟩
  · exact hstay
  · rw [h] at hmoved
    exact absurd hmoved (by simp)

/-- What a mismatch reports is the frontier after the calls of a run that found nothing.  Some rule
is blamed, since the start rule failed. -/
theorem exists_frontier_of_mismatch {s : Text} {r q : Rule} {o : Options} {e : ParseError} {f : Nat}
    {es : List Rule} (h : parse s r o = .error e) (he : e.fault = .mismatch q f es) :
    q = r ∧ e.span = ⟨f, f⟩ ∧ (r.read (.start s 0)).found = none ∧
      ∃ g, Frontier.After ⟨0, []⟩ (r.calls s) g ∧ g.rules ≠ [] ∧ g.pos = f ∧ g.expected = es := by
  by_cases hn : o.maxNesting < nestingDepth s
  · rw [parse_eq_of_lt_nestingDepth hn, Except.error.injEq] at h
    rw [← h] at he
    exact absurd he (by simp)
  rw [parse_eq_of_nestingDepth_le (Nat.not_lt.mp hn), matchFragment] at h
  cases hfound : (r.read (.start s 0)).found with
  | some x =>
    obtain ⟨ts, d⟩ := x
    obtain ⟨us, rfl, -⟩ := Rule.derives_of_read hfound
    simp only [hfound, Except.bind] at h
    split_ifs at h with hstop
    rw [Except.error.injEq] at h
    rw [← h] at he
    exact absurd he (by simp [incompleteError])
  | none =>
    simp only [hfound, Except.bind, Except.error.injEq] at h
    rw [mismatchError] at h
    rw [← h] at he ⊢
    simp only [Fault.mismatch.injEq] at he
    obtain ⟨rfl, hf, hes⟩ := he
    have hafter := Frontier.after_afterCalls ⟨0, []⟩ (r.read (.start s 0)).calls
    obtain ⟨k, hk, hreached⟩ := Rule.exists_failed_of_found_none hfound
    have hne := (hafter.failed k hk hreached).2 (Nat.zero_le _)
    exact ⟨rfl, by rw [hf], rfl, _, hafter, hne, hf, hes⟩

/-- **A mismatch names rules that fail where it says.**  It is about the rule asked for, it points
at a place of the text, and it expects some rules there, each of them once and in the order of the
grammar.  None of them matches the text from that place on. -/
theorem mismatch_of_parse {s : Text} {r q : Rule} {o : Options} {e : ParseError} {f : Nat}
    {es : List Rule} (h : parse s r o = .error e) (he : e.fault = .mismatch q f es) :
    q = r ∧ e.span = ⟨f, f⟩ ∧ es ≠ [] ∧ es.Pairwise (·.index < ·.index) ∧
      ∃ u v, s = u ++ v ∧ Text.size u = f ∧ ∀ x ∈ es, (x.read (.start v 0)).found = none := by
  obtain ⟨hq, hspan, -, g, hg, hne, rfl, rfl⟩ := exists_frontier_of_mismatch h he
  have hat : (Cursor.start s 0).At s := ⟨[], rfl, rfl⟩
  have failed : ∀ x ∈ g.rules, ∃ u v, s = u ++ v ∧ Text.size u = g.pos ∧
      (x.read (.start v 0)).found = none := by
    intro x hx
    rcases hg.mem_rules x hx with ⟨hmem, -⟩ | ⟨k, hk, rfl, hreached, hstart⟩
    · exact absurd hmem List.not_mem_nil
    rw [Rule.calls_eq_all] at hk
    obtain ⟨u, v, hs, hu, hiff⟩ := (Rule.madeIn_callAt hat r k hk).exists_eq_append
    exact ⟨u, v, hs, hu.trans hstart, Rule.found_start_eq_none (hiff.mp hreached)⟩
  -- all rules blamed failed at one place, so any of them shows where the text is cut
  obtain ⟨x, hx⟩ := List.exists_mem_of_ne_nil _ hne
  obtain ⟨u, v, hs, hu, -⟩ := failed x hx
  refine ⟨hq, hspan, ?_, Rule.pairwise_index_all.filter _, u, v, hs, hu, fun y hy => ?_⟩
  · refine List.ne_nil_of_mem (a := x) (List.mem_filter.mpr ⟨Rule.mem_all x, ?_⟩)
    exact List.contains_iff_mem.mpr hx
  · have hmem := List.contains_iff_mem.mp (List.mem_filter.mp hy).2
    obtain ⟨u', v', hs', hu', hfound⟩ := failed y hmem
    obtain ⟨-, rfl⟩ := Text.append_inj_of_size (hs.symm.trans hs') (hu.trans hu'.symm)
    exact hfound

/-- Behind the sign in a call whose first argument holds a character of two bytes. -/
theorem mismatch_of_signed_argument :
    let u : Text := ['f', '(', '\'', 'é', '\'', ',', '-']
    let es : List Rule := [.digits, .name]
    let o : Options := {}
    let e : ParseError :=
      ⟨.mismatch .functionCall 8 es, ⟨o.sourceName, u ++ [')']⟩, ⟨8, 8⟩⟩
    parse (u ++ [')']) .functionCall o = .error e ∧ es.Pairwise (·.index < ·.index) ∧
      ∀ x ∈ es, (x.read (.start [')'] 0)).found = none := by
  intro u es o e
  have he : parse (u ++ [')']) .functionCall o = .error e := by decide +kernel
  obtain ⟨-, -, -, hsorted, w, v, hs, hw, hes⟩ := mismatch_of_parse he rfl
  obtain ⟨-, rfl⟩ := Text.append_inj_of_size hs (hw.trans rfl).symm
  exact ⟨he, hsorted, hes⟩

end FreeForm
