import FreeForm.Proofs.Lockstep
import FreeForm.Proofs.NodeEnds

/-!
# Parsing in a range

A parse in a range of a text is the parse of the text of the range alone, with every offset moved by
the start of the range, whatever text stands outside the range (`parseRange_eq_relocate`).  Places
with the same rest of a text are in lockstep, so both runs make the same calls.  Trimming goes over
the whole text, and still finds the ends that it finds in the range alone.
-/

namespace FreeForm

/-- The same place in a text that stands `n` bytes further on. -/
def Cursor.advance (n : Nat) (c : Cursor) : Cursor := ⟨c.rest, n + c.pos, n + c.stop⟩

theorem Cursor.token?_advance (n : Nat) (c : Cursor) (p : Pattern) :
    (c.advance n).token? p = (c.token? p).map (advance n) := by
  simp only [token?, advance, Option.map_map]
  congr 1
  funext x
  simp only [Function.comp, advance, Nat.add_assoc]

theorem Cursor.skipGap_advance (n : Nat) (c : Cursor) :
    (c.advance n).skipGap = c.skipGap.advance n := by
  obtain ⟨⟨w, r⟩, hw⟩ : ∃ x, Pattern.noise.split? c.rest = some x := ⟨_, rfl⟩
  rw [skipGap_of_noise hw, skipGap_of_noise (c := c.advance n) hw]
  simp only [advance, Nat.add_assoc]

theorem lockstep_advance (n : Nat) : Lockstep (n + ·) fun c c' => c' = c.advance n where
  pos h := by rw [h]; rfl
  stop h := by rw [h]; rfl
  token {c c'} h r p _ := by
    rw [h, Cursor.token?_advance]
    cases c.token? p with
    | none => exact .none
    | some d => exact .some rfl
  gap h := by rw [h, Cursor.skipGap_advance]

/-- Runs in lockstep lead to the same result, up to its offsets, if the order of offsets is kept. -/
theorem Lockstep.matchFragment_eq {f : Nat → Nat} {R : Cursor → Cursor → Prop} (hl : Lockstep f R)
    (hf : StrictMono f) {w w' : Text} {base base' : Nat}
    (hr : R (.start w base) (.start w' base')) (name : String) (s s' : Text) (r : Rule) :
    matchFragment ⟨name, s'⟩ r base' w' =
      relocateResult f s' (matchFragment ⟨name, s⟩ r base w) := by
  have hm := hl.matches_read r hr
  have herror : ∀ calls, mismatchError ⟨name, s'⟩ r base' (calls.map (Call.relocate f)) =
      (mismatchError ⟨name, s⟩ r base calls).relocate f s' := by
    intro calls
    have hbase : base' = f base := hl.pos hr
    have hfront := Frontier.afterCalls_relocate hf ⟨base, []⟩ calls
    unfold mismatchError
    rw [hbase]
    dsimp only [Frontier.relocate] at hfront ⊢
    rw [hfront]
    rfl
  unfold matchFragment
  dsimp only
  rcases hm.cases with ⟨hq, hq'⟩ | ⟨ts, c, c', hq, hq', -⟩
  · rw [hq, hq', hm.calls]
    exact congrArg Except.error (herror _)
  · rw [hq, hq', hm.calls]
    cases ts with
    | nil => exact congrArg Except.error (herror _)
    | cons t ts => rfl

/-- The start of the fragment makes no difference, up to the offsets. -/
theorem parseFragment_relocate {o : Options} (ho : o.requireComplete = false) (n : Nat)
    (name : String) (s s' w : Text) (r : Rule) :
    parseFragment ⟨name, s'⟩ r n w o =
      relocateResult (n + ·) s' (parseFragment ⟨name, s⟩ r 0 w o) := by
  have hmono : StrictMono (n + ·) := fun _ _ h => Nat.add_lt_add_left h n
  have hstart : Cursor.start w n = (Cursor.start w 0).advance n := rfl
  have hmatch := (lockstep_advance n).matchFragment_eq hmono hstart name s s' r
  unfold parseFragment
  dsimp only
  rw [hmatch, ho]
  by_cases hdepth : o.maxNesting < nestingDepth w
  · rw [if_pos hdepth, if_pos hdepth]
    simp only [relocateResult, ParseError.relocate, Fault.relocate, Span.relocate, Nat.add_zero,
      Nat.zero_add]
  · rw [if_neg hdepth, if_neg hdepth]
    cases matchFragment ⟨name, s⟩ r 0 w with
    | error e => rfl
    | ok t => simp [bind, Except.bind, relocateResult]

theorem lastStop_relocate (f : Nat → Nat) (n : Nat) (ts : List Tree) :
    lastStop (f n) (ts.map (Tree.relocate f)) = f (lastStop n ts) := by
  rw [lastStop, lastStop, List.getLast?_map]
  cases ts.getLast? with
  | none => rfl
  | some t => simp [Span.relocate]

/-- Noise in a range is noise of the whole text, which may go on behind the range. -/
theorem skipNoise_le_of_slice? {s w : Text} {range : Span}
    (hw : s.slice? range.start range.stop = some w) (n : Nat) :
    range.start + skipNoise w n ≤ skipNoise s (range.start + n) := by
  obtain ⟨u, v, rfl, hu, -⟩ := Text.eq_append_of_slice? hw
  cases hr : w.dropBytes? n with
  | none =>
    have hstay : skipNoise w n = n := by rw [skipNoise, hr]; rfl
    rw [hstay]
    exact le_skipNoise _ _
  | some r =>
    obtain ⟨t, rfl, rfl⟩ := Text.eq_append_of_dropBytes? hr
    have hdrop : (u ++ (t ++ r) ++ v).dropBytes? (range.start + Text.size t) = some (r ++ v) := by
      have h := Text.dropBytes?_size_append (u ++ t) (r ++ v)
      rw [Text.size_append, hu] at h
      simpa using h
    obtain ⟨⟨x, y⟩, hx⟩ : ∃ x, Pattern.noise.split? r = some x := ⟨_, rfl⟩
    obtain ⟨z, y', hz⟩ := Pattern.split?_noise_extends hx v
    simp only [skipNoise, hr, hdrop, Option.bind_some, Pattern.width?, hx, hz, Option.map_some,
      Option.getD_some, Text.size_append]
    omega

/-- A parse in a range returns what a parse of the text of the range alone returns, at the place of
the range. -/
theorem parseRange_relocate {s w : Text} {range : Span} {r : Rule} {o : Options}
    (hw : s.slice? range.start range.stop = some w) (ho : o.requireComplete = false) :
    parseRange s range r o = relocateResult (range.start + ·) s (parse w r o) := by
  rw [parse, parseRange, parseRange, hw, Text.slice?_size]
  exact parseFragment_relocate ho range.start o.sourceName w s w r

/-- **A parse in a range depends on the range only.**  It returns what a parse of the text of the
range alone returns, tree or error, with every offset moved by the start of the range.  And where
trimming over the text of the range finds the end of a node, trimming over the whole text does. -/
theorem parseRange_eq_relocate {s w : Text} {range : Span} {r : Rule} {o : Options}
    (hw : s.slice? range.start range.stop = some w) (ho : o.requireComplete = false) :
    parseRange s range r o = relocateResult (range.start + ·) s (parse w r o) ∧
      ∀ t, parse w r o = .ok t → ∀ n ∈ t.nodes, n.rule.isAtomic = false →
        ∀ e, n.span.stop ≤ e → e ≤ skipNoise w n.span.stop →
          trimTrailing w (lastStop n.span.start n.children) e = n.span.stop ∧
          trimTrailing s (range.start + lastStop n.span.start n.children) (range.start + e) =
            range.start + n.span.stop := by
  have heq := parseRange_relocate (r := r) hw ho
  refine ⟨heq, fun t ht n hn ha e hle hge => ⟨trimmed_of_parse ht n hn ha e hle hge, ?_⟩⟩
  rw [ht] at heq
  have hmem : n.relocate (range.start + ·) ∈ (t.relocate (range.start + ·)).nodes := by
    rw [Tree.nodes_relocate]
    exact List.mem_map_of_mem hn
  have htrim := trimmed_of_parseRange heq _ hmem
  have hnoise := skipNoise_le_of_slice? hw n.span.stop
  simp only [Tree.Trimmed, Tree.rule_relocate, Tree.span_relocate, Tree.children_relocate,
    Span.relocate] at htrim
  have hlast := lastStop_relocate (range.start + ·) n.span.start n.children
  rw [← hlast]
  exact htrim ha _ (by omega) (by omega)

/-- A call in front of a comment of which the range has the first character only. -/
theorem parseRange_of_cut_comment :
    let s : Text := ['1', '+', 'f', '(', ')', ' ', '!', 'c']
    let w : Text := ['f', '(', ')', ' ', '!']
    let range : Span := ⟨2, 7⟩
    let t : Tree := ⟨.functionCall, ⟨0, 3⟩, [⟨.name, ⟨0, 1⟩, []⟩]⟩
    s.slice? range.start range.stop = some w ∧ parse w .functionCall {} = .ok t ∧
      parseRange s range .functionCall {} = .ok (t.relocate (2 + ·)) ∧
      trimTrailing w 1 5 = 3 ∧ trimTrailing s 3 7 = 5 := by
  intro s w range t
  have hw : s.slice? range.start range.stop = some w := by decide
  have ht : parse w .functionCall {} = .ok t := by rfl
  obtain ⟨heq, htrim⟩ := parseRange_eq_relocate (r := .functionCall) (o := {}) hw rfl
  rw [ht] at heq
  exact ⟨hw, ht, heq, htrim t ht t t.self_mem_nodes rfl 5 (by decide) (by decide)⟩

end FreeForm
