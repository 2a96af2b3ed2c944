import FreeForm.Proofs.NoiseText
import FreeForm.Proofs.SpanOrder

/-!
# What complete matches are

Asking for complete matches changes one thing about a parse: a match is refused if something stands
behind it that may not follow a statement (`parse_complete_of_parse`).  What may follow is described
by its items, as noise is; the pattern that passes it reaches the end of a text just if the text
consists of such items (`Text.isTrailing_iff`).
-/

namespace FreeForm

namespace Text

variable {u v w : Text} {breaks : Bool}

theorem IsContinuation.ne_nil (h : IsContinuation w) : w ≠ [] := by
  obtain ⟨ls, b, -, -, -, rfl⟩ := h
  simp

theorem IsNoiseItem.ne_nil {r : Text} (h : IsNoiseItem breaks r w) : w ≠ [] := by
  cases h with
  | blank _ => simp
  | comment hw _ =>
    obtain ⟨b, rfl, -⟩ := hw
    simp
  | continuation hw => exact hw.ne_nil
  | lineBreak _ _ => simp

/-- The pattern for what may follow a statement passes a text to its end if the text is a sequence
of blanks, comments, continuations and line breaks. -/
theorem isTrailing_iff : v.IsTrailing ↔ IsNoise true [] v := by
  constructor
  · intro h
    have hitems : (Pattern.many (Pattern.item true)).split? v = some (v, []) := h
    exact (Pattern.split?_items_iff.mp hitems).2.1
  · intro h
    show (Pattern.many (Pattern.item true)).split? v = some (v, [])
    refine Pattern.split?_items_iff.mpr ⟨(List.append_nil v).symm, h, ?_⟩
    intro k t hkt hk
    exact hk.ne_nil (List.append_eq_nil_iff.mp hkt.symm).1

/-- What may follow a statement is passed from `u` on up to the end of the text, if the rest of the
text consists of it. -/
theorem size_le_skipTrailing_iff :
    size (u ++ v) ≤ skipTrailing (u ++ v) (size u) ↔ IsNoise true [] v := by
  obtain ⟨⟨w, r⟩, hw⟩ : ∃ x, Pattern.trailing.split? v = some x := ⟨_, rfl⟩
  have hv := Pattern.split?_eq_append hw
  have hskip : skipTrailing (u ++ v) (size u) = size u + size w := by
    rw [skipTrailing, dropBytes?_size_append, Option.bind_some, Pattern.width?, hw]
    rfl
  rw [hskip, ← isTrailing_iff, IsTrailing, hw, hv, size_append, size_append]
  constructor
  · intro h
    obtain rfl : r = [] := eq_nil_of_size (by omega)
    rw [List.append_nil]
  · intro h
    obtain ⟨-, rfl⟩ := Prod.mk.inj (Option.some.inj h)
    simp

end Text

/-- Where parentheses do not nest too deeply, the rule is tried and what is behind its match is
looked at. -/
theorem parse_eq_of_nestingDepth_le {s : Text} {o : Options} (hn : nestingDepth s ≤ o.maxNesting)
    (r : Rule) : parse s r o = (matchFragment ⟨o.sourceName, s⟩ r 0 s).bind fun t =>
      if o.requireComplete ∧ skipTrailing s t.span.stop < Text.size s then
        .error (incompleteError ⟨o.sourceName, s⟩ r 0 t.span.stop (Text.size s))
      else .ok t := by
  rw [parse, parseRange, Text.slice?_size]
  dsimp only
  rw [parseFragment]
  dsimp only
  rw [if_neg (Nat.not_lt.mpr hn), Nat.zero_add]
  rfl

/-- A text in which parentheses nest too deeply is refused, whether a match has to be complete or
not. -/
theorem parse_eq_of_lt_nestingDepth {s : Text} {o : Options} (hn : o.maxNesting < nestingDepth s)
    (r : Rule) : parse s r o =
      .error ⟨.nestingTooDeep (nestingDepth s) o.maxNesting, ⟨o.sourceName, s⟩,
        ⟨0, Text.size s⟩⟩ := by
  rw [parse, parseRange, Text.slice?_size]
  dsimp only
  rw [parseFragment]
  dsimp only
  rw [if_pos hn, Nat.zero_add]

open Text in
/-- **Asking for complete matches refuses matches with something behind them, and changes nothing
else.**  An error stays as it is.  A match is returned if behind it stand blanks, comments,
continuations and line breaks only, and otherwise the error says how much of the text was matched,
and points at the rest. -/
theorem parse_complete_of_parse {o : Options} (ho : o.requireComplete = false) (s : Text)
    (r : Rule) :
    (∀ e, parse s r o = .error e → parse s r o.complete = .error e) ∧
      ∀ t, parse s r o = .ok t → ∃ u v, s = u ++ v ∧ size u = t.span.stop ∧
        (IsNoise true [] v → parse s r o.complete = .ok t) ∧
        (¬IsNoise true [] v → parse s r o.complete =
          .error ⟨.incomplete r t.span.stop (size s), ⟨o.sourceName, s⟩,
            ⟨t.span.stop, size s⟩⟩) := by
  by_cases hn : o.maxNesting < nestingDepth s
  · have hn' : o.complete.maxNesting < nestingDepth s := hn
    rw [parse_eq_of_lt_nestingDepth hn, parse_eq_of_lt_nestingDepth hn']
    exact ⟨fun _ he => he, fun _ ht => absurd ht (by simp)⟩
  have hle := Nat.not_lt.mp hn
  have hle' : nestingDepth s ≤ o.complete.maxNesting := hle
  have hpartial : parse s r o = matchFragment ⟨o.sourceName, s⟩ r 0 s := by
    rw [parse_eq_of_nestingDepth_le hle, ho]
    cases matchFragment ⟨o.sourceName, s⟩ r 0 s <;> simp [Except.bind]
  have hcomplete := parse_eq_of_nestingDepth_le hle' r
  have hname : o.complete.sourceName = o.sourceName := rfl
  have hrequire : o.complete.requireComplete = true := rfl
  rw [hname, ← hpartial, hrequire] at hcomplete
  constructor
  · intro e he
    rw [hcomplete, he]
    rfl
  · intro t ht
    have hwell := (grownIn_of_parse ht t t.self_mem_nodes).wellSpanned
    obtain ⟨v, hv⟩ := Option.isSome_iff_exists.mp hwell.stop_boundary
    obtain ⟨u, rfl, hu⟩ := eq_append_of_dropBytes? hv
    have hiff : size (u ++ v) ≤ skipTrailing (u ++ v) t.span.stop ↔ IsNoise true [] v := by
      rw [← hu]
      exact size_le_skipTrailing_iff
    rw [hcomplete, ht]
    simp only [Except.bind, true_and]
    refine ⟨u, v, rfl, hu, fun h => ?_, fun h => ?_⟩
    · rw [if_neg (Nat.not_lt.mpr (hiff.mpr h))]
    · rw [if_pos (Nat.lt_of_not_le fun hle => h (hiff.mp hle)), incompleteError, Nat.sub_zero,
        Nat.zero_add]

open Text in
/-- A carriage return ends a comment in front of a continuation, and a continuation without its
second mark may not follow a statement. -/
theorem parse_complete_of_assignments :
    let x : Text := ['x', '=', 'y']
    let v : Text := ['\n', '!', '\r', ' ', '&', '!', '\n', '\r', '&', '\n']
    let v' : Text := [' ', '!', '\n', '&', '\n', 'z']
    let access (n : Nat) : Tree := ⟨.accessedVariable, ⟨n, n + 1⟩, [⟨.name, ⟨n, n + 1⟩, []⟩]⟩
    let t : Tree :=
      ⟨.assignment, ⟨0, 3⟩, [access 0, ⟨.valueReturningCode, ⟨2, 3⟩, [access 2]⟩]⟩
    let o : Options := {}
    o.requireComplete = false ∧
      parse (x ++ v) .assignment o = .ok t ∧ parse (x ++ v) .assignment o.complete = .ok t ∧
      parse (x ++ v') .assignment o = .ok t ∧ parse (x ++ v') .assignment o.complete =
        .error ⟨.incomplete .assignment 3 9, ⟨o.sourceName, x ++ v'⟩, ⟨3, 9⟩⟩ := by
  intro x v v' _ t o
  have ht : parse (x ++ v) .assignment o = .ok t := by rfl
  have ht' : parse (x ++ v') .assignment o = .ok t := by rfl
  have hv : IsNoise true [] v := by
    rw [← isTrailing_iff, IsTrailing]
    decide
  have hv' : ¬IsNoise true [] v' := by
    rw [← isTrailing_iff, IsTrailing]
    decide
  refine ⟨rfl, ht, ?_, ht', ?_⟩
  · obtain ⟨u, w, hs, hu, hok, -⟩ := (parse_complete_of_parse rfl (x ++ v) .assignment).2 t ht
    obtain ⟨-, rfl⟩ := append_inj_of_size hs (hu.trans rfl).symm
    exact hok hv
  · obtain ⟨u, w, hs, hu, -, herr⟩ := (parse_complete_of_parse rfl (x ++ v') .assignment).2 t ht'
    obtain ⟨-, rfl⟩ := append_inj_of_size hs (hu.trans rfl).symm
    exact herr hv'

end FreeForm
