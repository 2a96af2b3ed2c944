import FreeForm.Proofs.Lockstep
import FreeForm.Proofs.TokenEnds

/-!
# Interchangeable stretches of a text

In front of a text `v`, one stretch may stand for another if each lexeme of the grammar takes
either both of them or neither, and noise does too (`Text.Interchangeable`).  If the text in front
of them is tiled, runs on both texts are in lockstep, so what is found in the one text is found in
the other, with the offsets behind the stretch moved by the difference in length
(`Text.Interchangeable.parse_eq`).

Noise between two tokens may stand for any other noise there (`parse_exchange_noise`), and the
contents of a quotation for any others without the quote (`parse_exchange_contents`).
-/

namespace FreeForm

/-- Where the offset `i` lies after the `k` bytes in front of the offset `n` have been replaced by
`m` bytes. -/
def offsetAfter (n k m i : Nat) : Nat := if i < n then i else i - k + m

variable {n k m i j : Nat}

theorem offsetAfter_of_lt (h : i < n) : offsetAfter n k m i = i := if_pos h

theorem offsetAfter_of_le (h : n ≤ i) : offsetAfter n k m i = i - k + m :=
  if_neg (Nat.not_lt.mpr h)

theorem offsetAfter_add (hk : k ≤ n) (h : n ≤ i) :
    offsetAfter n k m (i + j) = offsetAfter n k m i + j := by
  rw [offsetAfter_of_le h, offsetAfter_of_le (by omega)]
  omega

/-- What is the same in both stretches does not count. -/
theorem offsetAfter_add_add (h : j + k ≤ n) :
    offsetAfter n (j + k) (j + m) = offsetAfter n k m := by
  funext i
  unfold offsetAfter
  split <;> omega

/-- The pattern takes the first stretch in front of `v` and the second one, or applies to
neither. -/
def Pattern.TakesBoth (p : Pattern) (x x' v : Text) : Prop :=
  Option.Rel (fun a b => a = (x, v) ∧ b = (x', v)) (p.split? (x ++ v)) (p.split? (x' ++ v))

namespace Text

open Pattern

/-- The stretches `x` and `x'` may stand for each other in front of `v`. -/
structure Interchangeable (x x' v : Text) : Prop where
  ne_nil : x ≠ []
  alike : Alike (x ++ v) (x' ++ v)
  token : ∀ p : Pattern, p.isToken → p.TakesBoth x x' v
  noise : (Pattern.noise.split? (x ++ v) = some ([], x ++ v) ∧
      Pattern.noise.split? (x' ++ v) = some ([], x' ++ v)) ∨
    (Pattern.noise.split? (x ++ v) = some (x, v) ∧ Pattern.noise.split? (x' ++ v) = some (x', v))

end Text

/-- Related places in two texts, of which one has the stretch `x` at the offset `n` and in front of
`v`, and the other has `x'` there: in front of these stretches, with a tiled text up to them, or
behind them. -/
inductive Cursor.Exchanged (x x' v : Text) (n : Nat) : Cursor → Cursor → Prop
  | before {w : Text} {pos stop : Nat} (hw : Text.Tiled (x ++ v) w) (hpos : pos + Text.size w = n) :
    Exchanged x x' v n ⟨w ++ (x ++ v), pos, stop⟩
      ⟨w ++ (x' ++ v), pos, offsetAfter (n + Text.size x) (Text.size x) (Text.size x') stop⟩
  | behind {w : Text} {pos stop : Nat} (hpos : n + Text.size x ≤ pos) :
    Exchanged x x' v n ⟨w, pos, stop⟩
      ⟨w, offsetAfter (n + Text.size x) (Text.size x) (Text.size x') pos,
        offsetAfter (n + Text.size x) (Text.size x) (Text.size x') stop⟩

namespace Text.Interchangeable

open Cursor

variable {x x' v w : Text} {p : Pattern}

theorem exchanged_of_le (hw : Tiled (x ++ v) w) {pos : Nat} (hpos : pos + size w = n)
    (h : x ≠ []) :
    Exchanged x x' v n ⟨w ++ (x ++ v), pos, pos⟩ ⟨w ++ (x' ++ v), pos, pos⟩ := by
  have hx := size_pos h
  have hstop : offsetAfter (n + size x) (size x) (size x') pos = pos := offsetAfter_of_lt (by omega)
  have hb : Exchanged x x' v n ⟨w ++ (x ++ v), pos, pos⟩ ⟨w ++ (x' ++ v), pos, _⟩ :=
    .before hw hpos
  rwa [hstop] at hb

/-- At the end of the stretch both texts go on alike. -/
theorem exchanged_behind (n stop : Nat) :
    Exchanged x x' v n ⟨v, n + size x, stop⟩
      ⟨v, n + size x', offsetAfter (n + size x) (size x) (size x') stop⟩ := by
  have hpos : offsetAfter (n + size x) (size x) (size x') (n + size x) = n + size x' := by
    rw [offsetAfter_of_le (Nat.le_refl _), Nat.add_sub_cancel]
  rw [← hpos]
  exact .behind (Nat.le_refl _)

theorem token_before (h : Interchangeable x x' v) (hw : Tiled (x ++ v) w) {pos stop stop' : Nat}
    (hpos : pos + size w = n) (hp : p.isToken) :
    Option.Rel (Exchanged x x' v n) (token? ⟨w ++ (x ++ v), pos, stop⟩ p)
      (token? ⟨w ++ (x' ++ v), pos, stop'⟩ p) := by
  rw [token?, token?]
  dsimp only
  by_cases hnil : w = []
  · subst hnil
    rw [size_nil, Nat.add_zero] at hpos
    subst hpos
    have htake := h.token p hp
    rw [Pattern.TakesBoth] at htake
    rw [List.nil_append, List.nil_append]
    generalize p.split? (x ++ v) = y at htake
    generalize p.split? (x' ++ v) = y' at htake
    cases htake with
    | none => exact .none
    | some hy =>
      obtain ⟨rfl, rfl⟩ := hy
      have hb : Exchanged x x' v pos ⟨v, pos + size x, pos + size x⟩ ⟨v, pos + size x', _⟩ :=
        exchanged_behind pos (pos + size x)
      rw [offsetAfter_of_le (Nat.le_refl _), Nat.add_sub_cancel] at hb
      exact .some hb
  · cases hs : p.split? (w ++ (x ++ v)) with
    | some y =>
      obtain ⟨u, rfl, hu, ht, hs'⟩ := hw.token hnil h.alike hp hs
      rw [hs', Option.map_some, Option.map_some, hu]
      rw [size_append] at hpos
      exact .some (exchanged_of_le ht (by omega) h.ne_nil)
    | none =>
      -- a token of the second text would be a token of the first one
      cases hs' : p.split? (w ++ (x' ++ v)) with
      | none => exact .none
      | some y =>
        obtain ⟨u, -, -, -, hs''⟩ := (hw.exchange h.alike).token hnil h.alike.symm hp hs'
        rw [hs] at hs''
        exact absurd hs'' (by simp)

theorem gap_before (h : Interchangeable x x' v) (hw : Tiled (x ++ v) w) {pos : Nat}
    (hpos : pos + size w = n) (stop : Nat) :
    Exchanged x x' v n (skipGap ⟨w ++ (x ++ v), pos, stop⟩)
      (skipGap ⟨w ++ (x' ++ v), pos, offsetAfter (n + size x) (size x) (size x') stop⟩) := by
  have hgap : ∀ (s : Text) (stop : Nat) {g r : Text}, Pattern.noise.split? s = some (g, r) →
      skipGap ⟨s, pos, stop⟩ = ⟨r, pos + size g, stop⟩ := fun s stop _ _ hs =>
    skipGap_of_noise (c := ⟨s, pos, stop⟩) hs
  by_cases hnil : w = []
  · subst hnil
    rw [List.nil_append, List.nil_append]
    rw [size_nil, Nat.add_zero] at hpos
    subst hpos
    rcases h.noise with ⟨hs, hs'⟩ | ⟨hs, hs'⟩
    · rw [hgap _ _ hs, hgap _ _ hs']
      exact .before (w := []) .nil (Nat.add_zero pos)
    · rw [hgap _ _ hs, hgap _ _ hs']
      exact exchanged_behind pos stop
  · obtain ⟨⟨g, r⟩, hs⟩ : ∃ y, Pattern.noise.split? (w ++ (x ++ v)) = some y := ⟨_, rfl⟩
    obtain ⟨u, rfl, rfl, ht, hs'⟩ := hw.gap hnil h.alike hs
    rw [hgap _ _ hs, hgap _ _ hs']
    rw [size_append] at hpos
    exact .before ht (by omega)

theorem lockstep (h : Interchangeable x x' v) (n : Nat) :
    Lockstep (offsetAfter (n + size x) (size x) (size x')) (Exchanged x x' v n) where
  pos hc := by
    cases hc with
    | @before w pos stop hw hpos =>
      have hx := size_pos h.ne_nil
      have hlt : pos < n + size x := by omega
      exact (offsetAfter_of_lt hlt).symm
    | behind => rfl
  stop hc := by cases hc <;> rfl
  token hc r p hp := by
    cases hc with
    | before hw hpos => exact h.token_before hw hpos (Rule.isToken_of_mem_lexemes hp)
    | @behind w pos stop hpos =>
      rw [token?, token?]
      cases p.split? w with
      | none => exact .none
      | some y =>
        have hadd := fun m j => offsetAfter_add (m := m) (j := j) (Nat.le_add_left _ n) hpos
        simp only [Option.map_some, ← hadd]
        exact .some (.behind (by omega))
  gap hc := by
    cases hc with
    | @before w pos stop hw hpos => exact h.gap_before hw hpos stop
    | @behind w pos stop hpos =>
      obtain ⟨⟨y, r⟩, hy⟩ : ∃ y, Pattern.noise.split? w = some y := ⟨_, rfl⟩
      rw [skipGap_of_noise (c := ⟨w, pos, stop⟩) hy, skipGap_of_noise (c := ⟨w, _, _⟩) hy]
      have hadd := fun m j => offsetAfter_add (m := m) (j := j) (Nat.le_add_left _ n) hpos
      simp only [← hadd]
      exact .behind (by omega)

/-- **Interchangeable stretches are read alike.**  The result of a parse stays the same, up to the
offsets behind the stretch. -/
theorem parse_eq (h : Interchangeable x x' v) {u : Text} (hu : Tiled (x ++ v) u) {r : Rule}
    {o p : Options} {t : Tree} (ht : parse (u ++ x ++ v) r o = .ok t)
    (hp : p.requireComplete = false) (hd : nestingDepth (u ++ x' ++ v) ≤ p.maxNesting) :
    parse (u ++ x' ++ v) r p =
      .ok (t.relocate (offsetAfter (size u + size x) (size x) (size x'))) := by
  obtain ⟨-, d, hf, -⟩ := parse_eq_ok_iff.mp ht
  rw [List.append_assoc] at hf
  have hstart : Exchanged x x' v (size u) (.start (u ++ (x ++ v)) 0) (.start (u ++ (x' ++ v)) 0) :=
    exchanged_of_le hu (Nat.zero_add _) h.ne_nil
  obtain ⟨d', hf', -⟩ := (h.lockstep (size u)).found_read hstart hf
  refine parse_eq_ok_iff.mpr ⟨hd, d', ?_, by simp [hp]⟩
  rw [List.append_assoc]
  exact hf'

end Text.Interchangeable

/-! ## Noise -/

namespace Text

open Pattern

variable {x x' v : Text}

theorem interchangeable_of_noise (hx : x ≠ []) (hx' : x' ≠ [])
    (h : Pattern.noise.split? (x ++ v) = some (x, v))
    (h' : Pattern.noise.split? (x' ++ v) = some (x', v)) : Interchangeable x x' v := by
  have hhead : ∀ {x : Text}, x ≠ [] → Pattern.noise.split? (x ++ v) = some (x, v) →
      ∀ c ∈ (x ++ v).head?, c ∈ noiseMarks := by
    intro x hx h c hc
    obtain ⟨d, y, rfl⟩ := List.exists_cons_of_ne_nil hx
    obtain rfl : d = c := by simpa using hc
    exact mem_noiseMarks_of_split? h hx
  have hnone : ∀ {x : Text} {p : Pattern}, x ≠ [] → Pattern.noise.split? (x ++ v) = some (x, v) →
      p.isToken → p.split? (x ++ v) = none := by
    intro x p hx h hp
    obtain ⟨⟨hclear, -⟩, -⟩ := isToken_iff.mp hp
    by_contra hsome
    obtain ⟨d, y, rfl⟩ := List.exists_cons_of_ne_nil hx
    have hnot := Cursor.head_of_isClear (c := .start (d :: y ++ v) 0) hclear
      (Option.isSome_iff_ne_none.mpr hsome)
    exact hnot d rfl (hhead hx h d rfl)
  refine ⟨hx, ⟨fun c hc => ?_, fun c hc => ?_, fun c hc => ?_⟩, fun p hp => ?_, .inr ⟨h, h'⟩⟩
  · exact List.mem_append_right _ (hhead hx h c hc)
  · exact List.mem_append_right _ (hhead hx' h' c hc)
  · exact ⟨fun hm => absurd (hhead hx h c hm) hc, fun hm => absurd (hhead hx' h' c hm) hc⟩
  · rw [Pattern.TakesBoth, hnone hx h hp, hnone hx' h' hp]
    exact .none

/-- The noise that is skipped at an offset is what stands up to the offset reached. -/
theorem split?_noise_of_skipNoise {u x v : Text}
    (h : skipNoise (u ++ x ++ v) (size u) = size u + size x) :
    Pattern.noise.split? (x ++ v) = some (x, v) := by
  obtain ⟨⟨g, r⟩, hg⟩ : ∃ y, Pattern.noise.split? (x ++ v) = some y := ⟨_, rfl⟩
  rw [List.append_assoc, skipNoise, dropBytes?_size_append, Option.bind_some, width?, hg,
    Option.map_some, Option.getD_some, Nat.add_left_cancel_iff] at h
  obtain ⟨rfl, rfl⟩ := append_inj_of_size (split?_eq_append hg) h.symm
  exact hg

end Text

/-- **Noise between tokens is interchangeable.**  If the stretch `x` behind a token of a tree is all
the noise that stands there, then any other noise `x'` may stand there instead: the same tree is
found, with the offsets behind the noise moved by the difference in length. -/
theorem parse_exchange_noise {u x x' v : Text} {r : Rule} {o p : Options} {t : Tree}
    (h : parse (u ++ x ++ v) r o = .ok t) (hu : t.EndsToken (u ++ x ++ v) (Text.size u))
    (hx : x ≠ []) (hn : skipNoise (u ++ x ++ v) (Text.size u) = Text.size u + Text.size x)
    (hx' : x' ≠ []) (hn' : skipNoise (u ++ x' ++ v) (Text.size u) = Text.size u + Text.size x')
    (hp : p.requireComplete = false) (hd : nestingDepth (u ++ x' ++ v) ≤ p.maxNesting) :
    parse (u ++ x' ++ v) r p =
      .ok (t.relocate (offsetAfter (Text.size u + Text.size x) (Text.size x) (Text.size x'))) := by
  have htiled := Text.tiledTo_of_endsToken h hu
  rw [List.append_assoc] at htiled
  have hchange := Text.interchangeable_of_noise hx hx' (Text.split?_noise_of_skipNoise hn)
    (Text.split?_noise_of_skipNoise hn')
  exact hchange.parse_eq htiled.tiled h hp hd

/-- A comment with a quote and a parenthesis in place of a blank behind the parenthesis of a
call. -/
theorem parse_exchange_noise_of_call :
    let u : Text := ['f', '(']
    let x : Text := [' ']
    let x' : Text := ['&', '!', '(', '"', '\n', '&']
    let v : Text := ['a', ')']
    let t : Tree := ⟨.functionCall, ⟨0, 5⟩, [⟨.name, ⟨0, 1⟩, []⟩, ⟨.arguments, ⟨3, 4⟩,
      [⟨.argument, ⟨3, 4⟩, [⟨.valueReturningCode, ⟨3, 4⟩, [⟨.accessedVariable, ⟨3, 4⟩,
        [⟨.name, ⟨3, 4⟩, []⟩]⟩]⟩]⟩]⟩]⟩
    parse (u ++ x ++ v) .functionCall {} = .ok t ∧ t.EndsToken (u ++ x ++ v) (Text.size u) ∧
      parse (u ++ x' ++ v) .functionCall {} = .ok (t.relocate (offsetAfter 3 1 6)) := by
  intro u x x' v t
  have ht : parse (u ++ x ++ v) .functionCall {} = .ok t := by rfl
  have hlit : Pattern.lit ['('] ∈ Rule.functionCall.production.lexemes := by decide
  have hend : t.EndsToken (u ++ x ++ v) (Text.size u) :=
    ⟨t, t.self_mem_nodes, .inr ⟨rfl, 1, ['('], .child (u := ⟨.name, ⟨0, 1⟩, []⟩) (by decide), hlit,
      by decide⟩⟩
  exact ⟨ht, hend, parse_exchange_noise ht hend (by decide) (by decide) (by decide) (by decide) rfl
    (by decide)⟩

/-! ## Contents of quotations -/

theorem Text.interchangeable_of_quotation {q : Char} {b w : Text} (hq : q ∈ Pattern.quotes)
    (hb : q ∉ b) (hw : q ∉ w) (v : Text) :
    Interchangeable (q :: (b ++ [q])) (q :: (w ++ [q])) v := by
  have hsplit : ∀ {b : Text}, q ∉ b →
      Pattern.quotation.split? (q :: (b ++ [q]) ++ v) = some (q :: (b ++ [q]), v) := by
    intro b hb
    simpa using Pattern.split?_quotation hq hb v
  have hnone : ∀ {p : Pattern} (b : Text), p.isToken → p.isFreeOf Pattern.marks →
      p.split? (q :: (b ++ [q]) ++ v) = none := by
    intro p b hp hf
    obtain ⟨⟨hclear, -⟩, -⟩ := Pattern.isToken_iff.mp hp
    by_contra hsome
    obtain ⟨⟨t, r⟩, hs⟩ := Option.ne_none_iff_exists'.mp hsome
    have hne := Pattern.ne_nil_of_consumes (Pattern.consumes_of_isClear hclear) hs
    obtain ⟨c, t, rfl⟩ := List.exists_cons_of_ne_nil hne
    obtain rfl : q = c := (List.cons.inj (Pattern.split?_eq_append hs)).1
    exact Pattern.notMem_of_isFreeOf hf hs q List.mem_cons_self (List.mem_append_left _ hq)
  have hnoise : ∀ b : Text, Pattern.noise.split? (q :: (b ++ [q]) ++ v) =
      some ([], q :: (b ++ [q]) ++ v) := fun b =>
    Pattern.split?_noise_of_notMem (by simpa using notMem_noiseMarks_of_quote hq)
  have hmark : ∀ c ∈ some q, c ∈ Pattern.marks := by
    rintro c ⟨rfl⟩
    exact List.mem_append_left _ hq
  refine ⟨by simp, ⟨hmark, hmark, fun _ _ => Iff.rfl⟩, fun p hp => ?_, .inl ⟨hnoise b, hnoise w⟩⟩
  obtain ⟨⟨-, -, hkind⟩, -⟩ := Pattern.isToken_iff.mp hp
  rcases hkind with rfl | hfree
  · rw [Pattern.TakesBoth, hsplit hb, hsplit hw]
    exact .some ⟨rfl, rfl⟩
  · rw [Pattern.TakesBoth, hnone b hp hfree, hnone w hp hfree]
    exact .none

/-- **The contents of a quotation are inert.**  A string of a tree is a quotation, and any contents
without its quote may stand in place of those between the quotes: the same tree is found, with the
offsets from the end of the quotation on moved by the difference in length. -/
theorem parse_exchange_contents {s : Text} {r : Rule} {o : Options} {t n : Tree}
    (h : parse s r o = .ok t) (hn : n ∈ t.nodes) (hr : n.rule = .string) :
    ∃ u q b v, s = u ++ (q :: (b ++ [q])) ++ v ∧ (q = '"' ∨ q = '\'') ∧ q ∉ b ∧
      n.span = ⟨Text.size u, Text.size (u ++ (q :: (b ++ [q])))⟩ ∧
      ∀ (w : Text) (p : Options), q ∉ w → p.requireComplete = false →
        nestingDepth (u ++ (q :: (w ++ [q])) ++ v) ≤ p.maxNesting →
        parse (u ++ (q :: (w ++ [q])) ++ v) r p =
          .ok (t.relocate (offsetAfter n.span.stop (Text.size b) (Text.size w))) := by
  obtain ⟨c, d, hc, -, hd, hspan⟩ := grownFrom_of_parse h n hn
  rw [hr] at hd
  obtain ⟨-, htoken⟩ : n.children = [] ∧ c.token? .quotation = some d := hd
  obtain ⟨x, hx, hcd, hstop⟩ := Cursor.passes_of_token? htoken
  obtain ⟨q, b, hq, hb, rfl⟩ := Pattern.exists_of_split?_quotation hx
  have htiled := hc.tiledTo_pos (by decide) htoken
  obtain ⟨⟨⟨u, rfl, hu⟩, -⟩, -⟩ := hc
  have hstop' : d.stop = Text.size (u ++ (q :: (b ++ [q]))) := by
    rw [hstop, hcd.pos, hu, Text.size_append]
  rw [hu, hcd.rest] at htiled
  rw [hcd.rest, ← List.append_assoc] at h ⊢
  refine ⟨u, q, b, d.rest, rfl, by simpa [Pattern.quotes] using hq, hb, by rw [hspan, hu, hstop'],
    fun w p hw hp hdepth => ?_⟩
  have hsize : ∀ b : Text, Text.size (q :: (b ++ [q])) = q.utf8Size + q.utf8Size + Text.size b := by
    intro b
    simp only [Text.size_cons, Text.size_append, Text.size_nil]
    omega
  have hparse :=
    (Text.interchangeable_of_quotation hq hb hw d.rest).parse_eq htiled.tiled h hp hdepth
  rw [hparse, hspan, hstop', Text.size_append, hsize, hsize, offsetAfter_add_add (by omega)]

/-- Other contents of the argument of a call, with the other quote, a comment and parentheses. -/
theorem parse_exchange_contents_of_call :
    let s : Text := ['f', '(', '\'', 'a', '\'', ')']
    let s' : Text := ['f', '(', '\'', '!', '"', '(', '(', '&', '\'', ')']
    let n : Tree := ⟨.string, ⟨2, 5⟩, []⟩
    let t : Tree := ⟨.functionCall, ⟨0, 6⟩, [⟨.name, ⟨0, 1⟩, []⟩, ⟨.arguments, ⟨2, 5⟩,
      [⟨.argument, ⟨2, 5⟩, [⟨.valueReturningCode, ⟨2, 5⟩, [⟨.atomicValue, ⟨2, 5⟩, [n]⟩]⟩]⟩]⟩]⟩
    parse s .functionCall {} = .ok t ∧ n ∈ t.nodes ∧
      parse s' .functionCall {} = .ok (t.relocate (offsetAfter 5 1 5)) := by
  intro s s' n t
  have ht : parse s .functionCall {} = .ok t := by rfl
  have hn : n ∈ t.nodes := by decide
  obtain ⟨u, q, b, v, hs, -, -, hspan, hw⟩ := parse_exchange_contents ht hn rfl
  -- the span tells where the text splits
  simp only [n, Span.mk.injEq, Text.size_append, Text.size_cons, Text.size_nil] at hspan
  obtain ⟨hu, hsize⟩ := hspan
  have hus := Text.takeBytes?_size_append u (q :: (b ++ [q]) ++ v)
  rw [← List.append_assoc, ← hs, ← hu] at hus
  obtain rfl : ['f', '('] = u := Option.some.inj hus
  have hq : ['\'', 'a', '\'', ')'] = q :: (b ++ [q] ++ v) := (List.cons.inj (List.cons.inj hs).2).2
  obtain ⟨rfl, hbv⟩ := List.cons.inj hq
  have hone : Text.size b = 1 := by
    have hquote : Char.utf8Size '\'' = 1 := rfl
    rw [hquote] at hsize
    omega
  have hbs := Text.takeBytes?_size_append b (['\''] ++ v)
  rw [← List.append_assoc, ← hbv, hone] at hbs
  obtain rfl : ['a'] = b := Option.some.inj hbs
  obtain rfl : [')'] = v := (List.cons.inj (List.cons.inj hbv).2).2
  exact ⟨ht, hn, hw ['!', '"', '(', '(', '&'] {} (by decide) rfl (by decide)⟩

end FreeForm
