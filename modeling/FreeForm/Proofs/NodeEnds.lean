import FreeForm.Proofs.OtherRest
import FreeForm.Proofs.SpanOrder

/-!
# Where nodes end

A node ends where its last lexeme ends, which a run keeps apart from the place it has reached.  The
same end is found afterwards by trimming: from the end of the last child on, over the text of the
whole source (`Tree.Trimmed`).  Trimming makes the steps of a derivation one by one, because no
character of a lexeme begins noise, and noise in front of a lexeme is the same noise whatever stands
behind the lexeme (`Derives.trails`).  Both ends agree in every run (`Derives.stop_eq_trimTrailing`).

So trimming gives the ends of all nodes of the tree of a parse in a range, also where noise at the
end of the range goes on behind it (`trimmed_of_parseRange`).
-/

namespace FreeForm

variable {skip : Cursor → Cursor} {a : Phrase} {s : Text} {c d f g : Cursor} {ts : List Tree}
  {n : Nat} {x : Text}

/-- Where the last of some trees ends, or the offset `n` if there is none. -/
def lastStop (n : Nat) (ts : List Tree) : Nat := (ts.getLast?.map (·.span.stop)).getD n

theorem lastStop_append (n : Nat) (ts us : List Tree) :
    lastStop n (ts ++ us) = lastStop (lastStop n ts) us := by
  unfold lastStop
  rw [List.getLast?_append]
  cases us.getLast? with
  | none => rfl
  | some t => rfl

/-! ## Trimming over a derivation -/

namespace Cursor

/-- Noise in front of a lexeme is passed, whatever stands behind the lexeme. -/
theorem trim_noise_append {w t r : Text} (h : Pattern.noise.split? (w ++ (t ++ r)) =
    some (w, t ++ r)) (ht : t ≠ []) (hm : ∀ y ∈ (t ++ r).head?, y ∉ Pattern.noiseMarks) (z : Text)
    (n k e : Nat) :
    trim e ⟨w ++ (t ++ z), n, k⟩ = trim e ⟨t ++ z, n + Text.size w, k⟩ := by
  have hhead : (t ++ z).head? = (t ++ r).head? := Pattern.head?_append_congr (.inl ht)
  have hw : Pattern.noise.split? (w ++ (t ++ z)) = some (w, t ++ z) :=
    Pattern.split?_noise_append h (.inl hhead) (hhead ▸ hm)
  refine trim_congr ?_ e
  rw [skipGap_of_noise (c := ⟨w ++ (t ++ z), n, k⟩) hw,
    skipGap_of_noise (c := ⟨t ++ z, n + Text.size w, k⟩) (Pattern.split?_noise_of_noise hw),
    Text.size_nil, Nat.add_zero]

/-- Trimming from `g` on passes the text `x` and comes to `f`, which is the end of the last lexeme
in front of `c`, or the offset `n` if no lexeme ends behind it.  What stands behind `f` makes no
difference. -/
structure Trails (n : Nat) (g : Cursor) (x : Text) (f c : Cursor) : Prop where
  passes : g.Passes x f
  pos_eq : f.pos = max n c.stop
  rest_skipGap : f.skipGap.rest = c.skipGap.rest
  pos_skipGap : f.skipGap.pos = c.skipGap.pos
  trim_eq : ∀ z e, f.pos ≤ e → trim e ⟨x ++ z, g.pos, g.pos⟩ = trim e ⟨z, f.pos, f.pos⟩

/-- Trimming starts anew at the end of a lexeme. -/
theorem EndsAt.trails (h : d.EndsAt s f) (hn : n ≤ d.stop) : Trails n f [] f d where
  passes := ⟨rfl, rfl⟩
  pos_eq := by rw [← h.stop_eq, h.stop, Nat.max_eq_right hn]
  rest_skipGap := by rw [h.gap]
  pos_skipGap := by rw [h.gap]
  trim_eq _ _ _ := rfl

theorem Trails.gap (h : Trails n g x f c) (hs : Spacing skip) : Trails n g x f (skip c) := by
  cases hs with
  | compact => exact h
  | spaced =>
    refine ⟨h.passes, by rw [h.pos_eq, stop_skipGap], ?_, ?_, h.trim_eq⟩
    · rw [h.rest_skipGap, skipGap_skipGap]
    · rw [h.pos_skipGap, skipGap_skipGap]

theorem Trails.token {p : Pattern} (h : Trails n g x f c) (hp : p.isClear)
    (hf : p.isFreeOf Pattern.noiseMarks) (ht : c.token? p = some d) : ∃ y, Trails n g y d d := by
  obtain ⟨t, hsplit, hcd, hstop⟩ := passes_of_token? ht
  have hclean := skipGap_of_token? hp ht
  obtain ⟨w, hw, hfc, -⟩ := f.passes_skipGap
  rw [Pattern.split?_gap, h.rest_skipGap, hclean] at hw
  have hpos := hfc.pos
  rw [h.pos_skipGap, hclean] at hpos
  have hrest := Pattern.split?_eq_append hw
  have hne : t ≠ [] := Pattern.ne_nil_of_consumes (Pattern.consumes_of_isClear hp) hsplit
  have hm := head_of_isClear hp (Option.isSome_of_eq_some hsplit)
  have hle : n ≤ f.pos := by rw [h.pos_eq]; exact Nat.le_max_left ..
  have hd := hcd.pos
  rw [hrest, hcd.rest] at hw
  rw [hcd.rest] at hm
  refine ⟨x ++ (w ++ t), ?_, ?_, rfl, rfl, fun z e he => ?_⟩
  · refine h.passes.trans ⟨by rw [hrest, hcd.rest, List.append_assoc], ?_⟩
    rw [hd, hpos, Text.size_append, Nat.add_assoc]
  · rw [hstop, Nat.max_eq_right (by omega)]
  · rw [List.append_assoc, List.append_assoc, h.trim_eq _ e (by omega),
      trim_noise_append hw hne hm, ← hpos,
      trim_append hne (Pattern.notMem_of_isFreeOf hf hsplit) (by omega), ← hd]

/-- Trimming from the offset `m` of the text `s` on leads to `c`. -/
def TrailsFrom (s : Text) (n m : Nat) (c : Cursor) : Prop :=
  ∃ g x f, g.At s ∧ g.pos = m ∧ Trails n g x f c

end Cursor

theorem Derives.trails_call {r : Rule} {m : Nat} (h : Derives skip (.call r) c ts d)
    (hs : Spacing skip) (hc : c.At s) (hf : ∃ f, c.EndsAt s f) (hn : n ≤ c.pos) :
    d.TrailsFrom s n (lastStop m ts) := by
  obtain ⟨us, rfl, hd⟩ := derives_call_iff.mp h
  obtain ⟨u, v, -, -, hstop⟩ := r.taken_of_derives hd
  obtain ⟨-, f, hf⟩ := h.endsAt hs hc hf
  refine ⟨f, [], f, hf.place, ?_, hf.trails (by omega)⟩
  rw [← hf.stop_eq, hf.stop]
  rfl

/-- **Trimming makes the steps of a derivation**, starting anew behind each tree. -/
theorem Derives.trails {m : Nat} (h : Derives skip a c ts d) (hs : Spacing skip)
    (hp : ∀ p ∈ a.lexemes, p.isClear ∧ p.isFreeOf Pattern.noiseMarks) (hc : c.At s)
    (hf : ∃ f, c.EndsAt s f) (hn : n ≤ c.pos) (hm : c.TrailsFrom s n m) :
    d.TrailsFrom s n (lastStop m ts) := by
  have hskip : ∀ {m : Nat} {c : Cursor}, c.TrailsFrom s n m → (skip c).TrailsFrom s n m := by
    rintro m c ⟨g, x, f, hg, hpos, ht⟩
    exact ⟨g, x, f, hg, hpos, ht.gap hs⟩
  induction h generalizing m with
  | @token _ p c d h =>
    obtain ⟨g, x, f, hg, hpos, ht⟩ := hm
    obtain ⟨hclear, hfree⟩ := hp p (List.mem_singleton_self p)
    obtain ⟨y, hy⟩ := ht.token hclear hfree h
    exact ⟨g, y, d, hg, hpos, hy⟩
  | lexeme hr h => exact (Derives.lexeme hr h).trails_call hs hc hf hn
  | compact hr h => exact (Derives.compact hr h).trails_call hs hc hf hn
  | spaced hr h => exact (Derives.spaced hr h).trails_call hs hc hf hn
  | @seq skip a b c d e ts us ha hb iha ihb =>
    simp only [Phrase.lexemes, List.mem_append] at hp
    have hpa := fun p h => hp p (.inl h)
    obtain ⟨hd, f, hfd⟩ := ha.endsAt hs hc hf
    obtain ⟨w, hw, -⟩ := Cursor.idle_skip hs d
    have hle := (ha.moves hs fun p hp => Pattern.consumes_of_isClear (hpa p hp).1).pos_le
    rw [lastStop_append]
    exact ihb hs (fun p h => hp p (.inr h)) (hd.passes hw) ⟨f, hfd.skip hs⟩
      (by rw [hw.pos]; omega) (hskip (iha hs hpa hc hf hn hm hskip)) hskip
  | left _ ih => exact ih hs (fun p h => hp p (List.mem_append_left _ h)) hc hf hn hm hskip
  | right _ ih => exact ih hs (fun p h => hp p (List.mem_append_right _ h)) hc hf hn hm hskip
  | present _ ih | once _ ih => exact ih hs hp hc hf hn hm hskip
  | absent | never => exact hm
  | @again skip a c d e ts us ha hb iha ihb =>
    obtain ⟨hd, f, hfd⟩ := ha.endsAt hs hc hf
    obtain ⟨w, hw, -⟩ := Cursor.idle_skip hs d
    have hle := (ha.moves hs fun p h => Pattern.consumes_of_isClear (hp p h).1).pos_le
    rw [lastStop_append]
    exact ihb hs hp (hd.passes hw) ⟨f, hfd.skip hs⟩ (by rw [hw.pos]; omega)
      (hskip (iha hs hp hc hf hn hm hskip)) hskip

/-! ## The ends of nodes -/

/-- What is pulled back to the end of a node is any place up to the end of the noise behind it. -/
def Tree.Trimmed (s : Text) (t : Tree) : Prop :=
  t.rule.isAtomic = false → ∀ e, t.span.stop ≤ e → e ≤ skipNoise s t.span.stop →
    trimTrailing s (lastStop t.span.start t.children) e = t.span.stop

theorem Rule.free_of_mem_lexemes {r : Rule} (hr : r.isAtomic = false) {p : Pattern}
    (hp : p ∈ r.production.lexemes) : p.isClear ∧ p.isFreeOf Pattern.noiseMarks := by
  have h : r.isAtomic = false → ∀ p ∈ r.production.lexemes,
      p.isClear ∧ p.isFreeOf Pattern.noiseMarks := by cases r <;> decide
  exact h hr p hp

/-- The end of a node is found in a text that goes on behind the text of the derivation. -/
theorem Derives.trimmed {r : Rule} (hr : r.production = .spaced a)
    (h : Derives Cursor.skipGap a c ts d) (hc : c.At s) (hf : ∃ f, c.EndsAt s f) (v : Text) :
    (⟨r, ⟨c.pos, d.stop⟩, ts⟩ : Tree).Trimmed (s ++ v) := by
  intro ha e hle hge
  have hp : ∀ p ∈ a.lexemes, p.isClear ∧ p.isFreeOf Pattern.noiseMarks := fun p hp =>
    r.free_of_mem_lexemes ha (by rw [hr]; exact hp)
  have hstart : c.TrailsFrom s c.pos c.pos := by
    obtain ⟨f, hf⟩ := hf
    have hstop : c.stop ≤ c.pos := by rw [← hf.stop, hf.stop_eq]; exact hf.le
    obtain ⟨⟨w, u⟩, hw⟩ : ∃ x, Pattern.noise.split? c.rest = some x := ⟨_, rfl⟩
    refine ⟨c, [], .start c.rest c.pos, hc, rfl, ⟨rfl, rfl⟩, (Nat.max_eq_left hstop).symm, ?_, ?_,
      fun _ _ _ => rfl⟩
    · exact Cursor.rest_skipGap_congr rfl
    · rw [Cursor.skipGap_of_noise hw, Cursor.skipGap_of_noise (c := .start c.rest c.pos) hw]
      rfl
  obtain ⟨g, x, f, hg, hlast, ht⟩ := h.trails .spaced hp hc hf (Nat.le_refl _) hstart
  have hd : r.production.Derives c ts d := by rw [hr]; exact h
  obtain ⟨u, w, -, -, hstop⟩ := r.taken_of_derives hd
  have hpos : f.pos = d.stop := ht.pos_eq.trans (Nat.max_eq_right (by omega))
  have hdrop := (hg.append v).dropBytes?
  have hat : (Cursor.start (f.rest ++ v) d.stop).At (s ++ v) := by
    rw [← hpos]
    exact (hg.passes ht.passes).append v
  dsimp only at hdrop hle hge
  show trimTrailing (s ++ v) (lastStop c.pos ts) e = d.stop
  rw [trimTrailing, ← hlast, hdrop, Option.map_some, Option.getD_some, Cursor.start, ht.passes.rest,
    List.append_assoc, ht.trim_eq _ e (hpos ▸ hle), hpos]
  exact Cursor.trim_of_le_skipGap (c := .start (f.rest ++ v) d.stop) (hat.skipNoise ▸ hge)

/-- The place that the run has reached, pulled back, is the end of the last lexeme. -/
theorem Derives.stop_eq_trimTrailing {r : Rule} (hr : r.production = .spaced a)
    (h : Derives Cursor.skipGap a c ts d) (hc : c.At s) (hf : ∃ f, c.EndsAt s f) :
    trimTrailing s (lastStop c.pos ts) d.pos = d.stop := by
  obtain ⟨-, f, hd⟩ := h.endsAt .spaced hc hf
  have ha : r.isAtomic = false := by simp [Rule.isAtomic, hr]
  have hle : d.stop ≤ d.pos := by
    rw [← hd.stop, hd.stop_eq]
    exact hd.le
  have ht := h.trimmed hr hc hf []
  rw [List.append_nil] at ht
  exact ht ha d.pos hle hd.pos_le_skipNoise

theorem Tree.GrownFrom.trimmed {t : Tree}
    (h : t.GrownFrom fun c => c.At s ∧ ∃ f, c.EndsAt s f) (v : Text) : t.Trimmed (s ++ v) := by
  obtain ⟨c, d, ⟨hc, hf⟩, -, hd, hspan⟩ := h
  cases hr : t.rule.production with
  | lexeme p | compact a =>
    intro ha
    simp [Rule.isAtomic, hr] at ha
  | spaced a =>
    rw [hr] at hd
    have ht := hd.trimmed hr hc hf v
    rwa [← hspan] at ht

/-- **Trimming finds the end of every node** between whose parts noise may stand: pulled back over
the noise of the whole text from the place that the run reached, which is at most the end of the
noise behind the node, but not behind the end of its last child. -/
theorem trimmed_of_parseRange {range : Span} {r : Rule} {o : Options} {t : Tree}
    (h : parseRange s range r o = .ok t) : ∀ n ∈ t.nodes, n.Trimmed s := by
  obtain ⟨w, d, ts, hw, -, rfl, hd⟩ := derives_of_parseRange h
  obtain ⟨u, v, rfl, hu, -⟩ := Text.eq_append_of_slice? hw
  have hat : (Cursor.start w range.start).At (u ++ w) := ⟨u, rfl, hu.symm⟩
  have hcall : Derives id (.call r) (.start w range.start) [⟨r, ⟨range.start, d.stop⟩, ts⟩] d :=
    derives_call_iff.mpr ⟨ts, rfl, hd⟩
  have hgrown := (hcall.grownFrom (Cursor.invariant_endsAt (u ++ w)) (fun _ _ _ => trivial) .compact
    (fun _ _ => trivial) ⟨hat, _, hat, rfl, Nat.le_refl _, rfl⟩).2
  exact fun n hn => (hgrown _ (List.mem_singleton_self _) n hn).trimmed v

theorem trimmed_of_parse {r : Rule} {o : Options} {t : Tree} (h : parse s r o = .ok t) :
    ∀ n ∈ t.nodes, n.Trimmed s := trimmed_of_parseRange h

end FreeForm
