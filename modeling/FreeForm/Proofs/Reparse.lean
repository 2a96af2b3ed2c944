import FreeForm.Proofs.CallOrIndex
import FreeForm.Proofs.NestingScan
import FreeForm.Proofs.OtherRest
import FreeForm.Proofs.SpanOrder

/-!
# Parsing the matched text again

A parse matches a part of the text.  If what stands behind this part is cut off, or exchanged for a
text that begins with a line break, the same rule matches the same part again, with the same tree
(`parse_cut`).

A run on the other text tries alternatives that may look behind the matched part, so it cannot be
compared step by step with the run on the first text.  Its derivation can: it passes the same
lexemes and the same noise (`Derives.recut`).  At its end the line ends, and there a run finds
what a derivation leaves (`Rule.found_of_derives`).  It remains that no array access of the tree is
a call, which is shown in the first text (`Tree.settled_of_readIn`).
-/

namespace FreeForm

namespace Cursor

variable {c c' d d' : Cursor} {u v : Text} {e : Nat} {skip : Cursor → Cursor} {p : Pattern}

theorem skipGap_skip (hs : Spacing skip) (c : Cursor) : (skip c).skipGap = c.skipGap := by
  cases hs with
  | compact => rfl
  | spaced => exact c.skipGap_skipGap

/-- The last lexeme ends at `e`, or another lexeme is still to come before `e`. -/
def Pending (e : Nat) (c : Cursor) : Prop :=
  c.stop = e ∨ c.skipGap.pos < e ∧ ∀ x ∈ c.skipGap.rest.head?, x ∉ Pattern.noiseMarks

theorem Pending.of_skip (hs : Spacing skip) (h : (skip c).Pending e) : c.Pending e := by
  rw [Pending, skipGap_skip hs, stop_skip hs] at h
  exact h

end Cursor

/-- Of two parts with a gap between them, neither ends behind the place that it leads to, and the
first ends before the second. -/
theorem Derives.stops_in_turn {skip : Cursor → Cursor} {a b : Phrase} {c d e : Cursor}
    {ts us : List Tree} (h : Derives skip a c ts d) (k : Derives skip b (skip d) us e)
    (hs : Spacing skip) (ha : ∀ p ∈ a.lexemes, p.isClear) (hb : ∀ p ∈ b.lexemes, p.isClear)
    (hc : c.stop ≤ c.pos) :
    d.stop ≤ d.pos ∧ (skip d).stop ≤ (skip d).pos ∧ d.stop ≤ e.stop := by
  have hm := h.moves hs fun p hp => Pattern.consumes_of_isClear (ha p hp)
  have hd := (hm.trans (Cursor.moves_skip hs d)).stop_le_pos hc
  have hk := (k.moves hs fun p hp => Pattern.consumes_of_isClear (hb p hp)).stop_le_stop hd
  rw [Cursor.stop_skip hs] at hk
  exact ⟨hm.stop_le_pos hc, hd, hk⟩

/-- A derivation passes noise at most, or there is a lexeme behind the noise where it begins. -/
theorem Derives.stays_or_takes {skip : Cursor → Cursor} {a : Phrase} {c d : Cursor}
    {ts : List Tree} (h : Derives skip a c ts d) (hs : Spacing skip)
    (ha : ∀ p ∈ a.lexemes, p.isClear) (hc : c.stop ≤ c.pos) :
    (d.stop = c.stop ∧ d.skipGap = c.skipGap) ∨
      (c.skipGap.pos < d.stop ∧ ∀ x ∈ c.skipGap.rest.head?, x ∉ Pattern.noiseMarks) := by
  have htoken : ∀ {p : Pattern} {c d : Cursor}, p.isClear → c.token? p = some d →
      c.skipGap.pos < d.stop ∧ ∀ x ∈ c.skipGap.rest.head?, x ∉ Pattern.noiseMarks := by
    intro p c d hp h
    obtain ⟨w, hw, hcd, hstop⟩ := Cursor.passes_of_token? h
    have hsome := Option.isSome_of_eq_some hw
    rw [Cursor.skipGap_of_token? hp h]
    have hne : w ≠ [] := Pattern.ne_nil_of_consumes (Pattern.consumes_of_isClear hp) hw
    have hsize := Text.size_pos hne
    have hpos := hcd.pos
    exact ⟨by omega, Cursor.head_of_isClear hp hsome⟩
  have htaken : ∀ {c d : Cursor}, c.Taken d → c.stop ≤ c.pos → d.stop ≠ c.stop := by
    intro c d hcd hc
    obtain ⟨u, v, hu, -, hstop⟩ := hcd
    have hsize := Text.size_pos hu
    omega
  induction h with
  | token h => exact .inr (htoken (ha _ (List.mem_singleton_self _)) h)
  | @lexeme _ r p c d hr h =>
    have hp : p ∈ r.production.lexemes := by rw [hr]; exact List.mem_singleton_self p
    exact .inr (htoken (Rule.cut_of_mem_lexemes hp).1 h)
  | @compact _ r a c d ts hr h ih | @spaced _ r a c d ts hr h ih =>
    have hd : r.production.Derives c ts d := by rw [hr]; exact h
    have hlex : ∀ p ∈ a.lexemes, p.isClear := fun p hp =>
      (Rule.cut_of_mem_lexemes (r := r) (by rw [hr]; exact hp)).1
    rcases ih (by constructor) hlex hc with ⟨hstop, -⟩ | ht
    · exact absurd hstop (htaken (Rule.taken_of_derives hd) hc)
    · exact .inr ht
  | @seq _ a b c d e ts us h k iha ihb =>
    have hla : ∀ p ∈ a.lexemes, p.isClear := fun p hp => ha p (List.mem_append_left _ hp)
    have hlb : ∀ p ∈ b.lexemes, p.isClear := fun p hp => ha p (List.mem_append_right _ hp)
    obtain ⟨-, hd, hk⟩ := h.stops_in_turn k hs hla hlb hc
    rcases iha hs hla hc with ⟨hstop, hgap⟩ | ⟨hpos, hhead⟩
    · have hb := ihb hs hlb hd
      rw [Cursor.skipGap_skip hs, Cursor.stop_skip hs, hstop, hgap] at hb
      exact hb
    · exact .inr ⟨by omega, hhead⟩
  | left _ ih => exact ih hs (fun p hp => ha p (List.mem_append_left _ hp)) hc
  | right _ ih => exact ih hs (fun p hp => ha p (List.mem_append_right _ hp)) hc
  | absent | never => exact .inl ⟨rfl, rfl⟩
  | present _ ih | once _ ih => exact ih hs ha hc
  | @again _ a c d e ts us h k ihm iha =>
    obtain ⟨-, hd, hk⟩ := h.stops_in_turn k hs ha ha hc
    rcases ihm hs ha hc with ⟨hstop, hgap⟩ | ⟨hpos, hhead⟩
    · have hb := iha hs ha hd
      rw [Cursor.skipGap_skip hs, Cursor.stop_skip hs, hstop, hgap] at hb
      exact hb
    · exact .inr ⟨by omega, hhead⟩

/-- What is pending at the end of a derivation was pending where it began. -/
theorem Derives.pending {skip : Cursor → Cursor} {a : Phrase} {c d : Cursor} {ts : List Tree}
    {e : Nat} (h : Derives skip a c ts d) (hs : Spacing skip) (ha : ∀ p ∈ a.lexemes, p.isClear)
    (hc : c.stop ≤ c.pos) (hle : d.stop ≤ e) (hd : d.Pending e) : c.Pending e := by
  rcases h.stays_or_takes hs ha hc with ⟨hstop, hgap⟩ | ⟨hpos, hhead⟩
  · rw [Cursor.Pending, hgap, hstop] at hd
    exact hd
  · exact .inr ⟨by omega, hhead⟩

/-! ## The derivation in the other text -/

theorem Pattern.notMem_noiseMarks {x : Char} (hx : x ∈ lineEnds) : x ∉ noiseMarks := by
  simp only [lineEnds, List.mem_cons, List.not_mem_nil, or_false] at hx
  rcases hx with rfl | rfl <;> decide

/-- The place `c` in a text of which the part from the offset `e` on is `u`, and the place `c'` in
the text with `v` in place of `u`: the same place, if it is not behind the offset, and otherwise the
offset itself. -/
inductive Cursor.Recut (u v : Text) (e : Nat) (c c' : Cursor) : Prop
  | within (x : Text) (hc : c.rest = x ++ u) (hx : c.pos + Text.size x = e)
    (h : c' = ⟨x ++ v, c.pos, c.stop⟩)
  | beyond (hc : e ≤ c.pos) (h : c' = ⟨v, e, c.stop⟩)

namespace Cursor

variable {c c' d d' : Cursor} {u v : Text} {e : Nat} {skip : Cursor → Cursor} {p : Pattern}

theorem Recut.stop_eq (h : c.Recut u v e c') : c'.stop = c.stop := by
  cases h with
  | within x hc hx h | beyond hc h => rw [h]

theorem skipGap_of_atLineEnd (hv : v.AtLineEnd) (n k : Nat) : skipGap ⟨v, n, k⟩ = ⟨v, n, k⟩ := by
  have hno : Pattern.noise.split? v = some ([], v) :=
    Pattern.split?_noise_of_notMem fun x hx => Pattern.notMem_noiseMarks (hv x hx)
  exact skipGap_of_noise (c := ⟨v, n, k⟩) hno

/-- The same noise is passed, up to the offset. -/
theorem Recut.skipGap (hv : v.AtLineEnd) (h : c.Recut u v e c') (hc : c.stop ≤ c.pos)
    (hp : c.Pending e) : c.skipGap.Recut u v e c'.skipGap := by
  obtain ⟨⟨g, z⟩, hg⟩ : ∃ x, Pattern.noise.split? c.rest = some x := ⟨_, rfl⟩
  have hgap := skipGap_of_noise hg
  cases h with
  | beyond hpos h =>
    rw [h, skipGap_of_atLineEnd hv, hgap]
    exact .beyond (Nat.le_trans hpos (Nat.le_add_right ..)) rfl
  | within x hx hsize h =>
    rcases hp with hstop | ⟨hpos, hhead⟩
    · -- the last lexeme ends at the offset, and so does the place
      have hnil : x = [] := Text.eq_nil_of_size (by omega)
      rw [h, hnil, List.nil_append, skipGap_of_atLineEnd hv, hgap]
      rw [hnil] at hsize
      exact .beyond (by simp only; omega) (by simp only; rw [show c.pos = e from hsize])
    · rw [hgap] at hpos hhead ⊢
      have happ : g ++ z = x ++ u := (Pattern.split?_eq_append hg).symm.trans hx
      obtain ⟨y, rfl, rfl⟩ := Text.exists_append_of_size_le happ (by simp only at hpos; omega)
      have hne : y ≠ [] := by
        rintro rfl
        rw [List.append_nil] at hsize
        simp only at hpos
        omega
      have hhead' : (y ++ v).head? = (y ++ u).head? := Pattern.head?_append_congr (.inl hne)
      have hnoise : Pattern.noise.split? (g ++ (y ++ v)) = some (g, y ++ v) :=
        Pattern.split?_noise_append hg (.inl hhead') (by rw [hhead']; exact hhead)
      have hgap' : c'.skipGap = ⟨y ++ v, c.pos + Text.size g, c.stop⟩ := by
        rw [h, List.append_assoc]
        exact skipGap_of_noise (c := ⟨g ++ (y ++ v), c.pos, c.stop⟩) hnoise
      rw [Text.size_append, ← Nat.add_assoc] at hsize
      exact .within y rfl hsize hgap'

/-- The same lexeme is passed, if it ends before the offset or there. -/
theorem Recut.token? (hv : v.AtLineEnd) (hp : p.isClear ∧ p.peeks ∧ p.halts)
    (h : c.Recut u v e c') (ht : c.token? p = some d) (hd : d.stop ≤ e) :
    ∃ d', c'.token? p = some d' ∧ d.Recut u v e d' := by
  obtain ⟨w, hw, hcd, hstop⟩ := passes_of_token? ht
  have hpos := hcd.pos
  cases h with
  | beyond hbeyond h =>
    have hne : w ≠ [] := Pattern.ne_nil_of_consumes (Pattern.consumes_of_isClear hp.1) hw
    have hsize := Text.size_pos hne
    omega
  | within x hx hsize h =>
    have happ : w ++ d.rest = x ++ u := hcd.rest.symm.trans hx
    obtain ⟨y, rfl, hrest⟩ := Text.exists_append_of_size_le happ (by omega)
    have hy : (y ++ v).Replaces p.halts d.rest := by
      rw [hrest]
      cases y with
      | nil => exact .inr ⟨hp.2.2, hv⟩
      | cons x y => exact .inl rfl
    have hw' := Pattern.split?_append_of_peeks hp.2.1 hw hy
    rw [Text.size_append, ← Nat.add_assoc, ← hpos] at hsize
    refine ⟨⟨y ++ v, d.pos, d.stop⟩, ?_, .within y hrest hsize rfl⟩
    rw [h, Cursor.token?, List.append_assoc, hw', Option.map_some, hstop, hpos]

theorem Recut.gap (hs : Spacing skip) (hv : v.AtLineEnd) (h : c.Recut u v e c')
    (hc : c.stop ≤ c.pos) (hp : c.Pending e) : (skip c).Recut u v e (skip c') := by
  cases hs with
  | compact => exact h
  | spaced => exact h.skipGap hv hc hp

/-- Where a lexeme is passed before the offset, both places are the same. -/
theorem Recut.pos_eq (h : c.Recut u v e c') (hcd : c.Taken d) (hd : d.stop ≤ e) :
    c'.pos = c.pos := by
  cases h with
  | within x hc hx h => rw [h]
  | beyond hpos h =>
    obtain ⟨w, z, hw, -, hstop⟩ := hcd
    have hsize := Text.size_pos hw
    omega

end Cursor

/-- **A derivation passes the same lexemes in the other text**, as long as they end before the
offset, and leaves the same trees. -/
theorem Derives.recut {skip : Cursor → Cursor} {a : Phrase} {c c' d : Cursor} {ts : List Tree}
    {u v : Text} {e : Nat} (hv : v.AtLineEnd) (h : Derives skip a c ts d) (hs : Spacing skip)
    (ha : ∀ p ∈ a.lexemes, p.isClear ∧ p.peeks ∧ p.halts) (hc : c.stop ≤ c.pos)
    (hcut : c.Recut u v e c') (hle : d.stop ≤ e) (hd : d.Pending e) :
    ∃ d', Derives skip a c' ts d' ∧ d.Recut u v e d' := by
  induction h generalizing c' with
  | token h =>
    obtain ⟨d', ht, hd'⟩ := hcut.token? hv (ha _ (List.mem_singleton_self _)) h hle
    exact ⟨d', .token ht, hd'⟩
  | @lexeme skip r p c d hr h =>
    have hp : p ∈ r.production.lexemes := by rw [hr]; exact List.mem_singleton_self p
    have hprod : r.production.Derives c [] d := by rw [hr]; exact ⟨rfl, h⟩
    obtain ⟨d', ht, hd'⟩ := hcut.token? hv (Rule.cut_of_mem_lexemes hp) h hle
    rw [← hcut.pos_eq (Rule.taken_of_derives hprod) hle, ← hd'.stop_eq]
    exact ⟨d', .lexeme hr ht, hd'⟩
  | @compact skip r a c d ts hr h ih =>
    have hprod : r.production.Derives c ts d := by rw [hr]; exact h
    have hlex : ∀ p ∈ a.lexemes, p.isClear ∧ p.peeks ∧ p.halts := fun p hp =>
      Rule.cut_of_mem_lexemes (r := r) (by rw [hr]; exact hp)
    obtain ⟨d', ht, hd'⟩ := ih .compact hlex hc hcut hle hd
    rw [← hcut.pos_eq (Rule.taken_of_derives hprod) hle, ← hd'.stop_eq]
    exact ⟨d', .compact hr ht, hd'⟩
  | @spaced skip r a c d ts hr h ih =>
    have hprod : r.production.Derives c ts d := by rw [hr]; exact h
    have hlex : ∀ p ∈ a.lexemes, p.isClear ∧ p.peeks ∧ p.halts := fun p hp =>
      Rule.cut_of_mem_lexemes (r := r) (by rw [hr]; exact hp)
    obtain ⟨d', ht, hd'⟩ := ih .spaced hlex hc hcut hle hd
    rw [← hcut.pos_eq (Rule.taken_of_derives hprod) hle, ← hd'.stop_eq]
    exact ⟨d', .spaced hr ht, hd'⟩
  | @seq skip a b c d f ts us h k iha ihb =>
    have hla := fun p hp => ha p (List.mem_append_left b.lexemes hp)
    have hlb := fun p hp => ha p (List.mem_append_right a.lexemes hp)
    obtain ⟨hpos, hskip, hstop⟩ :=
      h.stops_in_turn k hs (fun p hp => (hla p hp).1) (fun p hp => (hlb p hp).1) hc
    have hpend := (k.pending hs (fun p hp => (hlb p hp).1) hskip hle hd).of_skip hs
    obtain ⟨d', hd', hcut'⟩ := iha hs hla hc hcut (Nat.le_trans hstop hle) hpend
    obtain ⟨f', hf', hcut''⟩ := ihb hs hlb hskip (hcut'.gap hs hv hpos hpend) hle hd
    exact ⟨f', .seq hd' hf', hcut''⟩
  | left _ ih =>
    obtain ⟨d', hd', hcut'⟩ := ih hs (fun p hp => ha p (List.mem_append_left _ hp)) hc hcut hle hd
    exact ⟨d', .left hd', hcut'⟩
  | right _ ih =>
    obtain ⟨d', hd', hcut'⟩ := ih hs (fun p hp => ha p (List.mem_append_right _ hp)) hc hcut hle hd
    exact ⟨d', .right hd', hcut'⟩
  | absent => exact ⟨c', .absent, hcut⟩
  | present _ ih =>
    obtain ⟨d', hd', hcut'⟩ := ih hs ha hc hcut hle hd
    exact ⟨d', .present hd', hcut'⟩
  | never => exact ⟨c', .never, hcut⟩
  | once _ ih =>
    obtain ⟨d', hd', hcut'⟩ := ih hs ha hc hcut hle hd
    exact ⟨d', .once hd', hcut'⟩
  | @again skip a c d f ts us h k ihm iha =>
    have hclear := fun p hp => (ha p hp).1
    obtain ⟨hpos, hskip, hstop⟩ := h.stops_in_turn k hs hclear hclear hc
    have hpend := (k.pending hs hclear hskip hle hd).of_skip hs
    obtain ⟨d', hd', hcut'⟩ := ihm hs ha hc hcut (Nat.le_trans hstop hle) hpend
    obtain ⟨f', hf', hcut''⟩ := iha hs ha hskip (hcut'.gap hs hv hpos hpend) hle hd
    exact ⟨f', .again hd' hf', hcut''⟩

/-! ## No array access of a tree is a call -/

namespace Rule

open Phrase

variable {r : Rule} {c d : Cursor} {ts : List Tree}

theorem root_of_found (h : (r.read c).found = some (ts, d)) :
    ∀ t ∈ ts, t.rule = r ∧ t.span.start = c.pos := by
  obtain ⟨us, rfl, -⟩ := found_production_of_found h
  exact List.forall_mem_singleton.mpr ⟨rfl, rfl⟩

theorem pos_lt_of_found (h : (r.read c).found = some (ts, d)) : c.pos < d.skipGap.pos := by
  obtain ⟨us, -, hd⟩ := derives_of_read h
  obtain ⟨u, v, hu, hcd, -⟩ := taken_of_derives hd
  obtain ⟨w, -, hgap, -⟩ := d.passes_skipGap
  have hsize := Text.size_pos hu
  rw [hgap.pos, hcd.pos, Text.size_append]
  omega

/-- An array access that a run finds where no call is found has a region, if it stands at the start
of the variable. -/
theorem operand_of_found (h : (accessedVariable.read c).found = some (ts, d))
    (hcall : (functionCall.read c).found = none) : ∀ v ∈ ts, v.Operand Tree.HasRegion := by
  obtain ⟨us, rfl, hacc⟩ := found_production_of_found h
  simp only [List.mem_singleton, forall_eq]
  intro _ x hx hr hstart
  rcases found_seq_opt hacc with ⟨ss, y, vs, hsign, hvar, rfl⟩ | ⟨-, hvar⟩
  · obtain ⟨q, hq, hq'⟩ := exists_of_found_anyOf hvar
    rcases List.mem_append.mp hx with hx | hx
    · exact absurd ((root_of_found hsign x hx).1.symm.trans hr) (by decide)
    · -- behind a sign, the array access does not stand at the start
      have hlt := pos_lt_of_found hsign
      have hpos := (root_of_found hq' x hx).2
      simp only at hstart
      omega
  · obtain ⟨q, hq, hq'⟩ := exists_of_found_anyOf hvar
    obtain ⟨hrule, hpos⟩ := root_of_found hq' x hx
    obtain rfl : q = indexedArray := hrule.symm.trans hr
    obtain ⟨w, -, hgap, -⟩ := c.passes_skipGap
    have hw : w = [] := by
      refine Text.eq_nil_of_size ?_
      have := hgap.pos
      simp only at hstart
      omega
    have hclean : c.skipGap = c := by
      refine Cursor.skipGap_eq_self ?_
      have := hgap.rest
      rw [hw] at this
      exact this.symm
    rw [hclean] at hq'
    obtain ⟨ws, rfl, -⟩ := found_production_of_found hq'
    obtain rfl := List.mem_singleton.mp hx
    refine Classical.byContradiction fun hno => ?_
    obtain ⟨_, hsome⟩ := found_functionCall_of_indices hq' hno
    rw [hcall] at hsome
    exact absurd hsome (by simp)

theorem operand_of_found_value (h : (valueReturningCode.read c).found = some (ts, d)) :
    ∀ n ∈ ts, ∀ v ∈ n.children, v.Operand Tree.HasRegion := by
  obtain ⟨us, rfl, hval⟩ := found_production_of_found h
  simp only [List.mem_singleton, forall_eq]
  have hother : ∀ {q : Rule}, (q.read c).found = some (us, d) → q ≠ accessedVariable →
      ∀ v ∈ us, v.Operand Tree.HasRegion := by
    intro q hq hne v hv hr
    exact absurd ((root_of_found hq v hv).1.symm.trans hr) hne
  have halt : ((functionCall.read c).orElse fun _ => (anyOf inPlaceArray
      [atomicValue, accessedVariable]).read Rule.read Cursor.skipGap c).found = some (us, d) := hval
  rw [Reading.found_orElse_eq, Option.or_eq_some_iff] at halt
  rcases halt with hcall | ⟨hcall, hrest⟩
  · exact hother hcall (by decide)
  · obtain ⟨q, -, hq'⟩ := exists_of_found_anyOf hrest
    by_cases hq : q = accessedVariable
    · subst hq
      exact operand_of_found hq' hcall
    · exact hother hq' hq

end Rule

/-- In a tree that was found by its rules, array accesses can be told from calls. -/
theorem Tree.settled_of_readIn {s : Text} {t : Tree} (h : t.ReadIn s) :
    t.Settled (Rule.Asks HasRegion) := by
  intro n hn v hv hr
  obtain ⟨c, d, -, -, hf⟩ := h.nodes n hn
  rw [hr] at hf
  exact Rule.operand_of_found_value hf n (List.mem_singleton_self n) v hv

/-! ## The parse of the other text -/

theorem nestingDepth_append_le (w u : Text) : nestingDepth w ≤ nestingDepth (w ++ u) := by
  unfold nestingDepth
  rw [List.foldl_append]
  exact Nesting.deepest_le_foldl _ u

/-- What is matched in a text is matched again, whatever stands behind the next line break. -/
theorem found_cut {w u v : Text} {r : Rule} {t : Tree} {d : Cursor} (hv : v.AtLineEnd)
    (h : (r.read (.start (w ++ u) 0)).found = some ([t], d)) (hsize : Text.size w = t.span.stop) :
    ∃ d', (r.read (.start (w ++ v) 0)).found = some ([t], d') := by
  obtain ⟨ts, hts, hd⟩ := Rule.derives_of_read h
  obtain rfl := List.head_eq_of_cons_eq hts
  have hat : (Cursor.start (w ++ u) 0).At (w ++ u) := ⟨[], rfl, rfl⟩
  have hread := Rule.readIn_of_found hat h _ (List.mem_singleton_self _)
  have hcall : Derives id (.call r) (.start (w ++ u) 0) _ d := derives_call_iff.mpr ⟨ts, rfl, hd⟩
  have hstop : d.stop = Text.size w := hsize.symm
  have hcut : (Cursor.start (w ++ u) 0).Recut u v (Text.size w) (.start (w ++ v) 0) :=
    .within w rfl (Nat.zero_add _) rfl
  obtain ⟨d', hcall', hcut'⟩ := hcall.recut hv .compact (by simp [Phrase.lexemes]) (Nat.le_refl 0)
    hcut (Nat.le_of_eq hstop) (.inl hstop)
  obtain ⟨us, hus, hd'⟩ := derives_call_iff.mp hcall'
  -- the derivation in the other text ends where its line ends
  have hend : d'.rest = v := by
    have hle := (hcall.moves .compact (by simp [Phrase.lexemes])).stop_le_pos (Nat.le_refl 0)
    cases hcut' with
    | beyond hpos h => rw [h]
    | within x hx hsize h =>
      have hnil : x = [] := Text.eq_nil_of_size (by omega)
      rw [h, hnil]
      rfl
  have hfollow : d'.Followed r.follow := by
    have hgap := Cursor.skipGap_of_atLineEnd (hend ▸ hv) d'.pos d'.stop
    exact .inl (by rw [hgap, hend]; exact hv)
  have hsettled := Tree.settled_of_readIn hread
  rw [List.head_eq_of_cons_eq hus] at hsettled
  have hf := Rule.found_of_derives tellsCalls_hasRegion hd' hsettled hfollow
  rw [← hus] at hf
  exact ⟨d', hf⟩

/-- **Parsing the matched text again gives the same tree**, whatever follows a line break.  The part
of the text that was matched is cut out, and a text that is empty or begins with a line break is put
behind it; if parentheses do not nest too deeply there, the same rule finds the same tree. -/
theorem parse_cut {s : Text} {r : Rule} {o : Options} {t : Tree} (h : parse s r o = .ok t) :
    ∃ w, s.slice? 0 t.span.stop = some w ∧ parse w r o = .ok t ∧
      ∀ v : Text, (∀ x ∈ v.head?, x = '\n' ∨ x = '\r') → ∀ p : Options,
        p.requireComplete = false → nestingDepth (w ++ v) ≤ p.maxNesting →
          parse (w ++ v) r p = .ok t := by
  obtain ⟨hn, d, hf, -⟩ := parse_eq_ok_iff.mp h
  obtain ⟨hstart, hspans⟩ := (wellSpanned_of_parse_or_locate s r o).1 t h
  have hslice := (hspans t t.self_mem_nodes).text_eq
  rw [hstart] at hslice
  obtain ⟨w₀, u, hs, hw₀, hsize⟩ := Text.eq_append_of_slice? hslice
  obtain rfl := Text.eq_nil_of_size hw₀
  rw [List.nil_append] at hs
  generalize t.text s = w at hslice hs hsize
  subst hs
  rw [Nat.zero_add] at hsize
  refine ⟨w, hslice, ?_, fun v hv p hp hnp => ?_⟩
  · obtain ⟨d', hd'⟩ := found_cut (v := []) (by simp [Text.AtLineEnd]) hf hsize
    rw [List.append_nil] at hd'
    have hle := nestingDepth_append_le w u
    have htrail := le_skipTrailing w t.span.stop
    exact parse_eq_ok_iff.mpr ⟨by omega, d', hd', fun _ => by omega⟩
  · have hend : v.AtLineEnd := fun x hx => by simpa [Pattern.lineEnds] using hv x hx
    obtain ⟨d', hd'⟩ := found_cut hend hf hsize
    exact parse_eq_ok_iff.mpr ⟨hnp, d', hd', by simp [hp]⟩

/-- Arguments that are not closed are not matched, and neither are the arguments on another line
that is put in their place. -/
theorem parse_cut_of_open_arguments :
    let s : Text := ['c', 'a', 'l', 'l', ' ', 'p', '(', 'a']
    let w : Text := ['c', 'a', 'l', 'l', ' ', 'p']
    let v : Text := ['\n', '(', 'a', ')']
    let t : Tree := ⟨.subroutineCall, ⟨0, 6⟩, [⟨.callKeyword, ⟨0, 4⟩, []⟩, ⟨.name, ⟨5, 6⟩, []⟩]⟩
    parse s .subroutineCall {} = .ok t ∧ parse w .subroutineCall {} = .ok t ∧
      parse (w ++ v) .subroutineCall { maxNesting := 1 } = .ok t := by
  intro s w v t
  have ht : parse s .subroutineCall {} = .ok t := by rfl
  obtain ⟨x, hx, hw, hv⟩ := parse_cut ht
  obtain rfl : x = w := Option.some.inj (hx.symm.trans (by decide))
  have hbreak : ∀ x ∈ v.head?, x = '\n' ∨ x = '\r' := fun x hx => .inl (Option.some.inj hx).symm
  exact ⟨ht, hw, hv v hbreak { maxNesting := 1 } rfl (by decide)⟩

end FreeForm
