import FreeForm.Proofs.Derivation

/-!
# The order of spans

Every node of a tree that a parse returns covers a part of the text that is not empty, between two
character boundaries.  Its children lie inside it, one after the other.

The end of a node is the end of its last lexeme, which a run keeps apart from the place it has
reached (`Cursor.stop` and `Cursor.pos`).  The end never overtakes the place, and neither of them
ever goes back, so that trees read one after the other are laid out in this order
(`Derives.laidOut`).
-/

namespace FreeForm

/-! ## Trees between two offsets -/

/-- The trees stand one after the other between the offsets `a` and `b`. -/
structure LaidOut (a : Nat) (ts : List Tree) (b : Nat) : Prop where
  within : ∀ t ∈ ts, a ≤ t.span.start ∧ t.span.stop ≤ b
  ordered : ts.Pairwise fun t u => t.span.stop ≤ u.span.start

namespace LaidOut

variable {a b i j : Nat} {ts us : List Tree}

theorem nil (a b : Nat) : LaidOut a [] b := ⟨by simp, .nil⟩

theorem singleton (r : Rule) (a b : Nat) (ts : List Tree) : LaidOut a [⟨r, ⟨a, b⟩, ts⟩] b :=
  ⟨by simp, by simp⟩

theorem append (ht : LaidOut a ts i) (hu : LaidOut j us b) (haj : a ≤ j) (hij : i ≤ j)
    (hib : i ≤ b) : LaidOut a (ts ++ us) b where
  within t h := by
    rcases List.mem_append.mp h with h | h
    · have := ht.within t h
      omega
    · have := hu.within t h
      omega
  ordered := by
    refine List.pairwise_append.mpr ⟨ht.ordered, hu.ordered, fun t h u k => ?_⟩
    have := ht.within t h
    have := hu.within u k
    omega

end LaidOut

namespace Cursor

variable {c d : Cursor}

theorem Moves.pos_le (h : c.Moves d) : c.pos ≤ d.pos := by
  rcases h with ⟨w, hw, -⟩ | ⟨u, v, -, hw, -⟩
  · rw [hw.pos]
    exact Nat.le_add_right ..
  · rw [hw.pos]
    exact Nat.le_add_right ..

theorem Moves.stop_le_stop (h : c.Moves d) (hc : c.stop ≤ c.pos) : c.stop ≤ d.stop := by
  rcases h with ⟨w, -, hs⟩ | ⟨u, v, -, -, hs⟩
  · exact Nat.le_of_eq hs.symm
  · omega

/-- The end of the last lexeme does not overtake the place reached. -/
theorem Moves.stop_le_pos (h : c.Moves d) (hc : c.stop ≤ c.pos) : d.stop ≤ d.pos := by
  rcases h with ⟨w, hw, hs⟩ | ⟨u, v, -, hw, hs⟩
  · rw [hs, hw.pos]
    omega
  · rw [hs, hw.pos, Text.size_append]
    omega

end Cursor

/-- Trees laid out on the way to `d` and trees laid out behind the gap that follows. -/
theorem LaidOut.step {c d e : Cursor} {ts us : List Tree} {skip : Cursor → Cursor}
    (ht : LaidOut c.pos ts d.stop) (hu : LaidOut (skip d).pos us e.stop) (hcd : c.Moves d)
    (hde : (skip d).Moves e) (hs : Spacing skip) (hc : c.stop ≤ c.pos) :
    LaidOut c.pos (ts ++ us) e.stop := by
  have hd := hcd.stop_le_pos hc
  have hg := Cursor.moves_skip hs d
  refine ht.append hu (Nat.le_trans hcd.pos_le hg.pos_le) (Nat.le_trans hd hg.pos_le) ?_
  exact Nat.le_trans (hg.stop_le_stop hd) (hde.stop_le_stop (hg.stop_le_pos hd))

/-- A derivation lays its trees out between its first place and the end of its last lexeme. -/
theorem Derives.laidOut {skip : Cursor → Cursor} {a : Phrase} {c d : Cursor} {ts : List Tree}
    (h : Derives skip a c ts d) (hs : Spacing skip) (hp : ∀ p ∈ a.lexemes, p.consumes)
    (hc : c.stop ≤ c.pos) : LaidOut c.pos ts d.stop := by
  induction h with
  | token | absent | never => exact .nil ..
  | lexeme | compact | spaced => exact .singleton ..
  | seq ha hb iha ihb =>
    simp only [Phrase.lexemes, List.mem_append] at hp
    have hpa := fun p h => hp p (.inl h)
    have hpb := fun p h => hp p (.inr h)
    have hm := ha.moves hs hpa
    have hg := (hm.trans (Cursor.moves_skip hs _)).stop_le_pos hc
    exact (iha hs hpa hc).step (ihb hs hpb hg) hm (hb.moves hs hpb) hs hc
  | left _ ih => exact ih hs (fun p h => hp p (List.mem_append_left _ h)) hc
  | right _ ih => exact ih hs (fun p h => hp p (List.mem_append_right _ h)) hc
  | present _ ih | once _ ih => exact ih hs hp hc
  | again hm ha ihm iha =>
    have hmd := hm.moves hs hp
    have hg := (hmd.trans (Cursor.moves_skip hs _)).stop_le_pos hc
    exact (ihm hs hp hc).step (iha hs hp hg) hmd (ha.moves hs hp) hs hc

theorem Rule.laidOut_of_derives {r : Rule} {c d : Cursor} {ts : List Tree}
    (h : r.production.Derives c ts d) (hc : c.stop ≤ c.pos) : LaidOut c.pos ts d.stop := by
  have hp : ∀ p ∈ r.production.lexemes, p.consumes := fun p => r.consumes_of_mem_lexemes
  cases hr : r.production with
  | lexeme p =>
    rw [hr] at h
    rw [h.1]
    exact .nil ..
  | compact a =>
    rw [hr] at h hp
    exact Derives.laidOut h .compact hp hc
  | spaced a =>
    rw [hr] at h hp
    exact Derives.laidOut h .spaced hp hc

/-! ## The spans of a tree -/

/-- The span of a node is sound: it covers some text between two character boundaries of `s`, and
the spans of the children lie inside it from left to right. -/
structure Tree.WellSpanned (s : Text) (t : Tree) : Prop where
  start_lt_stop : t.span.start < t.span.stop
  stop_le_size : t.span.stop ≤ Text.size s
  start_boundary : (s.dropBytes? t.span.start).isSome
  stop_boundary : (s.dropBytes? t.span.stop).isSome
  text_eq : s.slice? t.span.start t.span.stop = some (t.text s)
  contains : ∀ u ∈ t.children, t.span.contains u.span
  ordered : t.children.Pairwise fun u v => u.span.stop ≤ v.span.start

theorem Text.size_pos {s : Text} (h : s ≠ []) : 0 < Text.size s :=
  Nat.lt_of_lt_of_le (List.length_pos_iff.mpr h) (length_le_size s)

theorem Tree.GrownIn.wellSpanned {s : Text} {t : Tree} (h : t.GrownIn s) : t.WellSpanned s := by
  obtain ⟨c, d, hc, hd, hspan⟩ := h
  obtain ⟨w, -, hw, -, hslice⟩ := (Rule.taken_of_derives hd).slice? hc
  obtain ⟨u, v, rfl, hu, hstop⟩ := Text.eq_append_of_slice? hslice
  have hl := Rule.laidOut_of_derives hd hc.stop_le
  have hpos := Text.size_pos hw
  rw [← hu] at hstop
  refine ⟨?_, ?_, ?_, ?_, ?_, fun x hx => ?_, hl.ordered⟩ <;> simp only [hspan]
  · omega
  · simp only [Text.size_append]
    omega
  · rw [← hu, List.append_assoc, Text.dropBytes?_size_append]
    rfl
  · rw [← hstop, ← Text.size_append, Text.dropBytes?_size_append]
    rfl
  · simp only [Tree.text, Span.text, hspan, hslice, Option.getD_some]
  · simp only [Span.contains, Bool.and_eq_true, decide_eq_true_eq]
    exact hl.within x hx

/-- **Spans are sound** in every node of every tree that a parse or a search of a source returns,
and the tree of a parse starts with the text. -/
theorem wellSpanned_of_parse_or_locate (s : Text) (r : Rule) (o : Options) :
    (∀ t, parse s r o = .ok t → t.span.start = 0 ∧ ∀ n ∈ t.nodes, n.WellSpanned s) ∧
      ∀ t ∈ locate s r o, ∀ n ∈ t.nodes, n.WellSpanned s := by
  refine ⟨fun t h => ⟨?_, fun n hn => ?_⟩, fun t h n hn => ?_⟩
  · obtain ⟨d, ts, -, rfl, -⟩ := derives_of_parse h
    rfl
  · exact (grownIn_of_parse h n hn).wellSpanned
  · exact (grownIn_of_mem_locate h n hn).wellSpanned

/-- Noise inside and behind the parentheses of a call, on a line with a label. -/
theorem wellSpanned_of_labelled_call :
    let s : Text := ['1', ' ', 'c', 'a', 'l', 'l', ' ', 'p', ' ', '(', ' ', ')', ' ', '!']
    let t : Tree := ⟨.subroutineCall, ⟨2, 12⟩, [⟨.callKeyword, ⟨2, 6⟩, []⟩, ⟨.name, ⟨7, 8⟩, []⟩]⟩
    let u : Tree := ⟨.digits, ⟨0, 1⟩, []⟩
    parse s .digits {} = .ok u ∧ t ∈ locate s .subroutineCall {} ∧
      u.span.start = 0 ∧ u.WellSpanned s ∧ t.WellSpanned s := by
  intro s t u
  have hu : parse s .digits {} = .ok u := by rfl
  have ht : t ∈ locate s .subroutineCall {} := by decide +kernel
  obtain ⟨h, k⟩ := (wellSpanned_of_parse_or_locate s .digits {}).1 u hu
  exact ⟨hu, ht, h, k u u.self_mem_nodes,
    (wellSpanned_of_parse_or_locate s .subroutineCall {}).2 t ht t t.self_mem_nodes⟩

end FreeForm
