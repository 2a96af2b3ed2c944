import FreeForm.Proofs.Assembly
import FreeForm.Proofs.Tiled

/-!
# Where tokens end

The tokens of a tree are its nodes without children and the literals of the rules between whose
parts noise may stand.  A literal leaves no node, so its end is found from the ends in front of it
(`Tree.EndsToken`).  This gives the end of every lexeme that such a node is put together from
(`Tree.AssembledFrom.endsToken`), and up to each of these ends the text is tiled
(`Text.tiledTo_of_endsToken`).
-/

namespace FreeForm

/-- The offsets that the parts of a node lead to: its start, the end of a child, and the end of a
literal of its rule that stands behind one of these offsets and the noise there. -/
inductive Tree.LeadsTo (s : Text) (t : Tree) : Nat → Prop
  | start : LeadsTo s t t.span.start
  | child {u : Tree} (hu : u ∈ t.children) : LeadsTo s t u.span.stop
  | literal {m n : Nat} {w : Text} (hm : LeadsTo s t m) (hw : .lit w ∈ t.rule.production.lexemes)
    (hs : s.slice? (skipNoise s m) n = some w) : LeadsTo s t n

/-- A token of the tree ends at the offset `n`: a node without children, or a literal of a node
between whose parts noise may stand. -/
def Tree.EndsToken (s : Text) (t : Tree) (n : Nat) : Prop :=
  ∃ u ∈ t.nodes, (u.children = [] ∧ n = u.span.stop) ∨
    (u.rule.isAtomic = false ∧ ∃ m w, u.LeadsTo s m ∧ .lit w ∈ u.rule.production.lexemes ∧
      s.slice? (skipNoise s m) n = some w)

/-! ## The lexemes of a node -/

/-- A lexeme in an instance of a phrase is a word of one of its patterns. -/
theorem Phrase.exists_pattern_of_items {a : Phrase} {l : List Item} (hl : l ∈ a.items) {w : Text}
    {x : Span} (hw : .lexeme w x ∈ l) : ∃ p ∈ a.lexemes, w ∈ p.language := by
  induction a generalizing l with
  | token p =>
    obtain ⟨v, hv, y, rfl⟩ := hl
    obtain ⟨rfl, -⟩ := Item.lexeme.inj (List.mem_singleton.mp hw)
    exact ⟨p, List.mem_singleton_self p, hv⟩
  | call r =>
    obtain ⟨t, -, rfl⟩ := hl
    simp at hw
  | seq a b iha ihb =>
    obtain ⟨k, hk, m, hm, rfl⟩ := Language.mem_mul.mp hl
    rcases List.mem_append.mp hw with hw | hw
    · obtain ⟨p, hp, hl⟩ := iha hk hw
      exact ⟨p, List.mem_append_left _ hp, hl⟩
    · obtain ⟨p, hp, hl⟩ := ihb hm hw
      exact ⟨p, List.mem_append_right _ hp, hl⟩
  | alt a b iha ihb =>
    rcases hl with hl | hl
    · obtain ⟨p, hp, hl⟩ := iha hl hw
      exact ⟨p, List.mem_append_left _ hp, hl⟩
    · obtain ⟨p, hp, hl⟩ := ihb hl hw
      exact ⟨p, List.mem_append_right _ hp, hl⟩
  | opt a ih =>
    rcases hl with rfl | hl
    · simp at hw
    · exact ih hl hw
  | many a ih =>
    obtain ⟨k, rfl, hk⟩ := Language.mem_kstar.mp hl
    obtain ⟨m, hm, hw⟩ := List.mem_flatten.mp hw
    exact ih (hk m hm) hw

theorem Production.exists_pattern_of_items {q : Production} {l : List Item} (hl : l ∈ q.items)
    {w : Text} {x : Span} (hw : .lexeme w x ∈ l) : ∃ p ∈ q.lexemes, w ∈ p.language := by
  cases q with
  | lexeme p => exact Phrase.exists_pattern_of_items (a := .token p) hl hw
  | compact a | spaced a => exact Phrase.exists_pattern_of_items hl hw

/-- Whether a pattern is a literal. -/
def Pattern.isLit : Pattern → Bool
  | lit _ => true
  | _ => false

/-- A rule between whose parts noise may stand is one lexeme, or its lexemes are literals. -/
theorem Rule.lexeme_or_literals {r : Rule} (hr : r.isAtomic = false) :
    (∃ p, r.production = .spaced (.token p)) ∨ ∀ p ∈ r.production.lexemes, p.isLit := by
  cases r
  all_goals
    first
    | exact absurd hr (by decide)
    | exact .inl ⟨_, rfl⟩
    | exact .inr (by decide)

/-- No noise is skipped in front of a literal of the grammar. -/
theorem skipNoise_eq_self {s w : Text} {n m : Nat} (hw : (Pattern.lit w).isToken)
    (h : s.slice? n m = some w) : skipNoise s n = n := by
  obtain ⟨u, v, rfl, rfl, -⟩ := Text.eq_append_of_slice? h
  obtain ⟨⟨hclear, -⟩, -⟩ := Pattern.isToken_iff.mp hw
  have hself : ((Pattern.lit w).split? (w ++ v)).isSome := by
    rw [Pattern.split?_lit_self]
    rfl
  have hhead := Cursor.head_of_isClear (c := .start (w ++ v) 0) hclear hself
  have hnoise : Pattern.noise.split? (w ++ v) = some ([], w ++ v) :=
    Pattern.split?_noise_of_notMem hhead
  rw [List.append_assoc, skipNoise, Text.dropBytes?_size_append, Option.bind_some, Pattern.width?,
    hnoise]
  rfl

/-- From an offset that the parts of a node lead to, the items that follow it lead on. -/
theorem Tree.LeadsTo.exists_of_isChain {s w : Text} {t : Tree} {l : List Item} {x : Span} {m : Nat}
    (hm : t.LeadsTo s m)
    (hhead : ∀ v y, l.head? = some (.lexeme v y) → y.start = skipNoise s m)
    (hl : l.IsChain fun i j => j.span.start = skipNoise s i.span.stop)
    (hlit : ∀ v y, .lexeme v y ∈ l → .lit v ∈ t.rule.production.lexemes)
    (hchild : ∀ u, .child u ∈ l → u ∈ t.children) (htext : ∀ i ∈ l, i.IsTextOf s)
    (hw : .lexeme w x ∈ l) :
    ∃ n, t.LeadsTo s n ∧ s.slice? (skipNoise s n) x.stop = some w := by
  induction l generalizing m with
  | nil => simp at hw
  | cons i l ih =>
    -- the first item leads to its end
    have hstop : t.LeadsTo s i.span.stop := by
      cases i with
      | child u => exact .child (hchild u List.mem_cons_self)
      | lexeme v y =>
        refine .literal hm (hlit v y List.mem_cons_self) ?_
        rw [← hhead v y rfl]
        exact htext _ List.mem_cons_self
    rcases List.mem_cons.mp hw with rfl | hw
    · refine ⟨m, hm, ?_⟩
      rw [← hhead w x rfl]
      exact htext _ List.mem_cons_self
    · refine ih hstop (fun v y hy => ?_) hl.of_cons (fun v y hy => hlit v y (.tail i hy))
        (fun u hu => hchild u (.tail i hu)) (fun j hj => htext j (.tail i hj)) hw
      cases l with
      | nil => simp at hy
      | cons j l =>
        obtain rfl : j = .lexeme v y := Option.some.inj hy
        exact (List.isChain_cons_cons.mp hl).1

/-- **The lexemes of a node end tokens**, if noise may stand between its parts. -/
theorem Tree.AssembledFrom.endsToken {s w : Text} {t : Tree} {l : List Item} {x : Span}
    (h : t.AssembledFrom s l) (ht : t.rule.isAtomic = false) (hw : .lexeme w x ∈ l) :
    t.EndsToken s x.stop := by
  refine ⟨t, t.self_mem_nodes, ?_⟩
  rcases Rule.lexeme_or_literals ht with ⟨p, hp⟩ | hlits
  · -- the node is this lexeme
    left
    have hl := h.instance_of_rule
    rw [hp] at hl
    obtain ⟨v, -, y, rfl⟩ := hl
    obtain ⟨-, rfl⟩ := Item.lexeme.inj (List.mem_singleton.mp hw)
    exact ⟨h.children, Option.some.inj h.last⟩
  · have hitems : ∀ v y, .lexeme v y ∈ l → .lit v ∈ t.rule.production.lexemes := by
      intro v y hy
      obtain ⟨p, hp, hv⟩ := Production.exists_pattern_of_items h.instance_of_rule hy
      have hlit := hlits p hp
      cases p with
      | lit u =>
        obtain rfl : v = u := hv
        exact hp
      | _ => simp [Pattern.isLit] at hlit
    have hstart : ∀ v y, l.head? = some (.lexeme v y) → y.start = skipNoise s t.span.start := by
      intro v y hy
      have hmem : Item.lexeme v y ∈ l := List.mem_of_head? hy
      have hfirst := h.first
      rw [hy, Option.map_some, Option.some.injEq] at hfirst
      rw [← hfirst]
      exact (skipNoise_eq_self (Rule.isToken_of_mem_lexemes (hitems v y hmem))
        (h.lexemes _ hmem)).symm
    have hspacing : l.IsChain fun i j => j.span.start = skipNoise s i.span.stop := by
      have := h.spacing
      rw [ht] at this
      exact this
    obtain ⟨n, hn, hslice⟩ := Tree.LeadsTo.start.exists_of_isChain hstart hspacing hitems
      (fun u hu => by rw [h.children]; exact List.mem_filterMap.mpr ⟨_, hu, rfl⟩) h.lexemes hw
    exact .inr ⟨ht, n, w, hn, hitems w x hw, hslice⟩

/-! ## Tiled up to the end of a token -/

/-- What stands at a place of a text. -/
theorem Cursor.At.exists_passes {s w : Text} {c : Cursor} {n : Nat} (hc : c.At s)
    (h : s.slice? c.pos n = some w) : ∃ z, c.Passes w ⟨z, n, n⟩ := by
  obtain ⟨u, z, hs, hu, hn⟩ := Text.eq_append_of_slice? h
  have hdrop := hc.dropBytes?
  rw [hs, List.append_assoc, ← hu, Text.dropBytes?_size_append, Option.some.injEq] at hdrop
  exact ⟨z, hdrop.symm, hn.symm⟩

/-- The text up to the end of a literal is tiled, if it is tiled in front of the noise there. -/
theorem Text.TiledTo.literal {s w : Text} {m n : Nat} (h : s.TiledTo m)
    (hw : (Pattern.lit w).isToken) (hs : s.slice? (skipNoise s m) n = some w) : s.TiledTo n := by
  obtain ⟨u, y, rfl, rfl, ht⟩ := h
  have hat : (Cursor.start y (Text.size u)).At (u ++ y) := ⟨u, rfl, rfl⟩
  have hnoise : skipNoise (u ++ y) (Text.size u) = (Cursor.start y (Text.size u)).skipGap.pos :=
    hat.skipNoise
  obtain ⟨x, -, hx, -⟩ := (Cursor.start y (Text.size u)).passes_skipGap
  rw [hnoise] at hs
  obtain ⟨z, hz⟩ := (hat.passes hx).exists_passes hs
  have htoken : (Cursor.start y (Text.size u)).skipGap.token? (.lit w) = some ⟨z, n, n⟩ := by
    rw [Cursor.token?, hz.rest, Pattern.split?_lit_self, Option.map_some, ← hz.pos]
  have htiled : (Cursor.start y (Text.size u)).skipGap.Tiled (u ++ y) :=
    (Cursor.invariant_tiled (u ++ y)).gap
      ⟨⟨hat, _, hat, rfl, Nat.le_refl _, rfl⟩, u, y, rfl, rfl, ht⟩
  exact ((Cursor.invariant_tiled (u ++ y)).token hw htiled htoken).2

/-- **The text up to the end of a token is tiled.** -/
theorem Text.tiledTo_of_endsToken {s : Text} {r : Rule} {o : Options} {t : Tree} {n : Nat}
    (h : parse s r o = .ok t) (hn : t.EndsToken s n) : s.TiledTo n := by
  have hgrown := grownFrom_of_parse h
  have hstop : ∀ u ∈ t.nodes, s.TiledTo u.span.stop := by
    intro u hu
    obtain ⟨c, d, -, hd, -, hspan⟩ := hgrown u hu
    rw [hspan]
    exact hd.2
  have hleads : ∀ u ∈ t.nodes, ∀ m, u.LeadsTo s m →
      ∃ k, s.TiledTo k ∧ skipNoise s k = skipNoise s m := by
    intro u hu m hm
    induction hm with
    | start =>
      obtain ⟨c, d, ⟨⟨hc, f, hf⟩, ht⟩, -, -, hspan⟩ := hgrown u hu
      refine ⟨c.stop, ht, ?_⟩
      rw [hspan, ← hf.stop, hf.stop_eq, hf.place.skipNoise, hc.skipNoise, hf.gap]
    | child hv => exact ⟨_, hstop _ (Tree.mem_nodes_trans hu (Tree.mem_nodes_of_child hv)), rfl⟩
    | literal _ hw hs ih =>
      obtain ⟨k, hk, hnoise⟩ := ih
      exact ⟨_, hk.literal (Rule.isToken_of_mem_lexemes hw) (hnoise ▸ hs), rfl⟩
  obtain ⟨u, hu, ⟨-, rfl⟩ | ⟨-, m, w, hm, hw, hs⟩⟩ := hn
  · exact hstop u hu
  · obtain ⟨k, hk, hnoise⟩ := hleads u hu m hm
    exact hk.literal (Rule.isToken_of_mem_lexemes hw) (hnoise ▸ hs)

end FreeForm
