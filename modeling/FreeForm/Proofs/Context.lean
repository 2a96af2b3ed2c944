import FreeForm.Proofs.Trimming

/-!
# Rules in context and alone

A rule reads the same wherever it is called.  What it finds depends on the text in front of it and
on the offset there, and not on the lexemes passed before (`Rule.found_congr`), and every node of a
tree was found by its own rule at the place where it starts (`Tree.ReadIn`).  So a parse that begins
at a node, with the rule of the node, returns this node (`parseRange_node_of_parse`).
-/

namespace FreeForm

/-! ## What is found, form by form -/

namespace Reading

theorem found_orElse_eq (q : Reading) (other : Unit → Reading) :
    (q.orElse other).found = q.found.or (other ()).found := by
  unfold orElse
  cases h : q.found with
  | none => rfl
  | some x => exact h

theorem found_andThen_eq (q : Reading) (next : Cursor → Reading) :
    (q.andThen next).found =
      q.found.bind fun x => (next x.2).found.map fun y => (x.1 ++ y.1, y.2) := by
  unfold andThen
  cases h : q.found with
  | none => exact h
  | some x => rfl

theorem found_andThen_of_some {q : Reading} {next : Cursor → Reading} {ts us : List Tree}
    {d e : Cursor} (hq : q.found = some (ts, d)) (hn : (next d).found = some (us, e)) :
    (q.andThen next).found = some (ts ++ us, e) := by
  rw [found_andThen_eq, hq, Option.bind_some, hn, Option.map_some]

theorem found_andThen_of_none {q : Reading} (hq : q.found = none) (next : Cursor → Reading) :
    (q.andThen next).found = none := by
  rw [found_andThen_eq, hq, Option.bind_none]

theorem found_orElse_of_some {q : Reading} {x : List Tree × Cursor} (hq : q.found = some x)
    (other : Unit → Reading) : (q.orElse other).found = some x := by
  rw [found_orElse_eq, hq, Option.some_or]

theorem found_orElse_of_none {q : Reading} (hq : q.found = none) (other : Unit → Reading) :
    (q.orElse other).found = (other ()).found := by
  rw [found_orElse_eq, hq, Option.none_or]

end Reading

/-! ## Lexemes passed before make no difference -/

namespace Cursor

variable {c c' d d' e e' : Cursor} {a b : Bool}

/-- The same text at the same offset, whatever lexemes were passed before. -/
structure Alike (c d : Cursor) : Prop where
  rest : c.rest = d.rest
  pos : c.pos = d.pos

theorem Alike.symm (h : c.Alike d) : d.Alike c := ⟨h.rest.symm, h.pos.symm⟩

theorem Alike.token? (h : c.Alike d) (p : Pattern) : c.token? p = d.token? p := by
  rw [Cursor.token?, Cursor.token?, h.rest, h.pos]

theorem Alike.skip {skip : Cursor → Cursor} (h : c.Alike d) (hs : Spacing skip) :
    (skip c).Alike (skip d) := by
  cases hs with
  | compact => exact h
  | spaced =>
    obtain ⟨⟨w, r⟩, hw⟩ : ∃ x, Pattern.noise.split? d.rest = some x := ⟨_, rfl⟩
    rw [skipGap_of_noise hw, skipGap_of_noise (h.rest ▸ hw), h.pos]
    exact ⟨rfl, rfl⟩

theorem stop_skip {skip : Cursor → Cursor} (hs : Spacing skip) (c : Cursor) :
    (skip c).stop = c.stop := by
  obtain ⟨-, -, h⟩ := idle_skip hs c
  exact h

/-- From the alike places `c` and `c'` the alike places `d` and `d'` are reached.  A lexeme was
passed if `taken` says so, and then its end is the same. -/
structure Keeps (c c' : Cursor) (taken : Bool) (d d' : Cursor) : Prop where
  alike : d.Alike d'
  stop : d.stop = d'.stop ∨ taken = false ∧ d.stop = c.stop ∧ d'.stop = c'.stop

theorem Keeps.refl (h : c.Alike c') : c.Keeps c' false c c' := ⟨h, .inr ⟨rfl, rfl, rfl⟩⟩

theorem Keeps.same (c c' : Cursor) (taken : Bool) (d : Cursor) : c.Keeps c' taken d d :=
  ⟨⟨rfl, rfl⟩, .inl rfl⟩

theorem Keeps.mono (h : c.Keeps c' a d d') (hab : b → a) : c.Keeps c' b d d' := by
  refine ⟨h.alike, h.stop.imp_right fun k => ⟨?_, k.2⟩⟩
  cases b with
  | false => rfl
  | true => exact (hab rfl).symm.trans k.1

theorem Keeps.trans {skip : Cursor → Cursor} (hs : Spacing skip) (h : c.Keeps c' a d d')
    (k : (skip d).Keeps (skip d') b e e') : c.Keeps c' (a || b) e e' := by
  refine ⟨k.alike, ?_⟩
  rcases k.stop with k | ⟨rfl, k, k'⟩
  · exact .inl k
  · rw [stop_skip hs] at k k'
    rcases h.stop with h | ⟨rfl, h, h'⟩
    · exact .inl (by rw [k, h, k'])
    · exact .inr ⟨rfl, k.trans h, k'.trans h'⟩

end Cursor

namespace Phrase

variable {call : Rule → Cursor → Reading} {skip : Cursor → Cursor} {c c' d : Cursor}
  {ts : List Tree}

/-- Where the first of two alike places is found at, the second is, with the same trees. -/
def FoundAlike (taken : Bool) (f : Cursor → Reading) : Prop :=
  ∀ ⦃c c' : Cursor⦄, c.Alike c' → ∀ ⦃ts d⦄, (f c).found = some (ts, d) →
    ∃ d', (f c').found = some (ts, d') ∧ c.Keeps c' taken d d'

theorem FoundAlike.none {taken : Bool} {f : Cursor → Reading} (h : FoundAlike taken f)
    (hc : c.Alike c') (hn : (f c).found = none) : (f c').found = none := by
  cases hf : (f c').found with
  | none => rfl
  | some x =>
    obtain ⟨d, hd, -⟩ := h hc.symm hf
    rw [hn] at hd
    exact absurd hd (by simp)

theorem foundAlike_empty : FoundAlike false Reading.empty := by
  intro c c' h ts d hf
  simp only [Reading.empty, Option.some.injEq, Prod.mk.injEq] at hf
  obtain ⟨rfl, rfl⟩ := hf
  exact ⟨c', rfl, .refl h⟩

theorem FoundAlike.orElse {a b : Bool} {f g : Cursor → Reading} (hf : FoundAlike a f)
    (hg : FoundAlike b g) : FoundAlike (a && b) fun c => (f c).orElse fun _ => g c := by
  intro c c' h ts d hd
  cases hfc : (f c).found with
  | some x =>
    have hx : some x = some (ts, d) := by rw [← hd, Reading.found_orElse_of_some hfc]
    obtain ⟨d', hd', hk⟩ := hf h (hfc.trans hx)
    refine ⟨d', Reading.found_orElse_of_some hd' _, hk.mono fun hab => ?_⟩
    exact (Bool.and_eq_true_iff.mp hab).1
  | none =>
    rw [Reading.found_orElse_of_none hfc] at hd
    obtain ⟨d', hd', hk⟩ := hg h hd
    refine ⟨d', ?_, hk.mono fun hab => (Bool.and_eq_true_iff.mp hab).2⟩
    rw [Reading.found_orElse_of_none (hf.none h hfc)]
    exact hd'

theorem FoundAlike.andThen (hs : Spacing skip) {a b : Bool} {f g : Cursor → Reading}
    (hf : FoundAlike a f) (hg : FoundAlike b g) :
    FoundAlike (a || b) fun c => (f c).andThen fun d => g (skip d) := by
  intro c c' h ts e he
  obtain ⟨us, d, vs, hfc, hgd, rfl⟩ := Reading.found_andThen he
  obtain ⟨d', hd', hk⟩ := hf h hfc
  obtain ⟨e', he', hk'⟩ := hg (hk.alike.skip hs) hgd
  exact ⟨e', Reading.found_andThen_of_some hd' he', hk.trans hs hk'⟩

theorem foundAlike_readRounds (hs : Spacing skip) {taken : Bool} {f : Cursor → Reading}
    (hf : FoundAlike taken f) (n : Nat) :
    FoundAlike false (readRounds (fun d => f (skip d)) n) := by
  induction n with
  | zero => exact foundAlike_empty
  | succ n ih =>
    intro c c' h ts d hd
    have hstep : FoundAlike taken fun d => f (skip d) := by
      intro c c' h ts d hd
      obtain ⟨d', hd', hk⟩ := hf (h.skip hs) hd
      refine ⟨d', hd', hk.alike, ?_⟩
      rw [← Cursor.stop_skip hs c, ← Cursor.stop_skip hs c']
      exact hk.stop
    have hround := (FoundAlike.andThen .compact hstep ih).orElse foundAlike_empty
    obtain ⟨d', hd', hk⟩ := hround h hd
    exact ⟨d', hd', hk.mono (by simp)⟩

/-- What a phrase finds does not depend on the lexemes passed before. -/
theorem foundAlike_read (hc : ∀ r c c', Cursor.Alike c c' → (call r c).found = (call r c').found)
    (hs : Spacing skip) (a : Phrase) : FoundAlike a.consumes (a.read call skip) := by
  induction a with
  | token p =>
    intro c c' h ts d hd
    simp only [read, Reading.ofToken, h.token? p] at hd
    exact ⟨d, hd, .same ..⟩
  | call r =>
    intro c c' h ts d hd
    exact ⟨d, (hc r c c' h).symm.trans hd, .same ..⟩
  | seq a b iha ihb => exact iha.andThen hs ihb
  | alt a b iha ihb => exact iha.orElse ihb
  | opt a ih =>
    intro c c' h ts d hd
    obtain ⟨d', hd', hk⟩ := ih.orElse foundAlike_empty h hd
    exact ⟨d', hd', hk.mono (by simp [consumes])⟩
  | many a ih =>
    intro c c' h ts d hd
    have hround := FoundAlike.andThen .compact ih (foundAlike_readRounds hs ih c.rest.length)
    obtain ⟨d', hd', hk⟩ := hround.orElse foundAlike_empty h hd
    rw [read, ← h.rest]
    exact ⟨d', hd', hk.mono (by simp [consumes])⟩

end Phrase

theorem Production.foundAlike_read {call : Rule → Cursor → Reading}
    (hc : ∀ r c c', Cursor.Alike c c' → (call r c).found = (call r c').found) (p : Production) :
    Phrase.FoundAlike p.consumes (p.read call) := by
  cases p with
  | lexeme p =>
    intro c c' h ts d hd
    simp only [read, Reading.ofToken, h.token? p] at hd
    exact ⟨d, hd, .same ..⟩
  | compact a => exact a.foundAlike_read hc .compact
  | spaced a => exact a.foundAlike_read hc .spaced

namespace Rule

theorem found_readWithin_congr (n : Nat) : ∀ (r : Rule) (c c' : Cursor), c.Alike c' →
    (readWithin n r c).found = (readWithin n r c').found := by
  induction n with
  | zero => exact fun _ _ _ _ => rfl
  | succ n ih =>
    intro r c c' h
    have hp := Production.foundAlike_read ih r.production
    rw [r.consumes_production] at hp
    rw [readWithin, readWithin, Reading.close, Reading.close, h.pos]
    cases hf : (r.production.read (readWithin n) c).found with
    | none => rw [hp.none h hf]
    | some x =>
      -- the rule passes some lexeme, so the place behind it is the same
      obtain ⟨⟨rest, pos, stop⟩, hd', halike, hstop⟩ := hp h hf
      obtain ⟨hrest, hpos⟩ := halike
      simp only [Bool.true_eq_false, false_and, or_false] at hstop hrest hpos
      rw [hd', ← hrest, ← hpos, ← hstop]

/-- What a rule finds does not depend on the lexemes passed before. -/
theorem found_congr {r : Rule} {c c' : Cursor} (h : c.Alike c') :
    (r.read c).found = (r.read c').found := by
  rw [read, read, ← h.rest]
  exact found_readWithin_congr _ r c c' h

end Rule

/-! ## Every node was found by its own rule -/

/-- The tree is what its rule finds at some place of the text. -/
def Tree.ReadIn (s : Text) (t : Tree) : Prop :=
  ∃ c d, c.At s ∧ c.pos = t.span.start ∧ (t.rule.read c).found = some ([t], d)

namespace Cursor

variable {s : Text} {c d : Cursor}

theorem Moves.at (h : c.Moves d) (hc : c.At s) : d.At s := by
  rcases h with ⟨w, hw, -⟩ | ⟨u, v, -, hw, -⟩
  · exact hc.passes hw
  · exact hc.passes hw

theorem At.skip {skip : Cursor → Cursor} (hs : Spacing skip) (hc : c.At s) : (skip c).At s :=
  (moves_skip hs c).at hc

end Cursor

theorem Rule.readIn_of_found {s : Text} {r : Rule} {c d : Cursor} {ts : List Tree} (hc : c.At s)
    (h : (r.read c).found = some (ts, d)) : ∀ t ∈ ts, t.ReadIn s := by
  obtain ⟨us, rfl, -⟩ := derives_of_read h
  exact List.forall_mem_singleton.mpr ⟨c, d, hc, rfl, h⟩

namespace Phrase

variable {skip : Cursor → Cursor} {s : Text} {a : Phrase} {c d : Cursor} {ts : List Tree}

theorem at_of_found (hs : Spacing skip) (hp : ∀ p ∈ a.lexemes, p.consumes) (hc : c.At s)
    (h : (a.read Rule.read skip c).found = some (ts, d)) : d.At s :=
  ((derives_of_read (fun _ _ _ _ => Rule.derives_of_read) a h).moves hs hp).at hc

theorem readIn_of_readRounds (hs : Spacing skip) (hp : ∀ p ∈ a.lexemes, p.consumes)
    (ha : ∀ {c d : Cursor} {ts : List Tree}, c.At s →
      (a.read Rule.read skip c).found = some (ts, d) → ∀ t ∈ ts, t.ReadIn s)
    (n : Nat) (hc : c.At s)
    (h : (readRounds (fun e => a.read Rule.read skip (skip e)) n c).found = some (ts, d)) :
    ∀ t ∈ ts, t.ReadIn s := by
  induction n generalizing c ts with
  | zero =>
    simp only [readRounds, Reading.empty, Option.some.injEq, Prod.mk.injEq] at h
    rw [← h.1]
    simp
  | succ n ih =>
    rcases Reading.found_orElse h with h | h
    · obtain ⟨us, e, vs, hx, hn, rfl⟩ := Reading.found_andThen h
      intro t ht
      rcases List.mem_append.mp ht with ht | ht
      · exact ha (hc.skip hs) hx t ht
      · exact ih (at_of_found hs hp (hc.skip hs) hx) hn t ht
    · simp only [Reading.empty, Option.some.injEq, Prod.mk.injEq] at h
      rw [← h.1]
      simp

/-- Every tree that a phrase leaves was found by its own rule. -/
theorem readIn_of_found (hs : Spacing skip) (hp : ∀ p ∈ a.lexemes, p.consumes) (hc : c.At s)
    (h : (a.read Rule.read skip c).found = some (ts, d)) : ∀ t ∈ ts, t.ReadIn s := by
  induction a generalizing c d ts with
  | token p =>
    simp only [read, Reading.ofToken, Option.map_eq_some_iff, Prod.mk.injEq] at h
    obtain ⟨-, -, rfl, -⟩ := h
    simp
  | call r => exact Rule.readIn_of_found hc h
  | seq a b iha ihb =>
    simp only [lexemes, List.mem_append] at hp
    have hpa := fun p h => hp p (.inl h)
    obtain ⟨us, e, vs, hx, hy, rfl⟩ := Reading.found_andThen h
    intro t ht
    rcases List.mem_append.mp ht with ht | ht
    · exact iha hpa hc hx t ht
    · exact ihb (fun p h => hp p (.inr h)) ((at_of_found hs hpa hc hx).skip hs) hy t ht
  | alt a b iha ihb =>
    rcases Reading.found_orElse h with h | h
    · exact iha (fun p h => hp p (List.mem_append_left _ h)) hc h
    · exact ihb (fun p h => hp p (List.mem_append_right _ h)) hc h
  | opt a ih =>
    rcases Reading.found_orElse h with h | h
    · exact ih hp hc h
    · simp only [Reading.empty, Option.some.injEq, Prod.mk.injEq] at h
      rw [← h.1]
      simp
  | many a ih =>
    rcases Reading.found_orElse h with h | h
    · obtain ⟨us, e, vs, hx, hn, rfl⟩ := Reading.found_andThen h
      intro t ht
      rcases List.mem_append.mp ht with ht | ht
      · exact ih hp hc hx t ht
      · have he : e.At s := at_of_found (a := a) hs hp hc hx
        exact readIn_of_readRounds (a := a) hs hp (fun hc hf => ih hp hc hf) _ he hn t ht
    · simp only [Reading.empty, Option.some.injEq, Prod.mk.injEq] at h
      rw [← h.1]
      simp

end Phrase

/-- What a rule finds is what its right-hand side finds, made the children of one tree. -/
theorem Rule.found_read_eq (r : Rule) (c : Cursor) :
    (r.read c).found = (r.production.read Rule.read c).found.map
      fun x => ([⟨r, ⟨c.pos, x.2.stop⟩, x.1⟩], x.2) := by
  rw [r.read_eq]
  rfl

/-- The children of a tree that its rule found were found by their rules. -/
theorem Tree.ReadIn.children {s : Text} {t : Tree} (h : t.ReadIn s) :
    ∀ u ∈ t.children, u.ReadIn s := by
  obtain ⟨c, d, hc, -, hf⟩ := h
  rw [Rule.found_read_eq, Option.map_eq_some_iff] at hf
  obtain ⟨⟨us, e⟩, hu, hx⟩ := hf
  obtain ⟨ht, -⟩ := Prod.mk.inj hx
  have hus : t.children = us := by rw [← List.head_eq_of_cons_eq ht]
  have hp : ∀ p ∈ t.rule.production.lexemes, p.consumes := fun p =>
    Rule.consumes_of_mem_lexemes
  rw [hus]
  cases hr : t.rule.production with
  | lexeme p =>
    rw [hr] at hu
    simp only [Production.read, Reading.ofToken, Option.map_eq_some_iff, Prod.mk.injEq] at hu
    obtain ⟨-, -, rfl, -⟩ := hu
    simp
  | compact a =>
    rw [hr] at hu hp
    exact Phrase.readIn_of_found .compact hp hc hu
  | spaced a =>
    rw [hr] at hu hp
    exact Phrase.readIn_of_found .spaced hp hc hu

theorem Tree.ReadIn.nodes {s : Text} {t : Tree} (h : t.ReadIn s) : ∀ n ∈ t.nodes, n.ReadIn s := by
  induction t using Tree.induction_on_children with
  | h t ih =>
    intro n hn
    rcases Tree.mem_nodes_iff.mp hn with rfl | ⟨u, hu, hn⟩
    · exact h
    · exact ih u hu (h.children u hu) n hn

/-- Every node of the tree of a parse was found by its own rule. -/
theorem readIn_of_parse {s : Text} {r : Rule} {o : Options} {t : Tree} (h : parse s r o = .ok t) :
    ∀ n ∈ t.nodes, n.ReadIn s := by
  obtain ⟨-, d, hf, -⟩ := parse_eq_ok_iff.mp h
  have hat : (Cursor.start s 0).At s := ⟨[], rfl, rfl⟩
  exact (Rule.readIn_of_found hat hf t (List.mem_singleton_self t)).nodes

/-! ## Parses that begin at a node -/

namespace Cursor

variable {s w : Text} {c d : Cursor}

theorem At.slice? (hc : c.At s) (h : c.Passes w d) : s.slice? c.pos d.pos = some w := by
  obtain ⟨u, rfl, hu⟩ := hc
  have := Text.slice?_size_append u w d.rest
  rwa [List.append_assoc, ← h.rest, ← hu, ← h.pos] at this

/-- The text from a place on. -/
theorem At.slice?_rest (hc : c.At s) : s.slice? c.pos (Text.size s) = some c.rest := by
  have hend : c.Passes c.rest ⟨[], c.pos + Text.size c.rest, c.stop⟩ := ⟨by simp, rfl⟩
  have hslice := hc.slice? hend
  obtain ⟨u, rfl, hu⟩ := hc
  rwa [Text.size_append, ← hu]

/-- What a parse from a place on returns, its rule finds there. -/
theorem At.found_of_parseRange {r : Rule} {o : Options} {t : Tree} (hc : c.At s)
    (h : parseRange s ⟨c.pos, Text.size s⟩ r o = .ok t) :
    ∃ d, (r.read c).found = some ([t], d) := by
  obtain ⟨w, d, hw, -, hf, -⟩ := parseRange_eq_ok_iff.mp h
  obtain rfl : w = c.rest := Option.some.inj (hw.symm.trans hc.slice?_rest)
  have halike : c.Alike (.start c.rest c.pos) := ⟨rfl, rfl⟩
  exact ⟨d, (Rule.found_congr halike).trans hf⟩

end Cursor

/-- A tree that its rule finds in a text is what a parse from its start returns. -/
theorem Tree.ReadIn.parseRange {s : Text} {t : Tree} (h : t.ReadIn s) :
    ∃ w, s.dropBytes? t.span.start = some w ∧
      ∀ o : Options, o.requireComplete = false → nestingDepth w ≤ o.maxNesting →
        parseRange s ⟨t.span.start, Text.size s⟩ t.rule o = .ok t := by
  obtain ⟨c, d, hc, hpos, hf⟩ := h
  refine ⟨c.rest, hpos ▸ hc.dropBytes?, fun o ho hn => ?_⟩
  have halike : c.Alike (.start c.rest t.span.start) := ⟨rfl, hpos⟩
  refine parseRange_eq_ok_iff.mpr ⟨c.rest, d, hpos ▸ hc.slice?_rest, hn, ?_, by simp [ho]⟩
  rw [← Rule.found_congr halike, hf]

/-- **A rule matches the same in context and alone.**  A parse from the start of any node of a
parsed tree to the end of the text, by the rule of the node, returns the node as it stands in the
tree, if it need not be complete and parentheses do not nest too deeply for it. -/
theorem parseRange_node_of_parse {s : Text} {r : Rule} {o : Options} {t : Tree}
    (h : parse s r o = .ok t) :
    ∀ n ∈ t.nodes, ∃ w, s.dropBytes? n.span.start = some w ∧
      ∀ p : Options, p.requireComplete = false → nestingDepth w ≤ p.maxNesting →
        parseRange s ⟨n.span.start, Text.size s⟩ n.rule p = .ok n :=
  fun n hn => (readIn_of_parse h n hn).parseRange

/-- A variable behind a sign and a comment with a parenthesis, in a call with noise behind it. -/
theorem parseRange_node_of_call :
    let s : Text := ['f', '(', '-', ' ', '&', '!', '(', '\n', '&', 'x', ' ', ')', ' ', '!']
    let u : Tree := ⟨.accessedVariable, ⟨2, 10⟩, [⟨.sign, ⟨2, 3⟩, []⟩, ⟨.name, ⟨9, 10⟩, []⟩]⟩
    let v : Tree := ⟨.valueReturningCode, ⟨2, 10⟩, [u]⟩
    let t : Tree := ⟨.functionCall, ⟨0, 12⟩, [⟨.name, ⟨0, 1⟩, []⟩,
      ⟨.arguments, ⟨2, 10⟩, [⟨.argument, ⟨2, 10⟩, [v]⟩]⟩]⟩
    parse s .functionCall {} = .ok t ∧ u ∈ t.nodes ∧
      parseRange s ⟨2, Text.size s⟩ .accessedVariable { maxNesting := 0 } = .ok u := by
  intro s u v t
  have ht : parse s .functionCall {} = .ok t := by rfl
  have hu : u ∈ t.nodes := by decide
  obtain ⟨w, hw, hp⟩ := parseRange_node_of_parse ht u hu
  have hw' : s.dropBytes? 2 = some (s.drop 2) := by decide
  obtain rfl : w = s.drop 2 := Option.some.inj (hw.symm.trans hw')
  exact ⟨ht, hu, hp { maxNesting := 0 } rfl (by decide)⟩

end FreeForm
