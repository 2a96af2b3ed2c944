import FreeForm.Proofs.NodeEnds
import FreeForm.Proofs.Spelled

/-!
# Texts made of tokens

A beginning of a text that a run has read consists of tokens with noise between them.  It can be
told from the characters alone: a beginning is tiled if it splits into characters of plain tokens,
quotations, and noise that ends before a token (`Text.Tiled`).  No lexeme of the grammar and no
noise that begins inside a tiled text leaves it, and which ones begin there does not depend on the
text behind it, as long as this begins with noise or a quote (`Text.Tiled.token`,
`Text.Tiled.gap`).

Every node of the tree of a parse lies between places up to which the text is tiled
(`grownFrom_of_parse`).
-/

namespace FreeForm

namespace Pattern

/-- The characters that quotations begin and end with. -/
def quotes : List Char := ['"', '\'']

/-- The characters that begin noise or a quotation. -/
def marks : List Char := quotes ++ noiseMarks

/-- A quotation with quotes of either kind. -/
abbrev quotation : Pattern := .alt (.quotedWith '"') (.quotedWith '\'')

/-- What is common to the lexemes of the grammar: each is a quotation or free of marks, and does not
depend on which mark comes next. -/
def isToken (p : Pattern) : Bool :=
  p.isClear && p.peeks && (p = quotation || p.isFreeOf marks) &&
    p.ahead.all fun k => marks.all fun c => !k.holds c

variable {p : Pattern} {q : Char} {b s t r u : Text}

theorem split?_quotation (hq : q ∈ quotes) (hb : q ∉ b) (u : Text) :
    quotation.split? (q :: (b ++ q :: u)) = some (q :: (b ++ [q]), u) := by
  have hself := split?_quotedWith_self hb u
  rw [List.cons_append, List.append_assoc, List.singleton_append] at hself
  simp only [quotes, List.mem_cons, List.not_mem_nil, or_false] at hq
  rcases hq with rfl | rfl
  · exact split?_alt_eq_some.mpr (.inl hself)
  · exact split?_alt_eq_some.mpr (.inr ⟨split?_eq_none_of_rejects (by decide) _, hself⟩)

theorem exists_of_split?_quotation (h : quotation.split? s = some (t, r)) :
    ∃ q b, q ∈ quotes ∧ q ∉ b ∧ t = q :: (b ++ [q]) := by
  rcases split?_alt_eq_some.mp h with h | ⟨-, h⟩
  · obtain ⟨b, rfl, hb⟩ := split?_quotedWith h
    exact ⟨_, b, by decide, hb, rfl⟩
  · obtain ⟨b, rfl, hb⟩ := split?_quotedWith h
    exact ⟨_, b, by decide, hb, rfl⟩

theorem isToken_iff : p.isToken ↔ (p.isClear ∧ p.peeks ∧ (p = quotation ∨ p.isFreeOf marks)) ∧
    ∀ k ∈ p.ahead, ∀ c ∈ marks, ¬k.holds c := by
  simp [isToken, and_assoc]

end Pattern

theorem Rule.isToken_of_mem_lexemes {r : Rule} {p : Pattern} (hp : p ∈ r.production.lexemes) :
    p.isToken := by
  have h : ∀ p ∈ r.production.lexemes, p.isToken := by cases r <;> decide
  exact h p hp

namespace Text

open Pattern

/-- A text in front of `y` that splits into characters of plain tokens, quotations, and noise that
ends before a token. -/
inductive Tiled (y : Text) : Text → Prop
  | nil : Tiled y []
  | plain {c : Char} {x : Text} (hc : c ∉ marks) (h : Tiled y x) : Tiled y (c :: x)
  | quotation {q : Char} {b x : Text} (hq : q ∈ quotes) (hb : q ∉ b) (h : Tiled y x) :
    Tiled y (q :: (b ++ q :: x))
  | noise {g x : Text} (hg : g ≠ []) (hn : noise.split? (g ++ (x ++ y)) = some (g, x ++ y))
    (hx : ∃ c ∈ (x ++ y).head?, c ∉ noiseMarks) (h : Tiled y x) : Tiled y (g ++ x)

variable {p : Pattern} {c : Char} {s t r u w x y y' : Text}

theorem Tiled.append (h : Tiled (x ++ y) u) (k : Tiled y x) : Tiled y (u ++ x) := by
  induction h with
  | nil => exact k
  | plain hc _ ih => exact .plain hc ih
  | quotation hq hb _ ih =>
    rw [List.cons_append, List.append_assoc, List.cons_append]
    exact .quotation hq hb ih
  | noise hg hn hx _ ih =>
    rw [List.append_assoc]
    refine .noise hg ?_ ?_ ih
    · rwa [List.append_assoc]
    · rwa [List.append_assoc]

theorem Tiled.of_plain (ht : ∀ c ∈ t, c ∉ marks) : Tiled y t := by
  induction t with
  | nil => exact .nil
  | cons c t ih =>
    exact .plain (ht c List.mem_cons_self) (ih fun d hd => ht d (List.mem_cons_of_mem c hd))

/-- What a token takes is tiled. -/
theorem Tiled.of_split? (hp : p.isToken) (h : p.split? s = some (t, r)) : Tiled y t := by
  obtain ⟨⟨-, -, hkind⟩, -⟩ := isToken_iff.mp hp
  rcases hkind with rfl | hfree
  · obtain ⟨q, b, hq, hb, rfl⟩ := exists_of_split?_quotation h
    exact .quotation hq hb .nil
  · exact .of_plain (notMem_of_isFreeOf hfree h)

theorem notMem_noiseMarks_of_notMem (hc : c ∉ marks) : c ∉ noiseMarks :=
  fun h => hc (List.mem_append_right _ h)

theorem notMem_noiseMarks_of_quote (hc : c ∈ quotes) : c ∉ noiseMarks := by
  simp only [quotes, List.mem_cons, List.not_mem_nil, or_false] at hc
  rcases hc with rfl | rfl <;> decide

/-- Where noise is not empty, a mark of noise stands. -/
theorem mem_noiseMarks_of_split? (h : Pattern.noise.split? (c :: s) = some (t, r)) (ht : t ≠ []) :
    c ∈ noiseMarks := by
  by_contra hc
  have hnone : Pattern.noise.split? (c :: s) = some ([], c :: s) :=
    split?_noise_of_notMem (by simpa using hc)
  rw [hnone, Option.some.injEq, Prod.mk.injEq] at h
  exact ht h.1.symm

theorem Tiled.of_cons (h : Tiled y (c :: x)) (hc : c ∉ marks) : Tiled y x := by
  generalize hs : c :: x = s at h
  cases h with
  | nil => simp at hs
  | plain _ h => rwa [(List.cons.inj hs).2]
  | quotation hq hb h =>
    rw [(List.cons.inj hs).1] at hc
    exact absurd (List.mem_append_left _ hq) hc
  | @noise g x' hg hn hx h =>
    obtain ⟨d, g', rfl⟩ := List.exists_cons_of_ne_nil hg
    rw [(List.cons.inj hs).1] at hc
    exact absurd (mem_noiseMarks_of_split? hn hg) (notMem_noiseMarks_of_notMem hc)

theorem Tiled.of_append (h : Tiled y (t ++ x)) (ht : ∀ c ∈ t, c ∉ marks) : Tiled y x := by
  induction t with
  | nil => exact h
  | cons c t ih =>
    exact ih (h.of_cons (ht c List.mem_cons_self)) fun d hd => ht d (List.mem_cons_of_mem c hd)

/-! ## Other texts behind a tiled text -/

/-- Both texts begin with marks, if they are not empty, and if one of them begins with a quote, the
other begins with the same quote. -/
structure Alike (y y' : Text) : Prop where
  left : ∀ c ∈ y.head?, c ∈ marks
  right : ∀ c ∈ y'.head?, c ∈ marks
  quote : ∀ c, c ∉ noiseMarks → (c ∈ y.head? ↔ c ∈ y'.head?)

theorem Alike.symm (h : Alike y y') : Alike y' y :=
  ⟨h.right, h.left, fun c hc => (h.quote c hc).symm⟩

/-- Noise in front of a token is the same noise if the text behind is exchanged. -/
theorem Alike.noise {g : Text} (h : Alike y y')
    (hn : Pattern.noise.split? (g ++ (x ++ y)) = some (g, x ++ y))
    (hx : ∃ c ∈ (x ++ y).head?, c ∉ noiseMarks) :
    Pattern.noise.split? (g ++ (x ++ y')) = some (g, x ++ y') ∧
      ∃ c ∈ (x ++ y').head?, c ∉ noiseMarks := by
  obtain ⟨c, hc, hm⟩ := hx
  have hhead : (x ++ y').head? = some c := by
    cases x with
    | nil => exact (h.quote c hm).mp hc
    | cons d x => exact hc
  refine ⟨split?_noise_append hn (.inl (hhead.trans hc.symm)) ?_, c, hhead, hm⟩
  intro d hd
  rw [hhead, Option.mem_some_iff] at hd
  exact hd ▸ hm

theorem Tiled.exchange (h : Tiled y x) (ha : Alike y y') : Tiled y' x := by
  induction h with
  | nil => exact .nil
  | plain hc _ ih => exact .plain hc ih
  | quotation hq hb _ ih => exact .quotation hq hb ih
  | noise hg hn hx _ ih =>
    obtain ⟨hn', hx'⟩ := ha.noise hn hx
    exact .noise hg hn' hx' ih

/-- A token that is no quotation ends in front of the first mark. -/
theorem Tiled.token_of_isFreeOf (h : Tiled y x) (ha : Alike y y') (hp : p.isToken)
    (hf : p.isFreeOf marks) (hs : p.split? (x ++ y) = some (t, r)) :
    ∃ w, x = t ++ w ∧ r = w ++ y ∧ Tiled y w ∧ p.split? (x ++ y') = some (t, w ++ y') := by
  obtain ⟨⟨-, hpeeks, -⟩, hahead⟩ := isToken_iff.mp hp
  have hfree := notMem_of_isFreeOf hf hs
  have hsplit : ∃ w, x = t ++ w ∧ r = w ++ y := by
    rcases List.append_eq_append_iff.mp (split?_eq_append hs) with ⟨v, ht, hy⟩ | ⟨w, hx, hr⟩
    · cases v with
      | nil => exact ⟨[], by simpa using ht.symm, by simpa using hy.symm⟩
      | cons c v =>
        have hmem : c ∈ t := by rw [ht]; simp
        exact absurd (ha.left c (by rw [hy]; rfl)) (hfree c hmem)
    · exact ⟨w, hx, hr⟩
  obtain ⟨w, rfl, rfl⟩ := hsplit
  have hstands : (w ++ y').StandsInFor p.ahead (w ++ y) := by
    cases w with
    | nil => exact .inr fun k hk c hc => hahead k hk c (ha.right c hc)
    | cons d w => exact .inl rfl
  refine ⟨w, rfl, rfl, h.of_append hfree, ?_⟩
  rw [List.append_assoc]
  exact split?_append hpeeks hs hstands

/-- **A token that begins in a tiled text ends there**, whatever stands behind the tiled text. -/
theorem Tiled.token (h : Tiled y x) (hx : x ≠ []) (ha : Alike y y') (hp : p.isToken)
    (hs : p.split? (x ++ y) = some (t, r)) :
    ∃ w, x = t ++ w ∧ r = w ++ y ∧ Tiled y w ∧ p.split? (x ++ y') = some (t, w ++ y') := by
  obtain ⟨⟨hclear, -, hkind⟩, -⟩ := isToken_iff.mp hp
  rcases hkind with rfl | hfree
  · cases h with
    | nil => exact absurd rfl hx
    | plain hc _ =>
      obtain ⟨q, b, hq, -, rfl⟩ := exists_of_split?_quotation hs
      rw [(List.cons.inj (split?_eq_append hs)).1] at hc
      exact absurd (List.mem_append_left _ hq) hc
    | @quotation q b w hq hb h =>
      have hself := split?_quotation hq hb
      rw [List.cons_append, List.append_assoc, List.cons_append, hself, Option.some.injEq,
        Prod.mk.injEq] at hs
      obtain ⟨rfl, rfl⟩ := hs
      exact ⟨w, by simp, rfl, h, by simpa using hself (w ++ y')⟩
    | @noise g x hg hn _ _ =>
      obtain ⟨c, g, rfl⟩ := List.exists_cons_of_ne_nil hg
      have hhead := Cursor.head_of_isClear (c := .start (c :: g ++ x ++ y) 0) hclear
        (Option.isSome_of_eq_some hs)
      exact absurd (mem_noiseMarks_of_split? hn hg) (hhead c rfl)
  · exact h.token_of_isFreeOf ha hp hfree hs

/-- **Noise that begins in a tiled text ends there**, whatever stands behind the tiled text. -/
theorem Tiled.gap (h : Tiled y x) (hx : x ≠ []) (ha : Alike y y')
    (hs : Pattern.noise.split? (x ++ y) = some (t, r)) :
    ∃ w, x = t ++ w ∧ r = w ++ y ∧ Tiled y w ∧
      Pattern.noise.split? (x ++ y') = some (t, w ++ y') := by
  have hnone : ∀ c x, Tiled y (c :: x) → c ∉ noiseMarks →
      Pattern.noise.split? (c :: x ++ y) = some (t, r) → ∃ w, c :: x = t ++ w ∧ r = w ++ y ∧
        Tiled y w ∧ Pattern.noise.split? (c :: x ++ y') = some (t, w ++ y') := by
    intro c x h hc hs
    have hno : ∀ z, Pattern.noise.split? (c :: x ++ z) = some ([], c :: x ++ z) := fun z =>
      split?_noise_of_notMem (by simpa using hc)
    rw [hno y, Option.some.injEq, Prod.mk.injEq] at hs
    obtain ⟨rfl, rfl⟩ := hs
    exact ⟨c :: x, rfl, rfl, h, hno y'⟩
  cases h with
  | nil => exact absurd rfl hx
  | plain hc h => exact hnone _ _ (.plain hc h) (notMem_noiseMarks_of_notMem hc) hs
  | quotation hq hb h =>
    exact hnone _ _ (.quotation hq hb h) (notMem_noiseMarks_of_quote hq) hs
  | @noise g w hg hn hw h =>
    rw [List.append_assoc, hn, Option.some.injEq, Prod.mk.injEq] at hs
    obtain ⟨rfl, rfl⟩ := hs
    rw [List.append_assoc]
    exact ⟨w, rfl, rfl, h, (ha.noise hn hw).1⟩

/-! ## Tiled up to an offset -/

/-- The text up to the offset `n` is tiled. -/
def TiledTo (s : Text) (n : Nat) : Prop := ∃ u y, s = u ++ y ∧ size u = n ∧ Tiled y u

theorem tiledTo_zero (s : Text) : s.TiledTo 0 := ⟨[], s, rfl, rfl, .nil⟩

theorem TiledTo.tiled (h : TiledTo (u ++ y) (size u)) : Tiled y u := by
  obtain ⟨v, z, hs, hsize, ht⟩ := h
  obtain ⟨rfl, rfl⟩ := append_inj_of_size hs hsize.symm
  exact ht

theorem TiledTo.passes {c d : Cursor} (h : s.TiledTo c.pos) (hc : c.At s) (hd : c.Passes w d)
    (hw : Tiled d.rest w) : s.TiledTo d.pos := by
  obtain ⟨u, rfl, hu⟩ := hc
  rw [hu] at h
  have ht := h.tiled
  rw [hd.rest] at ht
  exact ⟨u ++ w, d.rest, by rw [hd.rest, List.append_assoc],
    by rw [hd.pos, hu, size_append], ht.append hw⟩

/-- Noise may be passed in front of a token. -/
theorem TiledTo.skipGap {c : Cursor} (h : s.TiledTo c.pos) (hc : c.At s)
    (hm : ∃ x ∈ c.skipGap.rest.head?, x ∉ noiseMarks) : s.TiledTo c.skipGap.pos := by
  obtain ⟨g, hg, hpass, -⟩ := c.passes_skipGap
  rw [split?_gap] at hg
  refine h.passes hc hpass ?_
  by_cases hnil : g = []
  · rw [hnil]
    exact .nil
  · have htile := Tiled.noise (x := []) (y := c.skipGap.rest) hnil
      (by rw [List.nil_append, ← hpass.rest]; exact hg) hm .nil
    rwa [List.append_nil] at htile

theorem TiledTo.token {c d : Cursor} (h : s.TiledTo c.pos) (hc : c.At s) (hp : p.isToken)
    (ht : c.token? p = some d) : s.TiledTo d.pos := by
  obtain ⟨w, hw, hcd, -⟩ := Cursor.passes_of_token? ht
  exact h.passes hc hcd (.of_split? hp hw)

end Text

/-! ## Tokens of a run -/

namespace Cursor

variable {s : Text} {c d f : Cursor} {p : Pattern}

/-- The text up to the last token in front of `c` is tiled, and behind it stands only noise. -/
def Tiled (s : Text) (c : Cursor) : Prop := (c.At s ∧ ∃ f, c.EndsAt s f) ∧ s.TiledTo c.stop

/-- The text up to the place where a token begins is tiled. -/
theorem Tiled.tiledTo_pos (h : c.Tiled s) (hp : p.isToken) (ht : c.token? p = some d) :
    s.TiledTo c.pos := by
  obtain ⟨⟨-, f, hf⟩, hstop⟩ := h
  obtain ⟨⟨hclear, -⟩, -⟩ := Pattern.isToken_iff.mp hp
  obtain ⟨w, hw, hcd, -⟩ := passes_of_token? ht
  have hgap : f.skipGap = c := hf.gap.trans (skipGap_of_token? hclear ht)
  have hne := Pattern.ne_nil_of_consumes (Pattern.consumes_of_isClear hclear) hw
  obtain ⟨x, w, rfl⟩ := List.exists_cons_of_ne_nil hne
  have hhead : c.rest.head? = some x := by rw [hcd.rest]; rfl
  have hmark := head_of_isClear hclear (Option.isSome_of_eq_some hw) x hhead
  rw [← hf.stop, hf.stop_eq] at hstop
  have ht := hstop.skipGap hf.place ⟨x, by rw [hgap]; exact hhead, hmark⟩
  rwa [hgap] at ht

theorem invariant_tiled (s : Text) : Invariant (fun p => p.isToken) (Tiled s) where
  token hp hc h := by
    have hd := (invariant_endsAt s).token trivial hc.1 h
    have ht := (hc.tiledTo_pos hp h).token hc.1.1 hp h
    obtain ⟨-, -, -, hstop⟩ := passes_of_token? h
    exact ⟨hd, hstop ▸ ht⟩
  gap {c} hc := ⟨(invariant_endsAt s).gap hc.1, by rw [stop_skipGap]; exact hc.2⟩

theorem tiled_start (s : Text) : (start s 0).Tiled s := ⟨endsAt_start s, s.tiledTo_zero⟩

end Cursor

/-- Every node of the tree of a parse lies between places up to which the text is tiled. -/
theorem grownFrom_of_parse {s : Text} {r : Rule} {o : Options} {t : Tree}
    (h : parse s r o = .ok t) : ∀ n ∈ t.nodes, n.GrownFrom (Cursor.Tiled s) :=
  (Cursor.invariant_tiled s).grownFrom_of_parse (fun _ _ hp => Rule.isToken_of_mem_lexemes hp)
    (Cursor.tiled_start s) h

end FreeForm
