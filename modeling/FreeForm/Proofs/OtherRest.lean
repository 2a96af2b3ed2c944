import FreeForm.Proofs.Follow

/-!
# Another text behind a lexeme

What a pattern cuts off depends on at most one character behind it.  So it is cut off as well where
the text behind is exchanged for another one that begins with the same character, or with one that
the pattern cannot go on with (`Pattern.split?_append`), as where the line ends
(`Pattern.split?_append_of_peeks`).  The same is true of noise, provided that what comes next begins
no noise (`Pattern.split?_noise_append`); a continuation even ends with a mark of its own.
-/

namespace FreeForm

/-- Whether no character of a class ends a line. -/
def CharClass.withinLine (k : CharClass) : Bool := Pattern.lineEnds.all fun x => !k.holds x

/-- The text `r'` may stand in place of `r` where characters of the classes `ks` would be taken as
well: it begins with the same character, or with none of these. -/
def Text.StandsInFor (r' : Text) (ks : List CharClass) (r : Text) : Prop :=
  r'.head? = r.head? ∨ ∀ k ∈ ks, ∀ x ∈ r'.head?, ¬k.holds x

theorem Text.StandsInFor.mono {r r' : Text} {ks ls : List CharClass} (h : r'.StandsInFor ks r)
    (hkl : ∀ k ∈ ls, k ∈ ks) : r'.StandsInFor ls r :=
  h.imp_right fun hn k hk => hn k (hkl k hk)

/-- The text `r'` may stand in place of `r`: it begins with the same character, or ends the line
where `ends` allows it. -/
def Text.Replaces (r' : Text) (ends : Bool) (r : Text) : Prop :=
  r'.head? = r.head? ∨ ends ∧ r'.AtLineEnd

theorem Text.Replaces.mono {r r' : Text} {a b : Bool} (h : r'.Replaces a r) (hab : a → b) :
    r'.Replaces b r :=
  h.imp_right fun k => ⟨hab k.1, k.2⟩

theorem CharClass.not_holds_of_withinLine {k : CharClass} (hk : k.withinLine) {s : Text}
    (hs : s.AtLineEnd) : ∀ x ∈ s.head?, ¬k.holds x := by
  intro x hx
  have := List.all_eq_true.mp hk x (hs x hx)
  simpa using this

namespace Pattern

variable {p a : Pattern} {s t r r' : Text}

/-- Whether a pattern looks at most one character ahead. -/
def peeks : Pattern → Bool
  | one _ | lit _ | word _ | run _ | many (one _) | avoid (one _) => true
  | seq a b => a.peeks && b.peeks
  | alt a b => a.peeks && b.peeks && b.clashes a
  | many _ | avoid _ => false

/-- The classes of the characters behind a pattern that it would take as well, or that would keep
it from applying. -/
def ahead : Pattern → List CharClass
  | one _ | lit _ | word _ => []
  | run k | many (one k) | avoid (one k) => [k]
  | seq a b => b.ahead ++ if b.consumes then [] else a.ahead
  | alt a b => a.ahead ++ b.ahead
  | many _ | avoid _ => []

/-- Whether a pattern cannot go on at the end of a line. -/
def halts : Pattern → Bool
  | one _ | lit _ | word _ => true
  | run k | many (one k) | avoid (one k) => k.withinLine
  | seq a b => b.halts && (b.consumes || a.halts)
  | alt a b => a.halts && b.halts
  | many _ | avoid _ => false

theorem splitWord?_append {fold : Char → Char} {w : Text}
    (h : splitWord? fold w s = some (t, r)) (r' : Text) :
    splitWord? fold w (t ++ r') = some (t, r') :=
  splitWord?_of_map (map_of_splitWord? h) r'

theorem split?_run_append {k : CharClass} (h : (run k).split? s = some (t, r))
    (hr : r'.StandsInFor [k] r) : (run k).split? (t ++ r') = some (t, r') := by
  refine split?_run_eq_some.mpr ⟨rfl, holds_of_run h, ?_⟩
  rcases hr with hr | hr
  · rw [hr]
    exact not_holds_of_run h
  · exact hr k (List.mem_singleton_self k)

theorem split?_avoid_one_iff {k : CharClass} :
    (avoid (one k)).split? s = some (t, r) ↔ (∀ x ∈ s.head?, ¬k.holds x) ∧ t = [] ∧ s = r := by
  cases s with
  | nil => simp [split?]
  | cons c s => by_cases hc : k.holds c <;> simp [split?, hc]

/-- **What a pattern cuts off, it cuts off again** if the text behind is replaced. -/
theorem split?_append (hp : p.peeks) (h : p.split? s = some (t, r))
    (hr : r'.StandsInFor p.ahead r) : p.split? (t ++ r') = some (t, r') := by
  induction p generalizing s t r r' with
  | one k =>
    obtain ⟨c, hc, rfl, -⟩ := split?_one_eq_some.mp h
    exact split?_one_eq_some.mpr ⟨c, hc, rfl, rfl⟩
  | run k => exact split?_run_append h hr
  | lit w | word w => exact splitWord?_append h r'
  | seq a b iha ihb =>
    simp only [peeks, Bool.and_eq_true] at hp
    obtain ⟨t₁, r₁, t₂, h₁, h₂, rfl⟩ := split?_seq_eq_some.mp h
    have hr₂ : r'.StandsInFor b.ahead r := hr.mono fun _ => List.mem_append_left _
    have hr₁ : (t₂ ++ r').StandsInFor a.ahead r₁ := by
      rw [split?_eq_append h₂]
      cases t₂ with
      | cons x t₂ => exact .inl rfl
      | nil =>
        have hb : ¬b.consumes := fun hb => ne_nil_of_consumes hb h₂ rfl
        refine hr.mono fun k hk => ?_
        rw [ahead, if_neg hb]
        exact List.mem_append_right _ hk
    rw [List.append_assoc]
    exact split?_seq_eq_some.mpr ⟨t₁, _, t₂, iha hp.1 h₁ hr₁, ihb hp.2 h₂ hr₂, rfl⟩
  | alt a b iha ihb =>
    simp only [peeks, Bool.and_eq_true] at hp
    rcases split?_alt_eq_some.mp h with h | ⟨-, h⟩
    · have hra : r'.StandsInFor a.ahead r := hr.mono fun _ => List.mem_append_left _
      exact split?_alt_eq_some.mpr (.inl (iha hp.1.1 h hra))
    · have hrb : r'.StandsInFor b.ahead r := hr.mono fun _ => List.mem_append_right _
      have hb := ihb hp.1.2 h hrb
      have ha := apart_of_clashes hp.2 _ (Option.isSome_of_eq_some hb)
      exact split?_alt_eq_some.mpr (.inr ⟨ha, hb⟩)
  | many a =>
    cases a with
    | one k =>
      rw [split?_many_one] at h ⊢
      exact split?_run_append h hr
    | _ => simp [peeks] at hp
  | avoid a =>
    cases a with
    | one k =>
      obtain ⟨hs, rfl, rfl⟩ := split?_avoid_one_iff.mp h
      have hnext : ∀ x ∈ r'.head?, ¬k.holds x := by
        rcases hr with hr | hr
        · rwa [hr]
        · exact hr k (List.mem_singleton_self k)
      exact split?_avoid_one_iff.mpr ⟨hnext, rfl, rfl⟩
    | _ => simp [peeks] at hp

/-- A pattern that cannot go on at the end of a line takes no character that ends it. -/
theorem withinLine_of_halts (hp : p.halts) : ∀ k ∈ p.ahead, k.withinLine := by
  induction p with
  | one | lit | word => simp [ahead]
  | run k => simpa [ahead, halts] using hp
  | seq a b iha ihb =>
    simp only [halts, Bool.and_eq_true, Bool.or_eq_true] at hp
    intro k hk
    rcases List.mem_append.mp hk with hk | hk
    · exact ihb hp.1 k hk
    · split at hk
      · exact absurd hk List.not_mem_nil
      · rename_i hb
        exact iha (hp.2.resolve_left hb) k hk
  | alt a b iha ihb =>
    simp only [halts, Bool.and_eq_true] at hp
    intro k hk
    exact (List.mem_append.mp hk).elim (iha hp.1 k) (ihb hp.2 k)
  | many a | avoid a =>
    cases a with
    | one k => simpa [ahead, halts] using hp
    | _ => simp [halts] at hp

/-- In particular, it is cut off again where the line ends, if the pattern cannot go on there. -/
theorem split?_append_of_peeks (hp : p.peeks) (h : p.split? s = some (t, r))
    (hr : r'.Replaces p.halts r) : p.split? (t ++ r') = some (t, r') := by
  refine split?_append hp h (hr.imp_right fun ⟨hh, hl⟩ k hk => ?_)
  exact CharClass.not_holds_of_withinLine (withinLine_of_halts hh k hk) hl

/-! ## Noise -/

/-- Where a text begins with a carriage return, its first two characters tell whether a line feed
follows. -/
theorem split?_return_feed (r : Text) :
    (lit ['\r', '\n']).split? ('\r' :: r) = none ↔ r.head? ≠ some '\n' := by
  cases r with
  | nil => simp [split?, splitWord?]
  | cons x r => by_cases hx : x = '\n' <;> simp [split?, splitWord?, hx]

theorem split?_newline_append (h : newline.split? s = some (t, r)) (hr : r'.head? = r.head?) :
    newline.split? (t ++ r') = some (t, r') := by
  have hs := split?_eq_append h
  rw [newline, split?_alt_eq_some, split?_alt_eq_some] at h
  rcases h with h | ⟨-, h | ⟨hn, h⟩⟩
  · exact split?_alt_eq_some.mpr (.inl (splitWord?_append h r'))
  · have hfeed := splitWord?_append h r'
    rw [eq_of_split?_lit h] at hfeed ⊢
    exact split?_alt_eq_some.mpr (.inr ⟨rfl, split?_alt_eq_some.mpr (.inl hfeed)⟩)
  · have hreturn := splitWord?_append h r'
    rw [hs, eq_of_split?_lit h] at hn
    rw [eq_of_split?_lit h] at hreturn ⊢
    have hn' : (lit ['\r', '\n']).split? ('\r' :: r') = none := by
      rw [split?_return_feed, hr]
      exact (split?_return_feed r).mp hn
    exact split?_alt_eq_some.mpr (.inr ⟨rfl, split?_alt_eq_some.mpr (.inr ⟨hn', hreturn⟩)⟩)

/-- Where a stretch is not empty, the text behind does not matter for its first character. -/
theorem head?_append_congr (ht : t ≠ [] ∨ r'.head? = r.head?) :
    (t ++ r').head? = (t ++ r).head? := by
  cases t with
  | nil => simpa using ht
  | cons x t => rfl

/-- A comment, or nothing where there is none, is cut off again. -/
theorem split?_opt_comment_append (h : (opt comment).split? s = some (t, r))
    (hr : r'.head? = r.head?) : (opt comment).split? (t ++ r') = some (t, r') := by
  rcases split?_alt_eq_some.mp h with h | ⟨hn, h⟩
  · exact split?_alt_eq_some.mpr (.inl (split?_append_of_peeks (by decide) h (.inl hr)))
  · have ht : t = [] := eq_of_split?_lit h
    have hs := split?_eq_append h
    rw [ht, List.nil_append] at hs
    subst ht hs
    refine split?_alt_eq_some.mpr (.inr ⟨?_, rfl⟩)
    cases r' with
    | nil => rfl
    | cons x r' =>
      -- no comment begins with the first character
      cases s with
      | nil => simp at hr
      | cons y s =>
        obtain rfl : x = y := by simpa using hr
        by_cases hx : x = '!'
        · subst hx
          simp [comment, split?, splitWord?] at hn
        · exact split?_eq_none_of_rejects (by simp [comment, rejects, hx]) r'

/-- A line ends alike if it goes on alike. -/
theorem split?_lineEnd_append (h : lineEnd.split? s = some (t, r)) (hr : r'.head? = r.head?) :
    lineEnd.split? (t ++ r') = some (t, r') := by
  obtain ⟨b, q, k, m, l, hb, hk, hl, rfl⟩ := split?_lineEnd_eq_some.mp h
  have hne : l ≠ [] := ne_nil_of_consumes (by decide) hl
  have hm : (l ++ r').head? = m.head? := by
    rw [split?_eq_append hl]
    exact head?_append_congr (.inl hne)
  have hq : (k ++ (l ++ r')).head? = q.head? := by
    rw [split?_eq_append hk]
    exact head?_append_congr (.inr hm)
  refine split?_lineEnd_eq_some.mpr ⟨b, k ++ (l ++ r'), k, l ++ r', l, ?_, ?_, ?_, rfl⟩
  · rw [List.append_assoc, List.append_assoc]
    exact split?_run_append hb (.inl hq)
  · exact split?_opt_comment_append hk hm
  · exact split?_newline_append hl hr

/-- The mark at the end of a continuation ends no line. -/
theorem split?_lineEnd_mark {b : Text} (hb : ∀ x ∈ b, CharClass.blank.holds x) (r : Text) :
    lineEnd.split? (b ++ '&' :: r) = none := by
  have h₁ : (run .blank).split? (b ++ '&' :: r) = some (b, '&' :: r) :=
    split?_run_eq_some.mpr ⟨rfl, hb, by simp [CharClass.blank, CharClass.holds]⟩
  have h₂ : (opt comment).split? ('&' :: r) = some ([], '&' :: r) :=
    split?_alt_eq_some.mpr (.inr ⟨split?_eq_none_of_rejects (by decide) r, rfl⟩)
  have h₃ : (seq newline (lit [])).split? ('&' :: r) = none := by
    rw [split?, split?_eq_none_of_rejects (p := newline) (by decide), Option.bind_none]
  have h₄ : (seq (opt comment) (seq newline (lit []))).split? ('&' :: r) = none := by
    rw [split?, h₂, Option.bind_some, h₃, Option.map_none]
  have hline : lineEnd = seq (run .blank) (seq (opt comment) (seq newline (lit []))) := rfl
  rw [hline, split?, h₁, Option.bind_some, h₄, Option.map_none]

theorem split?_lineEnds_append {b : Text} (hb : ∀ x ∈ b, CharClass.blank.holds x)
    (h : (many lineEnd).split? s = some (t, b ++ '&' :: r)) (r' : Text) :
    (many lineEnd).split? (t ++ (b ++ '&' :: r')) = some (t, b ++ '&' :: r') := by
  refine many_induction (P := fun _ u v => v = b ++ '&' :: r →
    (many lineEnd).split? (u ++ (b ++ '&' :: r')) = some (u, b ++ '&' :: r'))
    (a := lineEnd) (by decide) (fun s _ _ => ?_) (fun s t r₁ u v ht hu ih hv => ?_) h rfl
  · exact split?_many_of_none (split?_lineEnd_mark hb r')
  · have hhead : (u ++ (b ++ '&' :: r')).head? = r₁.head? := by
      rw [split?_eq_append hu, hv]
      exact head?_append_congr (.inr (head?_append_congr (.inr rfl)))
    rw [List.append_assoc]
    exact split?_many_of_some (by decide) (split?_lineEnd_append ht hhead) (ih hv)

/-- A continuation ends with a mark of its own. -/
theorem split?_continuation_append (h : continuation.split? s = some (t, r)) (r' : Text) :
    continuation.split? (t ++ r') = some (t, r') := by
  obtain ⟨x, e, y, f, b, -, he, hf, hb, rfl⟩ := split?_continuation_eq_some.mp h
  have hhead : (f ++ (b ++ '&' :: r')).head? = y.head? := by
    rw [split?_eq_append hf]
    exact head?_append_congr (.inr (head?_append_congr (.inr rfl)))
  exact split?_continuation_eq_some.mpr ⟨e ++ (f ++ (b ++ '&' :: r')), e, _, f, b, by simp,
    split?_lineEnd_append he hhead, split?_lineEnds_append hb hf r', hb, rfl⟩

/-- A blank, a continuation or a comment is cut off again. -/
theorem split?_noiseItem_append (h : noiseItem.split? s = some (t, r)) (hr : r'.Replaces true r) :
    noiseItem.split? (t ++ r') = some (t, r') := by
  rcases split?_alt_eq_some.mp h with h | ⟨-, h⟩
  · refine split?_alt_eq_some.mpr (.inl ?_)
    rcases split?_alt_eq_some.mp h with h | ⟨-, h⟩
    · exact split?_alt_eq_some.mpr (.inl (split?_append_of_peeks rfl h (hr.mono fun _ => rfl)))
    · have hc := split?_continuation_append h r'
      have hblank : (one .blank).split? (t ++ r') = none :=
        apart_of_clashes (p := continuation) (by decide) _ (Option.isSome_of_eq_some hc)
      exact split?_alt_eq_some.mpr (.inr ⟨hblank, hc⟩)
  · have hc : comment.split? (t ++ r') = some (t, r') :=
      split?_append_of_peeks (by decide) h (hr.mono fun _ => by decide)
    have hblank : whitespace.split? (t ++ r') = none :=
      apart_of_clashes (p := comment) (by decide) _ (Option.isSome_of_eq_some hc)
    exact split?_alt_eq_some.mpr (.inr ⟨hblank, hc⟩)

/-- **Noise is noise again** if the text behind is replaced, and does not begin with noise. -/
theorem split?_noise_append (h : noise.split? s = some (t, r)) (hr : r'.Replaces true r)
    (hn : ∀ x ∈ r'.head?, x ∉ noiseMarks) : noise.split? (t ++ r') = some (t, r') := by
  refine many_induction (P := fun _ u v => v = r → noise.split? (u ++ r') = some (u, r'))
    (a := noiseItem) (by decide) (fun s _ _ => ?_) (fun s t r₁ u v ht hu ih hv => ?_) h rfl
  · exact split?_noise_of_notMem hn
  · have hrest : (u ++ r').Replaces true r₁ := by
      rw [split?_eq_append hu, hv]
      cases u with
      | nil => exact hr
      | cons x u => exact .inl rfl
    rw [List.append_assoc]
    exact split?_many_of_some (by decide) (split?_noiseItem_append ht hrest) (ih hv)

/-- At the end of a text, an item of noise is cut off again whatever follows.  A comment may go on
there. -/
theorem split?_noiseItem_extends (h : noiseItem.split? s = some (t, [])) (v : Text) :
    ∃ u z, noiseItem.split? (t ++ v) = some (t ++ u, z) := by
  rcases split?_alt_eq_some.mp h with hw | ⟨-, hc⟩
  · rcases split?_alt_eq_some.mp hw with hb | ⟨-, hc⟩
    · have hone : (one .blank).split? (t ++ v) = some (t, v) :=
        split?_append rfl hb (.inr (by simp [ahead]))
      have hblank : whitespace.split? (t ++ v) = some (t, v) :=
        split?_alt_eq_some.mpr (.inl hone)
      exact ⟨[], v, by rw [List.append_nil]; exact split?_alt_eq_some.mpr (.inl hblank)⟩
    · have hcont := split?_continuation_append hc v
      have hblank : (one .blank).split? (t ++ v) = none :=
        apart_of_clashes (p := continuation) (by decide) _ (Option.isSome_of_eq_some hcont)
      have hwhite : whitespace.split? (t ++ v) = some (t, v) :=
        split?_alt_eq_some.mpr (.inr ⟨hblank, hcont⟩)
      exact ⟨[], v, by rw [List.append_nil]; exact split?_alt_eq_some.mpr (.inl hwhite)⟩
  · obtain ⟨m, r, b, hm, hr, rfl⟩ := split?_seq_eq_some.mp hc
    obtain rfl : m = ['!'] := eq_of_split?_lit hm
    have hall := holds_of_run hr
    obtain ⟨⟨u, z⟩, hv⟩ : ∃ x, (run (.noneOf ['\n', '\r'])).split? v = some x := ⟨_, rfl⟩
    obtain ⟨huz, hu, hz⟩ := split?_run_eq_some.mp hv
    have hrun : (run (.noneOf ['\n', '\r'])).split? (b ++ v) = some (b ++ u, z) :=
      split?_run_eq_some.mpr ⟨by rw [huz, List.append_assoc],
        fun c hc => (List.mem_append.mp hc).elim (hall c) (hu c), hz⟩
    refine ⟨u, z, split?_alt_eq_some.mpr (.inr ⟨?_, ?_⟩)⟩
    · exact split?_eq_none_of_rejects (p := whitespace) (by decide) _
    · exact split?_seq_eq_some.mpr ⟨['!'], b ++ v, _, rfl, hrun, by simp⟩

/-- Whatever text follows, noise is cut off again, and maybe more of it. -/
theorem split?_noise_extends (h : noise.split? s = some (t, r)) (v : Text) :
    ∃ u z, noise.split? (s ++ v) = some (t ++ u, z) := by
  refine many_induction (P := fun s t _ => ∃ u z, noise.split? (s ++ v) = some (t ++ u, z))
    (a := noiseItem) (by decide) (fun s _ => ⟨_, _, rfl⟩) (fun s t r u w ht hu ih => ?_) h
  rw [split?_eq_append ht, List.append_assoc]
  cases r with
  | cons x r =>
    obtain ⟨y, z, hz⟩ := ih
    have hitem : noiseItem.split? (t ++ (x :: r ++ v)) = some (t, x :: r ++ v) :=
      split?_noiseItem_append ht (.inl rfl)
    exact ⟨y, z, by rw [List.append_assoc]; exact split?_many_of_some (by decide) hitem hz⟩
  | nil =>
    obtain ⟨rfl, rfl⟩ := List.append_eq_nil_iff.mp (split?_eq_append hu).symm
    obtain ⟨y, z, hitem⟩ := split?_noiseItem_extends ht v
    obtain ⟨⟨y', z'⟩, hz⟩ : ∃ x, noise.split? z = some x := ⟨_, rfl⟩
    refine ⟨y ++ y', z', ?_⟩
    rw [List.append_nil, List.nil_append, ← List.append_assoc]
    exact split?_many_of_some (by decide) hitem hz

end Pattern

/-- Every lexeme of the grammar is clear, looks one character ahead, and cannot go on at the end of
a line. -/
theorem Rule.cut_of_mem_lexemes {r : Rule} {p : Pattern} (hp : p ∈ r.production.lexemes) :
    p.isClear ∧ p.peeks ∧ p.halts := by
  have h : ∀ p ∈ r.production.lexemes, p.isClear ∧ p.peeks ∧ p.halts := by
    cases r <;> decide
  exact h p hp

end FreeForm
