import FreeForm.Proofs.TrailingNoise

/-!
# Which texts are noise

Noise is described here by what it consists of, without a scanner: blanks, comments up to the end
of their lines, and continuations, from an `&` over at least one line break to an `&`
(`Text.IsNoise`).  With line breaks between them this describes what may follow a statement.

The patterns for noise cut off just the texts described (`Pattern.split?_continuation_iff`,
`Pattern.split?_items_iff`).  A continuation is described by lines in any grouping, of which the
pattern finds one: it takes a carriage return with the line feed behind it, although each of the two
is a line break by itself (`Pattern.split?_lineEnds_flatten`).
-/

namespace FreeForm

namespace Text

/-! ## What noise consists of -/

/-- Blanks and tabs. -/
def IsBlanks (w : Text) : Prop := ∀ c ∈ w, c = ' ' ∨ c = '\t'

/-- An exclamation mark and what follows it on its line. -/
def IsComment (w : Text) : Prop := ∃ b, w = '!' :: b ∧ ∀ c ∈ b, c ≠ '\n' ∧ c ≠ '\r'

/-- A line feed, a carriage return with a line feed, or a lone carriage return. -/
def IsNewline (w : Text) : Prop := w = ['\n'] ∨ w = ['\r', '\n'] ∨ w = ['\r']

/-- A line without code, up to its line break: blanks, and a comment perhaps. -/
def IsCodelessLine (w : Text) : Prop :=
  ∃ b k l, IsBlanks b ∧ (k = [] ∨ IsComment k) ∧ IsNewline l ∧ w = b ++ (k ++ l)

/-- An `&`, the rest of its line and maybe further lines, all of them without code, and an `&`
behind blanks. -/
def IsContinuation (w : Text) : Prop :=
  ∃ ls b, ls ≠ [] ∧ (∀ l ∈ ls, IsCodelessLine l) ∧ IsBlanks b ∧
    w = '&' :: (ls.flatten ++ (b ++ ['&']))

/-- A blank, a comment up to the end of its line, or a continuation, in front of the text `r`; or a
character of a line break, if `breaks` allows it. -/
inductive IsNoiseItem (breaks : Bool) (r : Text) : Text → Prop
  | blank {c : Char} (hc : c = ' ' ∨ c = '\t') : IsNoiseItem breaks r [c]
  | comment {k : Text} (hk : IsComment k) (hr : r.AtLineEnd) : IsNoiseItem breaks r k
  | continuation {k : Text} (hk : IsContinuation k) : IsNoiseItem breaks r k
  | lineBreak {c : Char} (hb : breaks) (hc : c = '\n' ∨ c = '\r') : IsNoiseItem breaks r [c]

/-- A sequence of such items in front of the text `r`. -/
inductive IsNoise (breaks : Bool) (r : Text) : Text → Prop
  | nil : IsNoise breaks r []
  | cons {k w : Text} (hk : IsNoiseItem breaks (w ++ r) k) (hw : IsNoise breaks r w) :
    IsNoise breaks r (k ++ w)

variable {b k l r s t w x y : Text} {c : Char}

theorem blank_holds_iff : CharClass.blank.holds c ↔ c = ' ' ∨ c = '\t' := by
  simp [CharClass.blank, CharClass.holds]

theorem isBlanks_iff : IsBlanks w ↔ ∀ c ∈ w, CharClass.blank.holds c :=
  forall₂_congr fun _ _ => blank_holds_iff.symm

theorem IsNewline.head (h : IsNewline l) : ∃ c u, l = c :: u ∧ (c = '\n' ∨ c = '\r') := by
  rcases h with rfl | rfl | rfl
  · exact ⟨_, _, rfl, .inl rfl⟩
  · exact ⟨_, _, rfl, .inr rfl⟩
  · exact ⟨_, _, rfl, .inr rfl⟩

theorem IsNewline.atLineEnd (h : IsNewline l) (r : Text) : (l ++ r).AtLineEnd := by
  obtain ⟨c, u, rfl, hc⟩ := h.head
  intro x hx
  obtain rfl : c = x := Option.some.inj hx
  rcases hc with rfl | rfl <;> decide

theorem IsCodelessLine.ne_nil (h : IsCodelessLine l) : l ≠ [] := by
  obtain ⟨b, k, n, -, -, hn, rfl⟩ := h
  obtain ⟨c, u, rfl, -⟩ := hn.head
  simp

/-- A line without code that begins with a line feed is this line feed. -/
theorem IsCodelessLine.eq_of_feed (h : IsCodelessLine ('\n' :: l)) : l = [] := by
  obtain ⟨b, k, n, hb, hk, hn, hl⟩ := h
  cases b with
  | cons c b =>
    have hc := hb c List.mem_cons_self
    rw [← (List.cons.inj hl).1] at hc
    exact absurd hc (by decide)
  | nil =>
    rcases hk with rfl | ⟨k, rfl, -⟩
    · rcases hn with rfl | rfl | rfl
      · exact (List.cons.inj hl).2
      · exact absurd (List.cons.inj hl).1 (by decide)
      · exact absurd (List.cons.inj hl).1 (by decide)
    · exact absurd (List.cons.inj hl).1 (by decide)

/-- Comments have no line breaks. -/
theorem IsComment.not_lineBreak (h : IsComment k) (hc : c ∈ k) : ¬(c = '\n' ∨ c = '\r') := by
  obtain ⟨b, rfl, hb⟩ := h
  rcases List.mem_cons.mp hc with rfl | hc
  · decide
  · exact not_or.mpr (hb c hc)

theorem isNoiseItem_true_iff : IsNoiseItem true r k ↔
    IsNoiseItem false r k ∨ ∃ c, k = [c] ∧ (c = '\n' ∨ c = '\r') := by
  constructor
  · intro h
    cases h with
    | blank hc => exact .inl (.blank hc)
    | comment hk hr => exact .inl (.comment hk hr)
    | continuation hk => exact .inl (.continuation hk)
    | lineBreak _ hc => exact .inr ⟨_, rfl, hc⟩
  · rintro (h | ⟨c, rfl, hc⟩)
    · cases h with
      | blank hc => exact .blank hc
      | comment hk hr => exact .comment hk hr
      | continuation hk => exact .continuation hk
      | lineBreak hb _ => exact absurd hb (by decide)
    · exact .lineBreak rfl hc

/-- Without line breaks between the items, every line break in noise is inside a continuation. -/
theorem IsNoise.exists_continuation (h : IsNoise false r w) (hw : w = x ++ c :: y)
    (hc : c = '\n' ∨ c = '\r') :
    ∃ a b d e, x = a ++ b ∧ y = d ++ e ∧ IsContinuation (b ++ c :: d) := by
  induction h generalizing x with
  | nil => simp at hw
  | @cons k w hk _ ih =>
    rcases List.append_eq_append_iff.mp hw with ⟨x', rfl, hx'⟩ | ⟨z, rfl, hz⟩
    · obtain ⟨a, b, d, e, rfl, rfl, hcont⟩ := ih hx'
      exact ⟨k ++ a, b, d, e, (List.append_assoc ..).symm, rfl, hcont⟩
    cases z with
    | nil =>
      obtain ⟨a, b, d, e, ha, rfl, hcont⟩ := ih (x := []) (by simpa using hz.symm)
      obtain ⟨-, rfl⟩ := List.append_eq_nil_iff.mp ha.symm
      exact ⟨x, [], d, e, by simp, rfl, hcont⟩
    | cons c' z =>
      -- the line break is in the first item
      obtain ⟨rfl, rfl⟩ := List.cons.inj hz
      have hmem : c ∈ x ++ c :: z := List.mem_append_right _ List.mem_cons_self
      generalize hxz : x ++ c :: z = k at hk hmem
      cases hk with
      | blank hblank =>
        rw [List.mem_singleton.mp hmem] at hc
        rcases hblank with rfl | rfl <;> exact absurd hc (by decide)
      | comment hk _ => exact absurd hc (hk.not_lineBreak hmem)
      | continuation hk => exact ⟨[], x, z, w, rfl, rfl, hxz ▸ hk⟩
      | lineBreak hb _ => exact absurd hb (by decide)

end Text

namespace Pattern

open Text

variable {b k l r s t w x y z : Text} {ls : List Text} {breaks : Bool}

/-! ## Lines without code -/

theorem split?_newline_of_feed (r : Text) : newline.split? ('\n' :: r) = some (['\n'], r) := rfl

theorem split?_newline_of_pair (r : Text) :
    newline.split? ('\r' :: '\n' :: r) = some (['\r', '\n'], r) := rfl

theorem split?_newline_of_return (h : r.head? ≠ some '\n') :
    newline.split? ('\r' :: r) = some (['\r'], r) := by
  refine split?_alt_eq_some.mpr (.inr ⟨rfl, split?_alt_eq_some.mpr (.inr ⟨?_, rfl⟩)⟩)
  exact (split?_return_feed r).mpr h

theorem isNewline_of_split? (h : newline.split? s = some (l, r)) : IsNewline l := by
  rw [newline, split?_alt_eq_some, split?_alt_eq_some] at h
  rcases h with h | ⟨-, h | ⟨-, h⟩⟩
  · exact .inl (eq_of_split?_lit h)
  · exact .inr (.inl (eq_of_split?_lit h))
  · exact .inr (.inr (eq_of_split?_lit h))

theorem split?_comment_iff :
    comment.split? s = some (k, r) ↔ s = k ++ r ∧ IsComment k ∧ r.AtLineEnd := by
  have holds : ∀ c, (CharClass.noneOf ['\n', '\r']).holds c ↔ c ≠ '\n' ∧ c ≠ '\r' := by
    simp [CharClass.holds]
  constructor
  · intro h
    obtain ⟨m, x, b, hm, hb, rfl⟩ := split?_seq_eq_some.mp h
    obtain rfl : m = ['!'] := eq_of_split?_lit hm
    refine ⟨split?_eq_append h, ⟨b, rfl, fun c hc => (holds c).mp (holds_of_run hb c hc)⟩, ?_⟩
    intro x hx
    have hnot := not_holds_of_run hb x hx
    rw [holds, ← not_or, not_not] at hnot
    simpa [lineEnds] using hnot
  · rintro ⟨rfl, ⟨b, rfl, hb⟩, hr⟩
    have hall : ∀ c ∈ b, (CharClass.noneOf ['\n', '\r']).holds c := fun c hc =>
      (holds c).mpr (hb c hc)
    have hcut : (run (.noneOf ['\n', '\r'])).split? (b ++ r) = some (b, r) :=
      split?_run_eq_some.mpr ⟨rfl, hall, CharClass.not_holds_of_withinLine (by decide) hr⟩
    exact split?_seq_eq_some.mpr ⟨['!'], b ++ r, b, rfl, hcut, rfl⟩

theorem isCodelessLine_of_split? (h : lineEnd.split? s = some (t, r)) : IsCodelessLine t := by
  obtain ⟨b, q, k, m, l, hb, hk, hl, rfl⟩ := split?_lineEnd_eq_some.mp h
  refine ⟨b, k, l, isBlanks_iff.mpr (holds_of_run hb), ?_, isNewline_of_split? hl, rfl⟩
  rcases split?_alt_eq_some.mp hk with hk | ⟨-, hk⟩
  · exact .inr (split?_comment_iff.mp hk).2.1
  · exact .inl (eq_of_split?_lit hk)

/-- A line without code is cut off where its line break is. -/
theorem split?_lineEnd_of_newline (hb : IsBlanks b) (hk : k = [] ∨ IsComment k)
    (hn : IsNewline l) (hl : newline.split? (l ++ r) = some (l, r)) :
    lineEnd.split? (b ++ (k ++ l) ++ r) = some (b ++ (k ++ l), r) := by
  have hend : (l ++ r).AtLineEnd := hn.atLineEnd r
  refine split?_lineEnd_eq_some.mpr ⟨b, k ++ (l ++ r), k, l ++ r, l, ?_, ?_, hl, rfl⟩
  · have hstop : ∀ x ∈ (k ++ (l ++ r)).head?, ¬CharClass.blank.holds x := by
      rcases hk with rfl | ⟨k, rfl, -⟩
      · exact CharClass.not_holds_of_withinLine (by decide) hend
      · intro x hx
        obtain rfl : '!' = x := Option.some.inj hx
        decide
    exact split?_run_eq_some.mpr ⟨by simp, isBlanks_iff.mp hb, hstop⟩
  · rcases hk with rfl | hk
    · refine split?_alt_eq_some.mpr (.inr ⟨?_, rfl⟩)
      obtain ⟨c, u, rfl, hc⟩ := hn.head
      exact split?_eq_none_of_rejects (by rcases hc with rfl | rfl <;> decide) _
    · exact split?_alt_eq_some.mpr (.inl (split?_comment_iff.mpr ⟨rfl, hk, hend⟩))

/-- Lines without code are cut off all together, however they are grouped: a line that ends in a
carriage return is cut off with the empty line behind it, if that one ends in a line feed. -/
theorem split?_lineEnds_flatten (hls : ∀ l ∈ ls, IsCodelessLine l)
    (hz : lineEnd.split? z = none) (hhead : z.head? ≠ some '\n') :
    (many lineEnd).split? (ls.flatten ++ z) = some (ls.flatten, z) := by
  induction hn : ls.length using Nat.strongRecOn generalizing ls with
  | ind n ih =>
    cases ls with
    | nil => exact split?_many_of_none hz
    | cons l ls =>
      obtain ⟨b, k, e, hb, hk, he, rfl⟩ := hls l List.mem_cons_self
      have htail : ∀ l ∈ ls, IsCodelessLine l := fun l hl => hls l (List.mem_cons_of_mem _ hl)
      have step : newline.split? (e ++ (ls.flatten ++ z)) = some (e, ls.flatten ++ z) →
          (many lineEnd).split? ((b ++ (k ++ e)) ++ (ls.flatten ++ z)) =
            some ((b ++ (k ++ e)) ++ ls.flatten, z) := by
        intro h
        refine split?_many_of_some (by decide) (split?_lineEnd_of_newline hb hk he h) ?_
        exact ih ls.length (by rw [← hn, List.length_cons]; omega) htail rfl
      rw [List.flatten_cons, List.append_assoc]
      rcases he with rfl | rfl | rfl
      · exact step (split?_newline_of_feed _)
      · exact step (split?_newline_of_pair _)
      by_cases hfeed : (ls.flatten ++ z).head? = some '\n'
      · -- the line feed makes up the whole next line
        cases ls with
        | nil => exact absurd hfeed hhead
        | cons l' ls =>
          have hl' := htail l' List.mem_cons_self
          obtain ⟨c, u, rfl⟩ := List.exists_cons_of_ne_nil hl'.ne_nil
          obtain rfl : c = '\n' := Option.some.inj hfeed
          obtain rfl : u = [] := hl'.eq_of_feed
          have hrest := ih ls.length (by rw [← hn, List.length_cons, List.length_cons]; omega)
            (fun l hl => htail l (List.mem_cons_of_mem _ hl)) rfl
          have hpair : IsNewline ['\r', '\n'] := .inr (.inl rfl)
          have hline := split?_lineEnd_of_newline hb hk hpair
            (split?_newline_of_pair (ls.flatten ++ z))
          simpa using split?_many_of_some (by decide) hline hrest
      · exact step (split?_newline_of_return hfeed)

/-- **A continuation is cut off where a text begins with one.** -/
theorem split?_continuation_iff :
    continuation.split? s = some (k, r) ↔ s = k ++ r ∧ IsContinuation k := by
  constructor
  · intro h
    refine ⟨split?_eq_append h, ?_⟩
    obtain ⟨x, e, y, f, b, -, he, hf, hb, rfl⟩ := split?_continuation_eq_some.mp h
    have lines : ∃ ls : List Text, f = ls.flatten ∧ ∀ l ∈ ls, IsCodelessLine l := by
      refine many_induction (P := fun _ f _ => ∃ ls : List Text, f = ls.flatten ∧
        ∀ l ∈ ls, IsCodelessLine l) (a := lineEnd) (by decide) ?_ ?_ hf
      · exact fun _ _ => ⟨[], rfl, by simp⟩
      · rintro s t r u v ht - ⟨ls, rfl, hls⟩
        exact ⟨t :: ls, rfl, List.forall_mem_cons.mpr ⟨isCodelessLine_of_split? ht, hls⟩⟩
    obtain ⟨ls, rfl, hls⟩ := lines
    refine ⟨e :: ls, b, List.cons_ne_nil _ _, ?_, isBlanks_iff.mpr hb, by simp⟩
    exact List.forall_mem_cons.mpr ⟨isCodelessLine_of_split? he, hls⟩
  · rintro ⟨rfl, ls, b, hne, hls, hb, rfl⟩
    have hblanks := isBlanks_iff.mp hb
    have hhead : (b ++ '&' :: r).head? ≠ some '\n' := by
      cases b with
      | nil => simp
      | cons c b =>
        have hc := hb c List.mem_cons_self
        rw [List.cons_append, List.head?_cons]
        rintro ⟨rfl⟩
        exact absurd hc (by decide)
    have hmany := split?_lineEnds_flatten hls (split?_lineEnd_mark hblanks r) hhead
    cases hfirst : lineEnd.split? (ls.flatten ++ (b ++ '&' :: r)) with
    | none =>
      rw [split?_many_of_none hfirst, Option.some.injEq, Prod.mk.injEq] at hmany
      obtain ⟨l, ls, rfl⟩ := List.exists_cons_of_ne_nil hne
      have hnil := (List.append_eq_nil_iff.mp hmany.1.symm).1
      exact absurd hnil (hls l List.mem_cons_self).ne_nil
    | some x =>
      obtain ⟨e, y⟩ := x
      obtain ⟨⟨f, v⟩, hf⟩ : ∃ f, (many lineEnd).split? y = some f := ⟨_, rfl⟩
      rw [split?_many_of_some (by decide) hfirst hf, Option.some.injEq, Prod.mk.injEq] at hmany
      obtain ⟨hef, rfl⟩ := hmany
      refine split?_continuation_eq_some.mpr ⟨_, e, y, f, b, ?_, hfirst, hf, hblanks, ?_⟩
      · simp
      · rw [← hef]
        simp

/-! ## Sequences of items -/

theorem split?_noiseItem_iff :
    noiseItem.split? s = some (k, r) ↔ s = k ++ r ∧ IsNoiseItem false r k := by
  constructor
  · intro h
    refine ⟨split?_eq_append h, ?_⟩
    rcases split?_alt_eq_some.mp h with h | ⟨-, h⟩
    · rcases split?_alt_eq_some.mp h with h | ⟨-, h⟩
      · obtain ⟨c, hc, rfl, -⟩ := split?_one_eq_some.mp h
        exact .blank (blank_holds_iff.mp hc)
      · exact .continuation (split?_continuation_iff.mp h).2
    · obtain ⟨-, hk, hr⟩ := split?_comment_iff.mp h
      exact .comment hk hr
  · rintro ⟨rfl, h⟩
    cases h with
    | blank hc =>
      refine split?_alt_eq_some.mpr (.inl (split?_alt_eq_some.mpr (.inl ?_)))
      exact if_pos (blank_holds_iff.mpr hc)
    | comment hk hr =>
      have hcomment := split?_comment_iff.mpr ⟨rfl, hk, hr⟩
      refine split?_alt_eq_some.mpr (.inr ⟨?_, hcomment⟩)
      exact apart_of_clashes (p := comment) (by decide) _ (Option.isSome_of_eq_some hcomment)
    | continuation hk =>
      have hcont := split?_continuation_iff (r := r).mpr ⟨rfl, hk⟩
      refine split?_alt_eq_some.mpr (.inl (split?_alt_eq_some.mpr (.inr ⟨?_, hcont⟩)))
      exact apart_of_clashes (p := continuation) (by decide) _ (Option.isSome_of_eq_some hcont)
    | lineBreak hb => exact absurd hb (by decide)

/-- The pattern of one item of noise, or of what may follow a statement. -/
def item (breaks : Bool) : Pattern := if breaks then trailingItem else noiseItem

theorem consumes_item (breaks : Bool) : (item breaks).consumes := by cases breaks <;> decide

theorem split?_item_iff :
    (item breaks).split? s = some (k, r) ↔ s = k ++ r ∧ IsNoiseItem breaks r k := by
  cases breaks with
  | false => exact split?_noiseItem_iff
  | true =>
    have hbreak : ∀ c, CharClass.lineBreak.holds c ↔ c = '\n' ∨ c = '\r' := by
      simp [CharClass.lineBreak, CharClass.holds]
    constructor
    · intro h
      refine ⟨split?_eq_append h, ?_⟩
      rcases split?_alt_eq_some.mp h with h | ⟨-, h⟩
      · exact isNoiseItem_true_iff.mpr (.inl (split?_noiseItem_iff.mp h).2)
      · obtain ⟨c, hc, rfl, -⟩ := split?_one_eq_some.mp h
        exact .lineBreak rfl ((hbreak c).mp hc)
    · rintro ⟨rfl, h⟩
      rcases isNoiseItem_true_iff.mp h with h | ⟨c, rfl, hc⟩
      · exact split?_alt_eq_some.mpr (.inl (split?_noiseItem_iff.mpr ⟨rfl, h⟩))
      · have hone : (one .lineBreak).split? ([c] ++ r) = some ([c], r) :=
          if_pos ((hbreak c).mpr hc)
        have hapart : (one .lineBreak).Apart noiseItem := apart_oneOf (by decide)
        exact split?_alt_eq_some.mpr (.inr ⟨hapart _ (Option.isSome_of_eq_some hone), hone⟩)

/-- Items are cut off all together, and with them those that follow. -/
theorem split?_items_append (h : IsNoise breaks r w)
    (hr : (many (item breaks)).split? r = some (x, y)) :
    (many (item breaks)).split? (w ++ r) = some (w ++ x, y) := by
  induction h with
  | nil => exact hr
  | cons hk _ ih =>
    rw [List.append_assoc, List.append_assoc]
    exact split?_many_of_some (consumes_item breaks) (split?_item_iff.mpr ⟨rfl, hk⟩) ih

/-- **A sequence of items is cut off, as long as there are any.** -/
theorem split?_items_iff : (many (item breaks)).split? s = some (w, r) ↔
    s = w ++ r ∧ IsNoise breaks r w ∧ ∀ k t, r = k ++ t → ¬IsNoiseItem breaks t k := by
  constructor
  · intro h
    refine ⟨split?_eq_append h, ?_, ?_⟩
    · refine many_induction (P := fun _ w r => IsNoise breaks r w) (consumes_item breaks)
        (fun _ _ => .nil) ?_ h
      intro s t r u v ht hu ih
      rw [split?_item_iff, split?_eq_append hu] at ht
      exact .cons ht.2 ih
    · intro k t hkt hk
      have hnone := split?_eq_none_of_many (consumes_item breaks) h
      rw [split?_item_iff.mpr ⟨hkt, hk⟩] at hnone
      exact absurd hnone (by simp)
  · rintro ⟨rfl, hw, hr⟩
    have hnone : (item breaks).split? r = none := by
      cases hx : (item breaks).split? r with
      | none => rfl
      | some x =>
        obtain ⟨hkt, hk⟩ := split?_item_iff.mp hx
        exact absurd hk (hr _ _ hkt)
    simpa using split?_items_append hw (split?_many_of_none hnone)

end Pattern

/-! ## All the noise at a place -/

/-- `w` is noise in front of `r`, with line breaks in continuations only, and no more noise follows:
neither a blank nor a comment nor a continuation begins `r`, and no noise at the front of the text
is longer. -/
structure Text.IsAllNoise (w r : Text) : Prop where
  noise : IsNoise false r w
  breaks : ∀ x c y, w = x ++ c :: y → c = '\n' ∨ c = '\r' →
    ∃ a b d e, x = a ++ b ∧ y = d ++ e ∧ IsContinuation (b ++ c :: d)
  next : ∀ c ∈ r.head?, c ≠ ' ' ∧ c ≠ '\t' ∧ c ≠ '!'
  no_continuation : ∀ k t, r = k ++ t → ¬IsContinuation k
  longest : ∀ w' r', w ++ r = w' ++ r' → IsNoise false r' w' → w' <+: w

/-- What the pattern cuts off is all the noise at the front of a text. -/
theorem Pattern.isAllNoise_of_split? {s w r : Text} (h : noise.split? s = some (w, r)) :
    w.IsAllNoise r := by
  have hs := split?_eq_append h
  have hitems : (many (item false)).split? s = some (w, r) := h
  obtain ⟨-, hw, hr⟩ := split?_items_iff.mp hitems
  refine ⟨hw, fun x c y hx hc => hw.exists_continuation hx hc, ?_, ?_, ?_⟩
  · intro c hc
    obtain ⟨t, rfl⟩ := List.head?_eq_some_iff.mp hc
    refine ⟨?_, ?_, ?_⟩
    · rintro rfl
      exact hr [' '] t rfl (.blank (.inl rfl))
    · rintro rfl
      exact hr ['\t'] t rfl (.blank (.inr rfl))
    · rintro rfl
      have hnone := (split?_eq_none_of_noise h).2
      simp [comment, split?, splitWord?] at hnone
  · exact fun k t hkt hk => hr k t hkt (.continuation hk)
  · intro w' r' happ hw'
    obtain ⟨⟨x, y⟩, hx⟩ : ∃ x, noise.split? r' = some x := ⟨_, rfl⟩
    have hall := Pattern.split?_items_append hw' hx
    rw [← happ, ← hs] at hall
    obtain ⟨rfl, -⟩ := Prod.mk.inj (Option.some.inj (h.symm.trans hall))
    exact List.prefix_append w' x

open Text in
/-- **Skipping noise passes all the noise at a place, and nothing else.**  An offset that is no
character boundary stays as it is.  From any other place it leads behind all the noise there, where
it stays, and what is passed between the parts of a rule is the same. -/
theorem skipNoise_exact (s : Text) :
    (∀ n, (∀ u v, s = u ++ v → size u ≠ n) → skipNoise s n = n) ∧
      ∀ u v, s = u ++ v → ∃ w r, v = w ++ r ∧ w.IsAllNoise r ∧
        skipNoise s (size u) = size (u ++ w) ∧ skipNoise s (size (u ++ w)) = size (u ++ w) ∧
        ∀ stop, Cursor.skipGap ⟨v, size u, stop⟩ = ⟨r, size (u ++ w), stop⟩ := by
  constructor
  · intro n hn
    have hdrop : s.dropBytes? n = none := by
      cases hr : s.dropBytes? n with
      | none => rfl
      | some r =>
        obtain ⟨t, hs, ht⟩ := eq_append_of_dropBytes? hr
        exact absurd ht (hn t r hs)
    rw [skipNoise, hdrop]
    rfl
  · rintro u v rfl
    have skip : ∀ x y z t : Text, u ++ v = x ++ y → Pattern.noise.split? y = some (z, t) →
        skipNoise (u ++ v) (size x) = size (x ++ z) := by
      intro x y z t hxy hz
      rw [hxy, skipNoise, dropBytes?_size_append, Option.bind_some, Pattern.width?, hz, size_append]
      rfl
    obtain ⟨⟨w, r⟩, hw⟩ : ∃ x, Pattern.noise.split? v = some x := ⟨_, rfl⟩
    have hv := Pattern.split?_eq_append hw
    refine ⟨w, r, hv, Pattern.isAllNoise_of_split? hw, skip u v w r rfl hw, ?_, fun stop => ?_⟩
    · have hstay := skip (u ++ w) r [] r (by rw [hv, List.append_assoc])
        (Pattern.split?_noise_of_noise hw)
      rwa [List.append_nil] at hstay
    · rw [size_append]
      exact Cursor.skipGap_of_noise (c := ⟨v, size u, stop⟩) hw

open Text in
/-- Inside a character nothing is skipped.  Behind it a blank and a continuation over two lines are,
up to a line break that no continuation holds. -/
theorem skipNoise_of_continued_line :
    let v : Text := [' ', '&', '!', '\r', '\n', '\t', '\r', '&', '\n', '!']
    let s : Text := 'é' :: v
    skipNoise s 1 = 1 ∧ skipNoise s 2 = 10 ∧
      ∃ w r, v = w ++ r ∧ w.IsAllNoise r ∧ skipNoise s 2 = size ('é' :: w) ∧
        skipNoise s (size ('é' :: w)) = size ('é' :: w) ∧
        ∀ stop, Cursor.skipGap ⟨v, 2, stop⟩ = ⟨r, size ('é' :: w), stop⟩ := by
  intro v s
  obtain ⟨hout, hin⟩ := skipNoise_exact s
  refine ⟨hout 1 fun x y hxy => ?_, by decide, hin ['é'] v rfl⟩
  cases x with
  | nil => decide
  | cons c x =>
    obtain rfl : 'é' = c := (List.cons.inj hxy).1
    have hsize : 'é'.utf8Size = 2 := by decide
    rw [size_cons, hsize]
    omega

end FreeForm
