import FreeForm.Proofs.Context
import FreeForm.Proofs.FirstLexemes
import FreeForm.Proofs.LexemeHeads

/-!
# What follows a rule

Which way a run takes depends on a few characters in front of it.  `Rule.follow` lists the lexemes
that stand behind a match of a rule in a derivation that is not at its end, and `Cursor.Followed`
says that such a lexeme stands behind a place, or that the line ends there.

`Phrase.Decided` asks of each choice in a phrase that the alternatives before the one of a
derivation are not found, given what follows.  For most choices the heads of the lexemes show
this, and then it is computed (`Phrase.decided_of_settles`).
-/

namespace FreeForm

/-! ## Lexemes that open a part of the text -/

/-- The characters that end a line. -/
def Pattern.lineEnds : List Char := ['\n', '\r']

/-- The text is at its end, or a line of it is. -/
def Text.AtLineEnd (s : Text) : Prop := ∀ x ∈ s.head?, x ∈ Pattern.lineEnds

/-- The class of the characters with which no lexeme begins. -/
def CharClass.idle : CharClass := .oneOf (Pattern.noiseMarks ++ Pattern.lineEnds)

theorem CharClass.idle_holds {x : Char} :
    CharClass.idle.holds x ↔ x ∈ Pattern.noiseMarks ∨ x ∈ Pattern.lineEnds := by
  rw [idle, holds, List.contains_iff_mem, List.mem_append]

namespace Pattern

/-- Whether a pattern takes some character, and begins neither like noise nor like a line break. -/
def isClear (p : Pattern) : Bool := p.consumes && p.bars [.idle]

theorem consumes_of_isClear {p : Pattern} (h : p.isClear) : p.consumes := by
  simp only [isClear, Bool.and_eq_true] at h
  exact h.1

/-- Whether no text begins with a pattern of each list. -/
def allClash (ps qs : List Pattern) : Bool := ps.all fun p => qs.all p.clashes

end Pattern

namespace Cursor

variable {c d : Cursor} {p : Pattern} {ps qs : List Pattern} {h : List CharClass}

/-- One of the patterns applies behind the noise. -/
def Opens (c : Cursor) (ps : List Pattern) : Prop :=
  ∃ p ∈ ps, (p.split? c.skipGap.rest).isSome

/-- Behind the noise the line ends, or one of the patterns applies. -/
def Followed (c : Cursor) (ps : List Pattern) : Prop :=
  c.skipGap.rest.AtLineEnd ∨ c.Opens ps

theorem Opens.mono (h : c.Opens ps) (hpq : ∀ p ∈ ps, p ∈ qs) : c.Opens qs := by
  obtain ⟨p, hp, hs⟩ := h
  exact ⟨p, hpq p hp, hs⟩

theorem Followed.mono (h : c.Followed ps) (hpq : ∀ p ∈ ps, p ∈ qs) : c.Followed qs :=
  h.imp_right fun k => k.mono hpq

theorem Opens.congr (h : c.Opens ps) (hcd : c.skipGap.rest = d.skipGap.rest) : d.Opens ps := by
  obtain ⟨p, hp, hs⟩ := h
  exact ⟨p, hp, hcd ▸ hs⟩

theorem Followed.congr (h : c.Followed ps) (hcd : c.skipGap.rest = d.skipGap.rest) :
    d.Followed ps := by
  rcases h with h | h
  · exact .inl (hcd ▸ h)
  · exact .inr (h.congr hcd)

theorem rest_skipGap_skip {skip : Cursor → Cursor} (hs : Spacing skip) (c : Cursor) :
    (skip c).skipGap.rest = c.skipGap.rest := by
  cases hs with
  | compact => rfl
  | spaced => rw [skipGap_skipGap]

/-- Where the first character is not idle, there is no noise, and the line goes on. -/
theorem stands (hne : c.rest ≠ []) (hn : ¬Pattern.fits [.idle] c.rest) :
    c.skipGap.rest = c.rest ∧ ¬c.rest.AtLineEnd := by
  obtain ⟨x, s, hrest⟩ := List.exists_cons_of_ne_nil hne
  rw [hrest] at hn
  simp only [Pattern.fits, Bool.and_true, CharClass.idle_holds, not_or] at hn
  have hhead : c.rest.head? = some x := by rw [hrest, List.head?_cons]
  refine ⟨rest_skipGap_of_notMem fun y hy => ?_, fun hl => ?_⟩
  · rw [hhead, Option.mem_some_iff] at hy
    exact hy ▸ hn.1
  · exact hn.2 (hl x hhead)

theorem stands_of_isClear (hp : p.isClear) (hs : (p.split? c.rest).isSome) :
    c.skipGap.rest = c.rest ∧ ¬c.rest.AtLineEnd := by
  simp only [Pattern.isClear, Bool.and_eq_true] at hp
  refine stands (fun hnil => ?_) fun hf => ?_
  · rw [hnil, Pattern.split?_nil_of_consumes hp.1] at hs
    exact absurd hs (by simp)
  · rw [Pattern.split?_eq_none_of_bars hp.2 hf] at hs
    exact absurd hs (by simp)

theorem head_of_isClear (hp : p.isClear) (h : (p.split? c.rest).isSome) :
    ∀ x ∈ c.rest.head?, x ∉ Pattern.noiseMarks := by
  simp only [Pattern.isClear, Bool.and_eq_true] at hp
  intro x hx hm
  obtain ⟨s, hs⟩ := List.head?_eq_some_iff.mp hx
  have hfits : Pattern.fits [.idle] c.rest := by
    rw [hs, Pattern.fits, Bool.and_eq_true, CharClass.idle_holds]
    exact ⟨.inl hm, Pattern.fits_nil s⟩
  rw [Pattern.split?_eq_none_of_bars hp.2 hfits] at h
  exact absurd h (by simp)

/-- Where a clear lexeme is passed, no noise stands. -/
theorem skipGap_of_token? (hp : p.isClear) (h : c.token? p = some d) : c.skipGap = c := by
  obtain ⟨w, hw, -⟩ := passes_of_token? h
  exact skipGap_eq_self (stands_of_isClear hp (Option.isSome_of_eq_some hw)).1

theorem stands_of_fits (hh : Pattern.clash h [.idle]) (hc : Pattern.fits h c.rest) :
    c.skipGap.rest = c.rest ∧ ¬c.rest.AtLineEnd := by
  refine stands (fun hnil => ?_) (Pattern.not_fits_of_clash hh hc)
  cases h with
  | nil => simp [Pattern.clash] at hh
  | cons k h => simp [hnil, Pattern.fits] at hc

/-- What is opened by one list of patterns is not opened by a list that clashes with it. -/
theorem Opens.not_opens (h : c.Opens ps) (hpq : Pattern.allClash ps qs) : ¬c.Opens qs := by
  obtain ⟨p, hp, hs⟩ := h
  rintro ⟨q, hq, hqs⟩
  have hc := List.all_eq_true.mp (List.all_eq_true.mp hpq p hp) q hq
  rw [Pattern.apart_of_clashes hc _ hs] at hqs
  exact absurd hqs (by simp)

theorem Opens.not_followed (h : c.Opens ps) (hps : ps.all Pattern.isClear)
    (hpq : Pattern.allClash ps qs) : ¬c.Followed qs := by
  rintro (hl | hq)
  · obtain ⟨p, hp, hs⟩ := h
    have hss : (p.split? c.skipGap.skipGap.rest).isSome := by rwa [skipGap_skipGap]
    rw [skipGap_skipGap] at hss
    exact (stands_of_isClear (List.all_eq_true.mp hps p hp) hs).2 hl
  · exact h.not_opens hpq hq

/-- Where a head stands that all patterns bar, none of them follows. -/
theorem not_followed_of_fits (hh : Pattern.clash h [.idle]) (hqs : qs.all (·.bars h))
    (hc : Pattern.fits h c.rest) : ¬c.Followed qs := by
  obtain ⟨hgap, hl⟩ := stands_of_fits hh hc
  rintro (hl' | ⟨q, hq, hs⟩)
  · exact hl (hgap ▸ hl')
  · rw [hgap, Pattern.split?_eq_none_of_bars (List.all_eq_true.mp hqs q hq) hc] at hs
    exact absurd hs (by simp)

end Cursor

/-! ## What opens a phrase -/

/-- Every rule begins with clear lexemes. -/
theorem Rule.isClear_of_mem_firstLexemes (r : Rule) : r.firstLexemes.all Pattern.isClear := by
  cases r <;> decide

theorem Rule.mem_firstLexemes_of_mem_lateLexemes {r : Rule} {p : Pattern}
    (hp : p ∈ r.lateLexemes) : p ∈ r.firstLexemes := by
  have h : ∀ p ∈ r.lateLexemes, p ∈ r.firstLexemes := by cases r <;> decide
  exact h p hp

namespace Phrase

/-- The lexemes with which a phrase begins. -/
def openers (a : Phrase) : List Pattern := a.firstLexemes Rule.firstLexemes

theorem mem_openers_of_mem_lateLexemes {a : Phrase} {gaps : Bool} {p : Pattern}
    (hp : p ∈ a.lateLexemes Rule.firstLexemes Rule.lateLexemes gaps) : p ∈ a.openers := by
  induction a with
  | token q => exact absurd hp List.not_mem_nil
  | call r => exact Rule.mem_firstLexemes_of_mem_lateLexemes hp
  | seq a b iha ihb =>
    rw [openers, firstLexemes]
    simp only [lateLexemes, List.mem_append] at hp
    rcases hp with hp | hp
    · exact List.mem_append_left _ (iha hp)
    · split at hp
      · exact absurd hp List.not_mem_nil
      · rename_i hc
        rw [if_neg hc]
        rcases List.mem_append.mp hp with hp | hp
        · exact List.mem_append_right _ (ihb hp)
        · split at hp
          · exact List.mem_append_right _ hp
          · exact absurd hp List.not_mem_nil
  | alt a b iha ihb =>
    rcases List.mem_append.mp hp with hp | hp
    · exact List.mem_append_left _ (iha hp)
    · exact List.mem_append_right _ (ihb hp)
  | opt a ih => exact ih hp
  | many a ih =>
    rcases List.mem_append.mp hp with hp | hp
    · exact ih hp
    · split at hp
      · exact hp
      · exact absurd hp List.not_mem_nil

end Phrase

theorem Spacing.exists_gaps {skip : Cursor → Cursor} (hs : Spacing skip) :
    ∃ gaps, skip = skipWhen gaps := by
  cases hs with
  | compact => exact ⟨false, rfl⟩
  | spaced => exact ⟨true, rfl⟩

/-- A derivation passes noise at most, or it is opened by a lexeme. -/
theorem Derives.opens {skip : Cursor → Cursor} {a : Phrase} {c d : Cursor} {ts : List Tree}
    (h : Derives skip a c ts d) (hs : Spacing skip) (ha : a.openers.all Pattern.isClear) :
    (a.consumes = false ∧ d.skipGap.rest = c.skipGap.rest) ∨ c.Opens a.openers := by
  obtain ⟨gaps, rfl⟩ := hs.exists_gaps
  rcases h.begins rfl with ⟨hn, hstay⟩ | ⟨p, hp, hps⟩ | ⟨p, hp, hps⟩
  · exact .inl ⟨hn, hstay.rest_skipGap⟩
  · obtain ⟨hgap, -⟩ := Cursor.stands_of_isClear (List.all_eq_true.mp ha p hp) hps
    exact .inr ⟨p, hp, by rwa [hgap]⟩
  · exact .inr ⟨p, Phrase.mem_openers_of_mem_lateLexemes hp, hps⟩

/-- Where a phrase is found that takes something, it is opened by a lexeme. -/
theorem Phrase.opens_of_found {skip : Cursor → Cursor} {a : Phrase} {c d : Cursor}
    {ts : List Tree} (h : (a.read Rule.read skip c).found = some (ts, d)) (hs : Spacing skip)
    (ha : a.openers.all Pattern.isClear) (hc : a.consumes) : c.Opens a.openers := by
  have hd := derives_of_read (fun _ _ _ _ => Rule.derives_of_read) a h
  rcases hd.opens hs ha with ⟨hn, -⟩ | ho
  · rw [hc] at hn
    exact absurd hn (by simp)
  · exact ho

theorem Rule.opens_of_found {r : Rule} {c d : Cursor} {ts : List Tree}
    (h : (r.read c).found = some (ts, d)) : c.Opens r.firstLexemes := by
  have hcall : ((Phrase.call r).read Rule.read id c).found = some (ts, d) := h
  exact Phrase.opens_of_found hcall .compact r.isClear_of_mem_firstLexemes rfl

/-! ## What may follow a rule -/

namespace Rule

open Pattern (identifier many1)

/-- The lexemes that may stand behind an operand. -/
def afterOperand : List Pattern :=
  arithmeticOperator.firstLexemes ++ relationalOperator.firstLexemes ++
    logicalOperator.firstLexemes ++ [.lit [','], .lit [')'], .lit [':']]

/-- The lexemes that may stand behind a value, which may also be the last of an array. -/
def afterValue : List Pattern := .lit ['/', ')'] :: afterOperand

/-- The lexemes that may stand behind a match of a rule. -/
def follow : Rule → List Pattern
  | digits => .lit ['_'] :: .lit ['.'] :: afterValue
  | name => .lit ['('] :: .lit ['='] :: afterValue
  | precisionSpec | integer | float | number | string | booleanValue | boolean => afterValue
  | indexedArray | accessedVariable => .lit ['='] :: afterOperand
  | inPlaceArray | atomicValue | functionCall | valueReturningCode => afterOperand
  | sign => [many1 (.one .digit), identifier]
  | logicalNot | logicalPrefixOperator => booleanValue.firstLexemes
  | lowerBound => [.lit [':']]
  | upperBound | arrayIndexRegion | arrayIndex | argument => [.lit [','], .lit [')']]
  | arguments => [.lit [')']]
  | booleans | strings | numbers => [.lit ['/', ')']]
  | arithmeticStatement => relationalOperator.firstLexemes ++ logicalOperator.firstLexemes
  | relationalStatement => logicalOperator.firstLexemes
  | logicalStatement | assignment | subroutineCall => []
  | callKeyword => [identifier]
  | power | multiplication | division | addition | subtraction | arithmeticOperator
  | equality | inequality | lessEqual | greaterEqual | less | greater | relationalOperator
  | logicalAnd | logicalOr | logicalEqv | logicalNeqv | logicalOperator =>
    valueReturningCode.firstLexemes

end Rule

/-! ## Choices that are decided -/

namespace Phrase

/-- Whether a phrase begins with a repetition. -/
def opensWithMany : Phrase → Bool
  | token _ | .call _ => false
  | seq a _ | opt a => a.opensWithMany
  | alt a b => a.opensWithMany || b.opensWithMany
  | many _ => true

/-- Wherever a derivation of the phrase ends before one of `ps` or the end of a line, a run has no
choice but to follow it.  Trees that satisfy `ok` are all that the derivation leaves. -/
def Decided (ok : Tree → Prop) (skip : Cursor → Cursor) : Phrase → List Pattern → Prop
  | token _, _ => True
  | .call r, ps => ∀ p ∈ ps, p ∈ r.follow
  | seq a b, ps =>
    a.Decided ok skip (b.openers ++ if b.consumes then [] else ps) ∧ b.Decided ok skip ps ∧
      b.openers.all Pattern.isClear
  | alt a b, ps =>
    a.Decided ok skip ps ∧ b.Decided ok skip ps ∧
      ∀ c d ts, (b.read Rule.read skip c).found = some (ts, d) → (∀ t ∈ ts, ok t) →
        d.Followed ps → (a.read Rule.read skip c).found = none
  | opt a, ps =>
    a.Decided ok skip ps ∧ ∀ c, c.Followed ps → (a.read Rule.read skip c).found = none
  | many a, ps =>
    a.Decided ok skip (a.openers ++ ps) ∧ a.openers.all Pattern.isClear ∧ a.consumes ∧
      ∀ c, c.Followed ps → (a.read Rule.read skip (skip c)).found = none

/-- Whether a phrase takes some character, and begins with none of `ps`, as its first lexemes
show. -/
def avoids (a : Phrase) (ps : List Pattern) : Bool :=
  a.consumes && a.openers.all Pattern.isClear && Pattern.allClash a.openers ps

/-- Whether the first lexemes show that a phrase is decided. -/
def settles : Phrase → List Pattern → Bool
  | token _, _ => true
  | .call r, ps => ps.all r.follow.contains
  | seq a b, ps =>
    a.settles (b.openers ++ if b.consumes then [] else ps) && b.settles ps &&
      b.openers.all Pattern.isClear
  | alt a b, ps =>
    a.settles ps && b.settles ps && b.consumes && b.openers.all Pattern.isClear &&
      a.avoids b.openers
  | opt a, ps => a.settles ps && a.avoids ps
  | many a, ps => a.settles (a.openers ++ ps) && a.avoids ps

variable {ok : Tree → Prop} {skip : Cursor → Cursor} {a b : Phrase} {ps : List Pattern}

/-- A phrase is not found where something follows that it does not begin with. -/
theorem found_eq_none_of_avoids (hs : Spacing skip) (ha : a.avoids ps) {c : Cursor}
    (hc : c.Followed ps) : (a.read Rule.read skip c).found = none := by
  simp only [avoids, Bool.and_eq_true] at ha
  obtain ⟨⟨hcons, hclear⟩, hclash⟩ := ha
  cases h : (a.read Rule.read skip c).found with
  | none => rfl
  | some x =>
    have ho : c.Opens a.openers := opens_of_found h hs hclear hcons
    exact absurd hc (ho.not_followed hclear hclash)

theorem decided_of_settles (ok : Tree → Prop) (hs : Spacing skip) (h : a.settles ps) :
    a.Decided ok skip ps := by
  induction a generalizing ps with
  | token p => trivial
  | call r =>
    exact fun p hp => List.contains_iff_mem.mp (List.all_eq_true.mp h p hp)
  | seq a b iha ihb =>
    simp only [settles, Bool.and_eq_true] at h
    exact ⟨iha h.1.1, ihb h.1.2, h.2⟩
  | alt a b iha ihb =>
    simp only [settles, Bool.and_eq_true] at h
    obtain ⟨⟨⟨⟨ha, hb⟩, hcons⟩, hclear⟩, havoid⟩ := h
    refine ⟨iha ha, ihb hb, fun c d ts hf _ _ => ?_⟩
    have ho : c.Opens b.openers := opens_of_found hf hs hclear hcons
    exact found_eq_none_of_avoids hs havoid (.inr ho)
  | opt a ih =>
    simp only [settles, Bool.and_eq_true] at h
    exact ⟨ih h.1, fun c hc => found_eq_none_of_avoids hs h.2 hc⟩
  | many a ih =>
    simp only [settles, Bool.and_eq_true] at h
    obtain ⟨ha, havoid⟩ := h
    have h' := havoid
    simp only [avoids, Bool.and_eq_true] at h'
    refine ⟨ih ha, h'.1.2, h'.1.1, fun c hc => found_eq_none_of_avoids hs havoid ?_⟩
    exact hc.congr (Cursor.rest_skipGap_skip hs c).symm

end Phrase

/-- A rule is decided by what may follow it. -/
def Rule.Decided (ok : Tree → Prop) (r : Rule) : Prop :=
  match r.production with
  | .lexeme _ => True
  | .compact a => a.opensWithMany = false ∧ a.Decided ok id r.follow
  | .spaced a => a.opensWithMany = false ∧ a.Decided ok Cursor.skipGap r.follow

/-- Whether the first lexemes show that a rule is decided. -/
def Rule.settles (r : Rule) : Bool :=
  match r.production with
  | .lexeme _ => true
  | .compact a | .spaced a => !a.opensWithMany && a.settles r.follow

theorem Rule.decided_of_settles (ok : Tree → Prop) {r : Rule} (h : r.settles) : r.Decided ok := by
  unfold Rule.settles at h
  unfold Rule.Decided
  cases hr : r.production with
  | lexeme p => trivial
  | compact a =>
    simp only [hr, Bool.and_eq_true, Bool.not_eq_true'] at h
    exact ⟨h.1, Phrase.decided_of_settles ok .compact h.2⟩
  | spaced a =>
    simp only [hr, Bool.and_eq_true, Bool.not_eq_true'] at h
    exact ⟨h.1, Phrase.decided_of_settles ok .spaced h.2⟩

example : Rule.all.filter (!·.settles) = [.number, .arithmeticOperator, .relationalOperator,
    .arrayIndex, .accessedVariable, .valueReturningCode, .arithmeticStatement] := by
  decide

end FreeForm
