import FreeForm.Proofs.Derivation
import FreeForm.Proofs.NoiseForm

/-!
# First lexemes

A rule begins with one of finitely many lexemes.  Most rules take it right where they are tried:
these are its `firstLexemes`.  A rule that begins with an option takes its first lexeme behind the
noise there when the option is absent, because noise is passed between the option and what follows
it: these are its `lateLexemes`.

Both are computed from the grammar, and `begins_of_read` says that every match begins with one of
them.
-/

namespace FreeForm

namespace Phrase

/-- The lexemes that a phrase can take where it is tried, if `first` gives those of the rules. -/
def firstLexemes (first : Rule → List Pattern) : Phrase → List Pattern
  | token p => [p]
  | .call r => first r
  | seq a b => a.firstLexemes first ++ if a.consumes then [] else b.firstLexemes first
  | alt a b => a.firstLexemes first ++ b.firstLexemes first
  | opt a | many a => a.firstLexemes first

/-- The lexemes that a phrase can take first behind noise, if `first` and `late` give those of the
rules.  Noise is passed between the parts of the phrase if `gaps` says so. -/
def lateLexemes (first late : Rule → List Pattern) (gaps : Bool) : Phrase → List Pattern
  | token _ => []
  | .call r => late r
  | seq a b =>
    a.lateLexemes first late gaps ++ if a.consumes then [] else
      b.lateLexemes first late gaps ++ if gaps then b.firstLexemes first else []
  | alt a b => a.lateLexemes first late gaps ++ b.lateLexemes first late gaps
  | opt a => a.lateLexemes first late gaps
  | many a => a.lateLexemes first late gaps ++ if gaps then a.firstLexemes first else []

end Phrase

namespace Production

/-- The lexemes that a right-hand side can take where it is tried. -/
def firstLexemes (first : Rule → List Pattern) : Production → List Pattern
  | lexeme p => [p]
  | compact a | spaced a => a.firstLexemes first

/-- The lexemes that a right-hand side can take first behind noise. -/
def lateLexemes (first late : Rule → List Pattern) : Production → List Pattern
  | lexeme _ => []
  | compact a => a.lateLexemes first late false
  | spaced a => a.lateLexemes first late true

end Production

namespace Rule

/-- The first lexemes of a rule that are reached by calls nested less than `n` deep. -/
def firstWithin : Nat → Rule → List Pattern
  | 0, _ => []
  | n + 1, r => r.production.firstLexemes (firstWithin n)

/-- The lexemes with which a rule can begin where it is tried.  Calls before the first character
nest at most eight deep. -/
def firstLexemes (r : Rule) : List Pattern := firstWithin 8 r

/-- The late lexemes of a rule that are reached by calls nested less than `n` deep. -/
def lateWithin : Nat → Rule → List Pattern
  | 0, _ => []
  | n + 1, r => r.production.lateLexemes firstLexemes (lateWithin n)

/-- The lexemes with which a rule can begin behind noise, although no noise precedes the rule. -/
def lateLexemes (r : Rule) : List Pattern := lateWithin 8 r

theorem firstLexemes_eq (r : Rule) : r.firstLexemes = r.production.firstLexemes firstLexemes := by
  cases r <;> decide +kernel

theorem lateLexemes_eq (r : Rule) :
    r.lateLexemes = r.production.lateLexemes firstLexemes lateLexemes := by
  cases r <;> decide +kernel

example : Rule.all.filter (fun r => !r.lateLexemes.isEmpty) =
    [boolean, arrayIndexRegion, arrayIndex, accessedVariable, booleans, atomicValue,
      valueReturningCode, arithmeticStatement, relationalStatement, logicalStatement, argument,
      arguments, assignment] := by decide +kernel

/-- No rule begins with a character that noise begins with. -/
theorem rejects_of_mem_firstLexemes {r : Rule} {p : Pattern} (hp : p ∈ r.firstLexemes) {c : Char}
    (hc : c ∈ Pattern.noiseMarks) : p.rejects c := by
  have h : ∀ p ∈ r.firstLexemes, Pattern.noiseMarks.all fun c => p.rejects c := by
    cases r <;> decide +kernel
  exact List.all_eq_true.mp (h p hp) c hc

end Rule

/-! ## How a derivation begins -/

/-- The text at `c` begins with one of `first`, or the text behind the noise at `c` with one of
`late`. -/
def Cursor.Begins (c : Cursor) (first late : List Pattern) : Prop :=
  (∃ p ∈ first, (p.split? c.rest).isSome) ∨ ∃ p ∈ late, (p.split? c.skipGap.rest).isSome

theorem Cursor.Begins.mono {c : Cursor} {ps qs ps' qs' : List Pattern} (h : c.Begins ps qs)
    (hp : ∀ p ∈ ps, p ∈ ps') (hq : ∀ q ∈ qs, q ∈ qs') : c.Begins ps' qs' := by
  rcases h with ⟨p, h, hs⟩ | ⟨q, h, hs⟩
  · exact .inl ⟨p, hp p h, hs⟩
  · exact .inr ⟨q, hq q h, hs⟩

/-- Between `c` and `d` stands nothing, or all the noise at `c` where `gaps` allows it. -/
def Cursor.Stays (gaps : Bool) (c d : Cursor) : Prop :=
  d.rest = c.rest ∨ gaps ∧ d.rest = c.skipGap.rest

/-- What is passed between two parts, as told by `gaps`. -/
def skipWhen (gaps : Bool) : Cursor → Cursor := if gaps then Cursor.skipGap else id

theorem Cursor.Stays.rest_skipGap {gaps : Bool} {c d : Cursor} (h : c.Stays gaps d) :
    d.skipGap.rest = c.skipGap.rest := by
  rcases h with h | ⟨-, h⟩
  · exact rest_skipGap_congr h
  · rw [rest_skipGap_congr h, skipGap_skipGap]

theorem Cursor.Stays.skip {gaps : Bool} {c d : Cursor} (h : c.Stays gaps d) :
    c.Stays gaps (skipWhen gaps d) := by
  cases gaps with
  | false => exact h
  | true => exact .inr ⟨rfl, h.rest_skipGap⟩

theorem Cursor.Stays.trans {gaps : Bool} {c d e : Cursor} (h : c.Stays gaps d)
    (k : d.Stays gaps e) : c.Stays gaps e := by
  rcases k with k | ⟨hg, k⟩
  · exact h.imp k.trans fun h => ⟨h.1, k.trans h.2⟩
  · exact .inr ⟨hg, k.trans h.rest_skipGap⟩

/-- What begins at a place that is reached without a lexeme. -/
theorem Cursor.Begins.of_stays {gaps : Bool} {c d : Cursor} {ps qs : List Pattern}
    (hb : d.Begins ps qs) (h : c.Stays gaps d) :
    c.Begins ps (qs ++ if gaps then ps else []) := by
  rcases hb with ⟨p, hp, hs⟩ | ⟨q, hq, hs⟩
  · rcases h with h | ⟨hg, h⟩
    · exact .inl ⟨p, hp, h ▸ hs⟩
    · exact .inr ⟨p, by simp [hg, hp], h ▸ hs⟩
  · exact .inr ⟨q, List.mem_append_left _ hq, h.rest_skipGap ▸ hs⟩

/-- A derivation passes no lexeme, or it begins with one that the phrase foresees. -/
theorem Derives.begins {gaps : Bool} {skip : Cursor → Cursor} {a : Phrase} {c d : Cursor}
    {ts : List Tree} (h : Derives skip a c ts d) (hg : skip = skipWhen gaps) :
    (a.consumes = false ∧ c.Stays gaps d) ∨
      c.Begins (a.firstLexemes Rule.firstLexemes)
        (a.lateLexemes Rule.firstLexemes Rule.lateLexemes gaps) := by
  induction h generalizing gaps with
  | @token _ p c d h =>
    obtain ⟨w, hw, -⟩ := Cursor.passes_of_token? h
    exact .inr (.inl ⟨p, List.mem_singleton_self p, by rw [hw]; rfl⟩)
  | @lexeme _ r p c d hr h =>
    obtain ⟨w, hw, -⟩ := Cursor.passes_of_token? h
    refine .inr (.inl ⟨p, ?_, by rw [hw]; rfl⟩)
    rw [Phrase.firstLexemes, r.firstLexemes_eq, hr]
    exact List.mem_singleton_self p
  | @compact _ r a c d ts hr h ih =>
    -- a rule takes some lexeme, so its right-hand side cannot be the case without one
    have hc := r.consumes_production
    rw [hr] at hc
    have hs : id = skipWhen false := rfl
    rcases ih hs with ⟨hn, -⟩ | hb
    · rw [Production.consumes, hn] at hc
      exact absurd hc Bool.false_ne_true
    · rw [Phrase.firstLexemes, Phrase.lateLexemes, r.firstLexemes_eq, r.lateLexemes_eq, hr]
      exact .inr hb
  | @spaced _ r a c d ts hr h ih =>
    have hc := r.consumes_production
    rw [hr] at hc
    have hs : Cursor.skipGap = skipWhen true := rfl
    rcases ih hs with ⟨hn, -⟩ | hb
    · rw [Production.consumes, hn] at hc
      exact absurd hc Bool.false_ne_true
    · rw [Phrase.firstLexemes, Phrase.lateLexemes, r.firstLexemes_eq, r.lateLexemes_eq, hr]
      exact .inr hb
  | @seq _ a b c d e ts us ha hb iha ihb =>
    rcases iha hg with ⟨hna, hs⟩ | hba
    · have hsd : c.Stays gaps (skipWhen gaps d) := hs.skip
      rw [← hg] at hsd
      rcases ihb hg with ⟨hnb, hse⟩ | hbb
      · exact .inl ⟨by simp [Phrase.consumes, hna, hnb], hsd.trans hse⟩
      · refine .inr ((hbb.of_stays hsd).mono (fun p hp => ?_) fun p hp => ?_)
        · simp [Phrase.firstLexemes, hna, hp]
        · rw [Phrase.lateLexemes, hna, if_neg Bool.false_ne_true]
          exact List.mem_append_right _ hp
    · refine .inr (hba.mono (fun p hp => ?_) fun p hp => ?_)
      · exact List.mem_append_left _ hp
      · exact List.mem_append_left _ hp
  | left _ ih =>
    rcases ih hg with ⟨hn, hs⟩ | hb
    · exact .inl ⟨by simp [Phrase.consumes, hn], hs⟩
    · exact .inr (hb.mono (fun p => List.mem_append_left _) fun p => List.mem_append_left _)
  | right _ ih =>
    rcases ih hg with ⟨hn, hs⟩ | hb
    · exact .inl ⟨by simp [Phrase.consumes, hn], hs⟩
    · exact .inr (hb.mono (fun p => List.mem_append_right _) fun p => List.mem_append_right _)
  | absent => exact .inl ⟨rfl, .inl rfl⟩
  | present _ ih =>
    rcases ih hg with ⟨-, hs⟩ | hb
    · exact .inl ⟨rfl, hs⟩
    · exact .inr hb
  | never => exact .inl ⟨rfl, .inl rfl⟩
  | once _ ih =>
    rcases ih hg with ⟨-, hs⟩ | hb
    · exact .inl ⟨rfl, hs⟩
    · exact .inr (hb.mono (fun p hp => hp) fun p => List.mem_append_left _)
  | @again _ a c d e ts us hm ha ihm iha =>
    rcases ihm hg with ⟨-, hs⟩ | hb
    · have hsd : c.Stays gaps (skipWhen gaps d) := hs.skip
      rw [← hg] at hsd
      rcases iha hg with ⟨-, hse⟩ | hb
      · exact .inl ⟨rfl, hsd.trans hse⟩
      · exact .inr (hb.of_stays hsd)
    · exact .inr hb

/-- Every match of a rule begins with one of its first or late lexemes. -/
theorem Rule.begins_of_read {r : Rule} {c d : Cursor} {ts : List Tree}
    (hd : (r.read c).found = some (ts, d)) : c.Begins r.firstLexemes r.lateLexemes := by
  have hcall : Derives (skipWhen false) (.call r) c ts d :=
    derives_call_iff.mpr (derives_of_read hd)
  rcases hcall.begins rfl with ⟨hn, -⟩ | hb
  · exact absurd hn (by simp [Phrase.consumes])
  · exact hb

/-- Where the text behind a place is not changed by passing noise, the place is not either. -/
theorem Cursor.skipGap_eq_self {c : Cursor} (h : c.skipGap.rest = c.rest) : c.skipGap = c := by
  obtain ⟨w, -, hw, hstop⟩ := c.passes_skipGap
  obtain rfl : w = [] := List.append_left_eq_self.mp (h ▸ hw.rest).symm
  obtain ⟨-, hpos⟩ := hw
  rw [Text.size_nil, Nat.add_zero] at hpos
  obtain ⟨rest, pos, stop⟩ := c
  generalize hg : Cursor.skipGap ⟨rest, pos, stop⟩ = g at *
  obtain ⟨r, p, q⟩ := g
  simp only at h hpos hstop
  rw [h, hpos, hstop]

/-- Where a rule matches that has no late lexemes, no noise stands. -/
theorem Derives.skipGap_eq {skip : Cursor → Cursor} {r : Rule} {c d : Cursor} {ts : List Tree}
    (h : Derives skip (.call r) c ts d) (hr : r.lateLexemes = []) : c.skipGap = c := by
  have hcall : Derives (skipWhen false) (.call r) c ts d :=
    derives_call_iff.mpr (derives_call_iff.mp h)
  rcases hcall.begins rfl with ⟨hn, -⟩ | ⟨p, hp, hs⟩ | ⟨p, hp, -⟩
  · exact absurd hn (by simp [Phrase.consumes])
  · refine Cursor.skipGap_eq_self (Cursor.rest_skipGap_of_notMem fun x hx hm => ?_)
    obtain ⟨s, hs'⟩ := List.head?_eq_some_iff.mp hx
    rw [hs', Pattern.split?_eq_none_of_rejects (Rule.rejects_of_mem_firstLexemes hp hm)] at hs
    simp at hs
  · rw [Phrase.lateLexemes, hr] at hp
    exact absurd hp List.not_mem_nil

end FreeForm
