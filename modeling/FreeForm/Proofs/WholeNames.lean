import FreeForm.Proofs.CompleteHits
import FreeForm.Proofs.LinePartition
import FreeForm.Proofs.WordEnds

/-!
# Names are whole words

A node for a name covers a whole word of the text: no letter, digit or underscore stands right in
front of it or right behind it (`Tree.IsWord`).  Behind it none stands because a name takes all there
are.  In front of it none stands because of what a run passes before it tries a name: where a part of
a rule may end inside a word, as a number may, no part follows that begins with a name
(`Phrase.separated`).  The one exception is the name of a kind, behind the underscore of a number.

A statement begins behind a blank or at the start of a line, so that this holds of the hits in a
source too.
-/

namespace FreeForm

open Text

/-! ## Parts that begin with a name -/

namespace Phrase

/-- Whether the phrase may begin with a name. -/
def opensName (a : Phrase) : Bool := a.openers.contains .identifier

/-- Whether no part of a phrase that may begin with a name stands behind a part that may end inside
a word. -/
def separated : Phrase → Bool
  | token _ | .call _ => true
  | seq a b => a.separated && b.separated && (a.seals || !b.opensName)
  | alt a b => a.separated && b.separated
  | opt a => a.separated
  | many a => a.separated && (a.seals || !a.opensName)

variable {a b : Phrase}

theorem opensName_mono (hab : ∀ p ∈ a.openers, p ∈ b.openers) (h : a.opensName) :
    b.opensName := by
  rw [opensName, List.contains_iff_mem] at h ⊢
  exact hab _ h

theorem opensName_seq (ha : a.consumes = false) (h : b.opensName) : (seq a b).opensName := by
  refine opensName_mono (fun p hp => ?_) h
  rw [openers, firstLexemes, ha]
  exact List.mem_append_right _ hp

theorem opensName_call {r : Rule} (hr : r.production = .compact a ∨ r.production = .spaced a) :
    (Phrase.call r).opensName = a.opensName := by
  have h : r.firstLexemes = a.openers := by
    rw [r.firstLexemes_eq]
    rcases hr with hr | hr <;> rw [hr] <;> rfl
  rw [opensName, openers, firstLexemes, h, opensName]

end Phrase

/-- Whether the parts of a right-hand side are separated. -/
def Production.separated : Production → Bool
  | lexeme _ => true
  | compact a | spaced a => a.separated

/-- In every rule but one, what may begin with a name stands behind what ends outside of words. -/
theorem Rule.separated_production {r : Rule} (hr : r ≠ precisionSpec) :
    r.production.separated := by
  revert hr
  cases r <;> decide +kernel

/-! ## Words -/

namespace Text

/-- Between `u` and `v` stands a whole word. -/
structure IsWord (u w v : Text) : Prop where
  ne_nil : w ≠ []
  chars : ∀ x ∈ w, CharClass.wordChar.holds x
  before : ∀ x ∈ u.getLast?, ¬CharClass.wordChar.holds x
  behind : ∀ x ∈ v.head?, ¬CharClass.wordChar.holds x

end Text

/-- The node covers a whole word of the text. -/
def Tree.IsWord (s : Text) (t : Tree) : Prop :=
  ∃ u w v, s = u ++ (w ++ v) ∧ t.span = ⟨size u, size (u ++ w)⟩ ∧ Text.IsWord u w v

/-- The names in the tree are whole words, but for the names of kinds. -/
def Tree.NamesWords (s : Text) (t : Tree) : Prop :=
  ∀ n ∈ t.nodes, n.rule ≠ .precisionSpec → ∀ m ∈ n.children, m.rule = .name → m.IsWord s

/-- In the text `s`, `u` stands in front of the place and `v` behind the part that is read. -/
structure Cursor.Between (s u v : Text) (c : Cursor) : Prop where
  text : s = u ++ (c.rest ++ v)
  pos : c.pos = size u

namespace Cursor

variable {s u v w : Text} {c d : Cursor}

theorem Between.passes (h : c.Between s u v) (k : c.Passes w d) : d.Between s (u ++ w) v :=
  ⟨by rw [h.text, k.rest]; simp, by rw [k.pos, h.pos, size_append]⟩

/-- A name that is read where no word is cut in two is a whole word. -/
theorem Between.isWord (h : c.Between s u v) (hv : ∀ x ∈ v.head?, ¬CharClass.wordChar.holds x)
    (hu : ¬u.Cuts c.rest) (ht : c.token? .identifier = some d) (ts : List Tree) :
    (⟨.name, ⟨c.pos, d.stop⟩, ts⟩ : Tree).IsWord s := by
  obtain ⟨w, hw, hcd, hstop⟩ := passes_of_token? ht
  have hd := h.passes hcd
  have hne : w ≠ [] := Pattern.ne_nil_of_consumes (by decide) hw
  have hchars := Pattern.holds_of_identifier hw
  have hbehind := Pattern.not_word_of_stops (by decide) hw
  refine ⟨u, w, d.rest ++ v, by rw [hd.text, List.append_assoc], ?_, hne, hchars, ?_, ?_⟩
  · rw [hstop, hd.pos, h.pos]
  · intro x hx hword
    refine hu ⟨⟨x, hx, hword⟩, w.head hne, ?_, hchars _ (List.head_mem hne)⟩
    rw [hcd.rest, List.head?_append_of_ne_nil _ hne]
    exact List.head?_eq_some_head hne
  · intro x hx
    rw [List.head?_append, Option.mem_def, Option.or_eq_some_iff] at hx
    rcases hx with hx | ⟨-, hx⟩
    · exact hbehind x hx
    · exact hv x hx

end Cursor

theorem Tree.namesWords_of_children {s : Text} {r : Rule} {x : Span} {ts : List Tree}
    (hr : r ≠ .precisionSpec → ∀ t ∈ ts, t.rule = .name → t.IsWord s)
    (hts : ∀ t ∈ ts, t.NamesWords s) : (⟨r, x, ts⟩ : Tree).NamesWords s := by
  intro n hn hrule
  rcases Tree.mem_nodes_iff.mp hn with rfl | ⟨t, ht, hn⟩
  · exact hr hrule
  · exact hts t ht n hn hrule

theorem Tree.namesWords_of_leaf (s : Text) (r : Rule) (x : Span) :
    (⟨r, x, []⟩ : Tree).NamesWords s := namesWords_of_children (by simp) (by simp)

/-- What the suffix for a kind leaves is one leaf. -/
theorem Rule.exists_leaf_of_precisionSpec {c d : Cursor} {ts : List Tree}
    (h : precisionSpec.production.Derives c ts d) : ∃ r x, ts = [⟨r, x, []⟩] := by
  obtain ⟨_, _, _, hmark, hkind, rfl⟩ := derives_seq_iff.mp h
  obtain ⟨rfl, -⟩ := derives_token_iff.mp hmark
  obtain ⟨q, hq, hcall⟩ := derives_anyOf hkind
  obtain ⟨us, rfl, hd⟩ := derives_call_iff.mp hcall
  simp only [List.mem_cons, List.not_mem_nil, or_false] at hq
  rcases hq with rfl | rfl
  · exact ⟨_, _, by rw [hd.1]; rfl⟩
  · exact ⟨_, _, by rw [hd.1]; rfl⟩

/-- The place behind a phrase and the noise there.  If the phrase seals words, no word is cut in two
there, unless the phrase takes nothing. -/
theorem Derives.exists_between {skip : Cursor → Cursor} {a : Phrase} {c d : Cursor}
    {ts : List Tree} {s u v : Text} (h : Derives skip a c ts d) (hs : Spacing skip)
    (hp : ∀ p ∈ a.lexemes, p.consumes) (hc : c.Between s u v) :
    ∃ w, (skip d).Between s (u ++ w) v ∧
      (a.seals → (a.consumes = false → ¬u.Cuts c.rest) → ¬(u ++ w).Cuts (skip d).rest) := by
  obtain ⟨w, hw, hne⟩ := h.exists_passes hs hp
  obtain ⟨g, hg, hgap⟩ := d.exists_passes_skip hs
  refine ⟨w ++ g, hc.passes (hw.trans hg), fun ha hu => ?_⟩
  obtain ⟨w', hw', hcut⟩ := h.not_cuts hs hp ha
  obtain rfl := hw.unique hw'
  rw [← List.append_assoc]
  refine hg.not_cuts (not_cuts_append (fun hnil => ?_) hcut) hgap
  rw [hw.rest, hnil, List.nil_append] at hu
  refine hu ?_
  cases hcons : a.consumes with
  | true => exact absurd hnil (hne hcons)
  | false => rfl

/-- The names that a phrase leaves are whole words, if no word is cut in two where the phrase begins
with a name. -/
theorem Derives.namesWords {skip : Cursor → Cursor} {a : Phrase} {c d : Cursor} {ts : List Tree}
    {s u v : Text} (h : Derives skip a c ts d) (hs : Spacing skip)
    (hp : ∀ p ∈ a.lexemes, p.consumes) (ha : a.separated) (hc : c.Between s u v)
    (hu : a.opensName → ¬u.Cuts c.rest) (hv : ∀ x ∈ v.head?, ¬CharClass.wordChar.holds x) :
    ∀ t ∈ ts, (t.rule = .name → t.IsWord s) ∧ t.NamesWords s := by
  induction h generalizing u with
  | token | absent | never => simp
  | @lexeme _ r p c d hr h =>
    refine List.forall_mem_singleton.mpr ⟨fun hname => ?_, Tree.namesWords_of_leaf _ _ _⟩
    obtain rfl : r = .name := hname
    obtain rfl := Production.lexeme.inj hr
    exact hc.isWord hv (hu (by decide)) h []
  | @compact _ r b c d ts hr h ih | @spaced _ r b c d ts hr h ih =>
    have hbody : r.production = .compact b ∨ r.production = .spaced b := by simp [hr]
    have hname : r ≠ .name := by
      rintro rfl
      simp [Rule.production] at hr
    refine List.forall_mem_singleton.mpr ⟨fun h => absurd h hname, ?_⟩
    by_cases hkind : r = .precisionSpec
    · subst hkind
      have hd : Rule.precisionSpec.production.Derives c ts d := by rw [hr]; exact h
      obtain ⟨q, x, rfl⟩ := Rule.exists_leaf_of_precisionSpec hd
      exact Tree.namesWords_of_children (by simp) (by simp [Tree.namesWords_of_leaf])
    · have hsep := Rule.separated_production hkind
      rw [hr] at hsep
      rw [Phrase.opensName_call hbody] at hu
      have hts := ih (by constructor)
        (fun p hp => r.consumes_of_mem_lexemes (by rw [hr]; exact hp)) hsep hc hu
      exact Tree.namesWords_of_children (fun _ t ht => (hts t ht).1) fun t ht => (hts t ht).2
  | @seq _ a b c d e ts us h k iha ihb =>
    simp only [Phrase.lexemes, List.mem_append] at hp
    simp only [Phrase.separated, Bool.and_eq_true, Bool.or_eq_true, Bool.not_eq_true'] at ha
    obtain ⟨⟨hsepa, hsepb⟩, hab⟩ := ha
    have hpa : ∀ p ∈ a.lexemes, p.consumes := fun p h => hp p (.inl h)
    obtain ⟨w, hskip, hcut⟩ := h.exists_between hs hpa hc
    have hts := iha hs hpa hsepa hc fun ho =>
      hu (Phrase.opensName_mono (fun _ => List.mem_append_left _) ho)
    have hus := ihb hs (fun p h => hp p (.inr h)) hsepb hskip fun ho =>
      hcut (hab.resolve_right (by simp [ho])) fun hn => hu (Phrase.opensName_seq hn ho)
    exact fun t ht => (List.mem_append.mp ht).elim (hts t) (hus t)
  | left _ ih =>
    simp only [Phrase.separated, Bool.and_eq_true] at ha
    exact ih hs (fun p h => hp p (List.mem_append_left _ h)) ha.1 hc
      fun ho => hu (Phrase.opensName_mono (fun _ => List.mem_append_left _) ho)
  | right _ ih =>
    simp only [Phrase.separated, Bool.and_eq_true] at ha
    exact ih hs (fun p h => hp p (List.mem_append_right _ h)) ha.2 hc
      fun ho => hu (Phrase.opensName_mono (fun _ => List.mem_append_right _) ho)
  | present _ ih => exact ih hs hp ha hc hu
  | once _ ih =>
    simp only [Phrase.separated, Bool.and_eq_true] at ha
    exact ih hs hp ha.1 hc hu
  | @again _ a c d e ts us h k ihm iha =>
    have ha' := ha
    simp only [Phrase.separated, Bool.and_eq_true, Bool.or_eq_true, Bool.not_eq_true'] at ha'
    obtain ⟨w, hskip, hcut⟩ := h.exists_between hs hp hc
    have hts := ihm hs hp ha hc hu
    have hus := iha hs hp ha'.1 hskip fun ho =>
      hcut (ha'.2.resolve_right (by simp [ho])) fun _ => hu ho
    exact fun t ht => (List.mem_append.mp ht).elim (hts t) (hus t)

/-! ## Parses and sources -/

variable {s : Text} {r : Rule} {o : Options} {t : Tree}

/-- The names that are found in a range are whole words, if the range cuts no word in two. -/
theorem namesWords_of_parseRange {a w b : Text} (hs : s = a ++ (w ++ b)) (ha : ¬a.Cuts w)
    (hb : ∀ x ∈ b.head?, ¬CharClass.wordChar.holds x)
    (h : parseRange s ⟨size a, size (a ++ w)⟩ r o = .ok t) :
    (t.rule = .name → t.IsWord s) ∧ t.NamesWords s := by
  obtain ⟨w', d, ts, hslice, -, rfl, hd⟩ := derives_of_parseRange h
  obtain rfl : w' = w := by
    have hw := slice?_size_append a w b
    rw [List.append_assoc, ← hs, ← size_append] at hw
    exact Option.some.inj (hslice.symm.trans hw)
  have hcall : Derives id (.call r) (.start w' (size a)) [⟨r, ⟨size a, d.stop⟩, ts⟩] d :=
    derives_call_iff.mpr ⟨ts, rfl, hd⟩
  exact hcall.namesWords .compact (by simp [Phrase.lexemes]) rfl ⟨hs, rfl⟩ (fun _ => ha) hb _
    (List.mem_singleton_self _)

/-- On a logical line, the range in which a statement is looked for cuts no word in two. -/
theorem exists_range_of_mem_logicalLines {l : LogicalLine} (hl : l ∈ logicalLines s) :
    ∃ a w b, s = a ++ (w ++ b) ∧ l.statementStart = size a ∧ l.span.stop = size (a ++ w) ∧
      ¬a.Cuts w ∧ ∀ x ∈ b.head?, ¬CharClass.wordChar.holds x := by
  obtain ⟨a, b, hs, hspan, ha, hb⟩ := bordered_of_mem_logicalLines hl
  obtain ⟨g, w, htext, hstart, -, hblank⟩ := l.exists_label
  have hbreak : ∀ x, CharClass.lineBreak.holds x → ¬CharClass.wordChar.holds x := fun x hx =>
    CharClass.not_word_of_avoidsWords (by decide) hx
  refine ⟨a ++ g, w, b, ?_, ?_, ?_, ?_, fun x hx => hbreak x (hb x hx)⟩
  · rw [hs, htext]
    simp
  · rw [hstart, hspan]
    exact (size_append a g).symm
  · rw [hspan, htext, List.append_assoc]
  · refine not_cuts_append (fun _ => not_cuts_of_last fun x hx => hbreak x (ha x hx)) ?_
    exact not_cuts_of_last fun x hx =>
      CharClass.not_word_of_avoidsWords (by decide) (hblank x hx)

/-- **Names are whole words.**  In the tree of a parse and in every hit in a source, a node for a
name, unless it is the name of a kind, covers a whole word of the text. -/
theorem names_are_words (s : Text) (r : Rule) (o : Options) :
    (∀ t, parse s r o = .ok t → (t.rule = .name → t.IsWord s) ∧ t.NamesWords s) ∧
      ∀ t ∈ locate s r o, (t.rule = .name → t.IsWord s) ∧ t.NamesWords s := by
  refine ⟨fun t h => ?_, fun t h => ?_⟩
  · have hrange : parseRange s ⟨size [], size ([] ++ s)⟩ r o = .ok t := h
    exact namesWords_of_parseRange (b := []) (by simp) (not_cuts_nil s) (by simp) hrange
  · obtain ⟨l, hl, hit⟩ := List.mem_filterMap.mp h
    obtain ⟨-, -, hparse⟩ := locateOn?_eq_some_iff.mp hit
    obtain ⟨a, w, b, hs, hstart, hstop, ha, hb⟩ := exists_range_of_mem_logicalLines hl
    rw [hstart, hstop] at hparse
    exact namesWords_of_parseRange hs ha hb hparse

/-- A name behind the keyword of a call, and one behind a label. -/
theorem names_are_words_of_call_and_label :
    let s : Text := ['c', 'a', 'l', 'l', '&', '\n', '&', 'f']
    let s' : Text := ['1', ' ', 'a', '=', 'b']
    let u : Tree := ⟨.name, ⟨7, 8⟩, []⟩
    let t : Tree := ⟨.subroutineCall, ⟨0, 8⟩, [⟨.callKeyword, ⟨0, 4⟩, []⟩, u]⟩
    let u' : Tree := ⟨.name, ⟨2, 3⟩, []⟩
    let v : Tree := ⟨.accessedVariable, ⟨2, 3⟩, [u']⟩
    let w : Tree := ⟨.accessedVariable, ⟨4, 5⟩, [⟨.name, ⟨4, 5⟩, []⟩]⟩
    let t' : Tree := ⟨.assignment, ⟨2, 5⟩, [v, ⟨.valueReturningCode, ⟨4, 5⟩, [w]⟩]⟩
    parse s .subroutineCall {} = .ok t ∧ u.IsWord s ∧
      t' ∈ locate s' .assignment {} ∧ u'.IsWord s' := by
  intro s s' u t u' v w t'
  have ht : parse s .subroutineCall {} = .ok t := by rfl
  have ht' : t' ∈ locate s' .assignment {} := by decide +kernel
  have hu := ((names_are_words s .subroutineCall {}).1 t ht).2 t t.self_mem_nodes (by decide) u
    (by decide) rfl
  have hu' := ((names_are_words s' .assignment {}).2 t' ht').2 v (by decide) (by decide) u'
    (by decide) rfl
  exact ⟨ht, hu, ht', hu'⟩

end FreeForm
