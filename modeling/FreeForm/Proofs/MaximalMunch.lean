import FreeForm.Proofs.LongestWords
import FreeForm.Proofs.NodeText

/-!
# Maximal munch

The operators of a chain are read by maximal munch: the text of an operator is the longest spelling
of any operator, of all three levels, that stands where it starts (`Rule.operatorSpellings`).  Neither
the order of the operators in a choice nor the order of the levels ensures this.  It is the operand
behind the operator: what is left of a longer spelling begins like no operand, and no noise begins
like it either (`Rule.tails_blocked`), so behind the shorter spelling no operand would be found.

For the same reason the equals sign of an assignment is not the first half of an equality.
-/

namespace FreeForm

namespace Rule

/-- The rules for the operators of chains, one for each level. -/
def operatorFamilies : List Rule := [arithmeticOperator, relationalOperator, logicalOperator]

/-- The rules for chains, one for each level. -/
def chains : List Rule := [arithmeticStatement, relationalStatement, logicalStatement]

/-- The lexemes of the operators of all levels. -/
def operatorLexemes : List Pattern :=
  operatorFamilies.flatMap fun q => q.production.calls.filterMap spelling?

/-- The spellings of the operators of all levels, letters in either case. -/
def operatorSpellings : Language Char := {w | ∃ p ∈ operatorLexemes, w ∈ p.language}

end Rule

/-! ## Longer spellings -/

namespace Pattern

/-- A word of a spelling is covered by one of its heads, whatever stands behind it. -/
theorem exists_head_of_mem_language {p : Pattern} (hp : p.isSpelling) {w : Text}
    (h : w ∈ p.language) (s : Text) : ∃ k ∈ p.heads, fits k (w ++ s) ∧ k.length = w.length := by
  induction p with
  | one k =>
    obtain ⟨c, hc, rfl⟩ := h
    exact ⟨[k], List.mem_singleton_self _, by simp [fits, hc], rfl⟩
  | lit v =>
    have hsplit : (lit v).split? (w ++ s) = some (w, s) := splitWord?_of_map (congrArg _ h) s
    exact exists_head_of_isSpelling hp hsplit
  | word v =>
    have hsplit : (word v).split? (w ++ s) = some (w, s) := splitWord?_of_map h s
    exact exists_head_of_isSpelling hp hsplit
  | alt a b iha ihb =>
    simp only [isSpelling, Bool.and_eq_true] at hp
    rcases h with h | h
    · obtain ⟨k, hk, hks⟩ := iha hp.1 h
      exact ⟨k, List.mem_append_left _ hk, hks⟩
    · obtain ⟨k, hk, hks⟩ := ihb hp.2 h
      exact ⟨k, List.mem_append_right _ hk, hks⟩
  | run | seq | many | avoid => simp [isSpelling] at hp

end Pattern

namespace Rule

theorem isSpelling_of_mem_operatorLexemes :
    ∀ p ∈ operatorLexemes, p.isSpelling := by decide

/-- What is left of an operator behind another one begins neither like noise nor like an operand. -/
theorem tails_blocked : ∀ p ∈ operatorLexemes, ∀ q ∈ operatorLexemes, ∀ k ∈ Pattern.tails p q,
    k = [] ∨ Pattern.clash k [.idle] ∧ valueReturningCode.firstLexemes.all (·.bars k) := by
  decide

/-- An operator that an operand follows is the longest one at its place. -/
theorem longestOperator_of_token? {q : Pattern} {c d : Cursor} (hq : q ∈ operatorLexemes)
    (h : c.token? q = some d) (hd : d.Followed valueReturningCode.firstLexemes) :
    ∃ w, c.Passes w d ∧ c.rest.LongestIn operatorSpellings w := by
  obtain ⟨w, hw, hcd, -⟩ := Cursor.passes_of_token? h
  refine ⟨w, hcd, ⟨q, hq, Pattern.mem_language_of_split? hw⟩, ⟨_, hcd.rest.symm⟩, ?_⟩
  rintro v ⟨p, hp, hv⟩ ⟨z, hz⟩
  by_contra! hlt
  obtain ⟨k, hk, hkv, hklen⟩ :=
    Pattern.exists_head_of_mem_language (isSpelling_of_mem_operatorLexemes p hp) hv z
  obtain ⟨m, hm, hmw, hmlen⟩ :=
    Pattern.exists_head_of_isSpelling (isSpelling_of_mem_operatorLexemes q hq) hw
  rw [hz] at hkv
  have hrest : Pattern.fits (k.drop m.length) d.rest := by
    rw [hmlen]
    exact Pattern.fits_drop (hcd.rest ▸ hkv)
  rcases tails_blocked p hp q hq _ (Pattern.drop_mem_tails hk hm hkv hmw) with hnil | ⟨hidle, hbars⟩
  · have hlen := List.drop_eq_nil_iff.mp hnil
    omega
  · exact Cursor.not_followed_of_fits hidle hbars hrest hd

end Rule

/-! ## The parts of a chain -/

/-- Each tree that a repetition leaves comes from one of its rounds. -/
theorem Derives.exists_round {skip : Cursor → Cursor} {a : Phrase} {s : Text} {c d : Cursor}
    {ts : List Tree} (h : Derives skip (.many a) c ts d) (hs : Spacing skip)
    (hp : ∀ p ∈ a.lexemes, p.consumes) (hc : c.At s) :
    ∀ u ∈ ts, ∃ x us y, x.At s ∧ Derives skip a x us y ∧ u ∈ us := by
  generalize hm : Phrase.many a = m at h
  induction h with
  | token | lexeme | compact | spaced | seq | left | right | absent | present => cases hm
  | never => simp
  | once ha =>
    cases hm
    exact fun u hu => ⟨_, _, _, hc, ha, hu⟩
  | again hts ha ih =>
    obtain rfl := Phrase.many.inj hm
    intro u hu
    rcases List.mem_append.mp hu with hu | hu
    · exact ih hs hc hm u hu
    · have hd := ((hts.moves hs hp).trans (Cursor.moves_skip hs _)).at hc
      exact ⟨_, _, _, hd, ha, hu⟩

namespace Rule

/-- An operator is one of the operators of its level. -/
theorem exists_spellings : ∀ q ∈ operatorFamilies, ∃ r rs, q.production = .spaced (.anyOf r rs) ∧
    ∀ p ∈ r :: rs, ∃ w ∈ operatorLexemes, p.spelling? = some w := by
  simp only [operatorFamilies, List.forall_mem_cons]
  exact ⟨⟨_, _, rfl, by decide⟩, ⟨_, _, rfl, by decide⟩, ⟨_, _, rfl, by decide⟩, by simp⟩

/-- What an operator derives is a lexeme of an operator. -/
theorem exists_token?_of_derives {q : Rule} {c d : Cursor} {ts : List Tree}
    (hq : q ∈ operatorFamilies) (h : q.production.Derives c ts d) :
    ∃ p ∈ operatorLexemes, c.token? p = some d := by
  obtain ⟨r, rs, hr, hspell⟩ := exists_spellings q hq
  rw [hr] at h
  obtain ⟨p, hp, hcall⟩ := derives_anyOf h
  obtain ⟨_, -, hd⟩ := derives_call_iff.mp hcall
  obtain ⟨w, hw, hpw⟩ := hspell p hp
  exact ⟨w, hw, (token?_of_derives hpw hd).2⟩

/-- On each level, operands begin like values and are no operators. -/
theorem exists_chain : ∀ r ∈ chains, ∃ p q, r.production = .spaced (.chain p q) ∧
    q ∈ operatorFamilies ∧ p ∉ operatorFamilies ∧
    p.firstLexemes = valueReturningCode.firstLexemes := by
  simp only [chains, List.forall_mem_cons]
  exact ⟨⟨_, _, rfl, by decide⟩, ⟨_, _, rfl, by decide⟩, ⟨_, _, rfl, by decide⟩, by simp⟩

/-- Where a rule matches behind noise, the place in front of the noise is followed by it. -/
theorem followed_of_derives {r : Rule} {c d : Cursor} {ts : List Tree}
    (h : r.production.Derives c.skipGap ts d) : c.Followed r.firstLexemes := by
  have hcall : Derives id (.call r) c.skipGap [⟨r, ⟨c.skipGap.pos, d.stop⟩, ts⟩] d :=
    derives_call_iff.mpr ⟨ts, rfl, h⟩
  rcases hcall.opens .compact r.isClear_of_mem_firstLexemes with ⟨hn, -⟩ | ho
  · exact absurd hn (by simp [Phrase.consumes])
  · exact .inr (ho.congr (Cursor.rest_skipGap_skip .spaced c))

end Rule

/-- An operator in a chain is the longest one at the place where it starts. -/
theorem Tree.GrownAt.longestOperator {s : Text} {t : Tree} (h : t.GrownAt s)
    (ht : t.rule ∈ Rule.chains) {u : Tree} (hu : u ∈ t.children)
    (hq : u.rule ∈ Rule.operatorFamilies) :
    ∃ x, s.dropBytes? u.span.start = some x ∧ x.LongestIn Rule.operatorSpellings (u.text s) := by
  obtain ⟨c, d, ⟨hc, -⟩, -, hd, -⟩ := h
  obtain ⟨p, q, hr, -, hp, hfirst⟩ := Rule.exists_chain t.rule ht
  rw [hr] at hd
  obtain ⟨us, x, vs, hcall, hmany, hts⟩ := derives_seq_iff.mp hd
  obtain ⟨ws, rfl, -⟩ := derives_call_iff.mp hcall
  rw [hts] at hu
  rcases List.mem_append.mp hu with hu | hu
  · obtain rfl := List.mem_singleton.mp hu
    exact absurd hq hp
  · have hx := ((hcall.moves .spaced (by simp [Phrase.lexemes])).trans
      (Cursor.moves_skip .spaced x)).at hc
    obtain ⟨y, xs, z, hy, hround, hu⟩ :=
      hmany.exists_round .spaced (by simp [Phrase.lexemes]) hx u hu
    obtain ⟨os, o, ys, hop, hval, rfl⟩ := derives_seq_iff.mp hround
    obtain ⟨as, rfl, hsign⟩ := derives_call_iff.mp hop
    obtain ⟨bs, rfl, hoperand⟩ := derives_call_iff.mp hval
    simp only [List.cons_append, List.nil_append, List.mem_cons, List.not_mem_nil, or_false] at hu
    rcases hu with rfl | rfl
    · obtain ⟨l, hl, htoken⟩ := Rule.exists_token?_of_derives hq hsign
      have hfollow := hfirst ▸ Rule.followed_of_derives hoperand
      obtain ⟨w, hyo, hlong⟩ := Rule.longestOperator_of_token? hl htoken hfollow
      obtain ⟨-, -, -, hstop⟩ := Cursor.passes_of_token? htoken
      refine ⟨y.rest, hy.dropBytes?, ?_⟩
      have htext : s.slice? y.pos o.stop = some w := hstop ▸ hy.slice? hyo
      rwa [Tree.text, Span.text, htext]
    · exact absurd hq hp

/-! ## Assignments -/

/-- Behind the equals sign of an assignment stands no other one. -/
theorem Tree.GrownAt.equals_alone {s : Text} {t : Tree} (h : t.GrownAt s)
    (ht : t.rule = .assignment) :
    ∃ v e x, t.children = [v, e] ∧ v.rule = .accessedVariable ∧ e.rule = .valueReturningCode ∧
      s.dropBytes? (skipNoise s v.span.stop) = some ('=' :: x) ∧
      e.span.start = skipNoise s (skipNoise s v.span.stop + 1) ∧ x.head? ≠ some '=' := by
  obtain ⟨c, d, ⟨hc, hf⟩, -, hd, -⟩ := h
  rw [ht] at hd
  obtain ⟨us, x, _, hvar, hrest, hts⟩ := derives_seq_iff.mp hd
  obtain ⟨_, y, _, hequals, hval, rfl⟩ := derives_seq_iff.mp hrest
  obtain ⟨hx, f, hf⟩ := hvar.endsAt .spaced hc hf
  obtain ⟨ws, rfl, -⟩ := derives_call_iff.mp hvar
  obtain ⟨bs, rfl, hvalue⟩ := derives_call_iff.mp hval
  obtain ⟨rfl, htoken⟩ := derives_token_iff.mp hequals
  obtain ⟨w, hw, hxy, -⟩ := Cursor.passes_of_token? htoken
  obtain rfl := Pattern.eq_of_split?_lit hw
  have hgap := hx.skip .spaced
  have hplace : skipNoise s x.stop = x.skipGap.pos := hf.skipNoise_stop
  have hy : y.pos = x.skipGap.pos + 1 := hxy.pos
  refine ⟨_, _, y.rest, hts, rfl, rfl, ?_, ?_, fun hhead => ?_⟩
  · rw [hplace, hgap.dropBytes?, hxy.rest]
    rfl
  · rw [hplace, ← hy, (hgap.passes hxy).skipNoise]
  · obtain ⟨z, hz⟩ := List.head?_eq_some_iff.mp hhead
    have hfits : Pattern.fits [.oneOf ['=']] y.rest := by rw [hz]; exact Pattern.fits_nil z
    exact Cursor.not_followed_of_fits (by decide) (by decide) hfits (Rule.followed_of_derives hvalue)

/-! ## The trees of parses -/

/-- **Operators are read by maximal munch.**  In the tree of a parse, the text of an operator in a
chain is the longest operator of any level at the place where it starts.  In an assignment, the
equals sign stands behind the noise that follows the target, the value begins behind the noise that
follows the sign, and right behind the sign there is no second one. -/
theorem maximal_munch_of_parse {s : Text} {r : Rule} {o : Options} {t : Tree}
    (h : parse s r o = .ok t) : ∀ n ∈ t.nodes,
    (n.rule ∈ Rule.chains → ∀ u ∈ n.children, u.rule ∈ Rule.operatorFamilies →
      ∃ x, s.dropBytes? u.span.start = some x ∧ x.LongestIn Rule.operatorSpellings (u.text s)) ∧
    (n.rule = .assignment →
      ∃ v e x, n.children = [v, e] ∧ v.rule = .accessedVariable ∧ e.rule = .valueReturningCode ∧
        s.dropBytes? (skipNoise s v.span.stop) = some ('=' :: x) ∧
        e.span.start = skipNoise s (skipNoise s v.span.stop + 1) ∧ x.head? ≠ some '=') := by
  intro n hn
  have hgrown := grownAt_of_parse h n hn
  exact ⟨fun hr _ hu hq => hgrown.longestOperator hr hu hq, hgrown.equals_alone⟩

/-- An inequality, whose slash could be a division, and an assignment. -/
theorem maximal_munch_of_inequality :
    let target (i : Nat) : Tree := ⟨.accessedVariable, ⟨i, i + 1⟩, [⟨.name, ⟨i, i + 1⟩, []⟩]⟩
    let value (i : Nat) : Tree := ⟨.valueReturningCode, ⟨i, i + 1⟩, [target i]⟩
    let operand (i : Nat) : Tree := ⟨.arithmeticStatement, ⟨i, i + 1⟩, [value i]⟩
    let u : Tree := ⟨.relationalOperator, ⟨1, 3⟩, [⟨.inequality, ⟨1, 3⟩, []⟩]⟩
    let t : Tree := ⟨.relationalStatement, ⟨0, 4⟩, [operand 0, u, operand 3]⟩
    let t' : Tree := ⟨.assignment, ⟨0, 3⟩, [target 0, value 2]⟩
    parse ['a', '/', '=', 'b'] .relationalStatement {} = .ok t ∧
      Text.LongestIn Rule.operatorSpellings ['/', '=', 'b'] ['/', '='] ∧
      parse ['a', '=', 'b'] .assignment {} = .ok t' ∧
        ∃ v e x, t'.children = [v, e] ∧
          Text.dropBytes? (skipNoise ['a', '=', 'b'] v.span.stop) ['a', '=', 'b'] =
            some ('=' :: x) ∧ x.head? ≠ some '=' := by
  intro target value operand u t t'
  have ht : parse ['a', '/', '=', 'b'] .relationalStatement {} = .ok t := by rfl
  have ht' : parse ['a', '=', 'b'] .assignment {} = .ok t' := by rfl
  have hu : u ∈ t.children := by decide
  obtain ⟨x, hx, hlong⟩ := (maximal_munch_of_parse ht t t.self_mem_nodes).1 (by decide) u hu
    (by decide)
  obtain rfl : ['/', '=', 'b'] = x := Option.some.inj hx
  obtain ⟨v, e, y, hve, -, -, hy, -, hne⟩ :=
    (maximal_munch_of_parse ht' t' t'.self_mem_nodes).2 rfl
  exact ⟨ht, hlong, ht', v, e, y, hve, hy, hne⟩

end FreeForm
