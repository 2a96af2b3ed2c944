import FreeForm.Proofs.LongestWords
import FreeForm.Proofs.WrittenLiterals

/-!
# Numbers are the longest numeric prefixes

A number is found where the text begins with a literal number, and it is the longest one there is:
the match covers it, and the nodes are its groups (`longest_number`).

A run tries a float before an integer and takes a kind where there is one.  What is left behind it is
what the pattern of literal numbers leaves (`Rule.readsAs_number`), and this pattern cuts off the
longest word of its language.  Which nodes there are follows from the derivation
(`Rule.exists_numeral_of_derives`).
-/

namespace FreeForm

open Text

/-! ## Literal numbers in groups -/

/-- The groups of a literal number. -/
structure Numeral where
  sign : Text
  whole : Text
  /-- The digits behind the point. -/
  fraction : Option Text
  /-- The kind without its underscore. -/
  kind : Option Text
  sign_mem : sign ∈ [[], ['+'], ['-']]
  whole_digits : isDigitRun whole
  fraction_digits : ∀ f ∈ fraction, isDigitRun f
  kind_isKind : ∀ k ∈ kind, isKind k

namespace Numeral

/-- A fraction with its point. -/
def fractionSuffix : Option Text → Text
  | none => []
  | some f => '.' :: f

/-- The groups one behind the other. -/
def text (m : Numeral) : Text :=
  m.sign ++ (m.whole ++ (fractionSuffix m.fraction ++ kindSuffix m.kind))

/-- A leaf for the text `w` at the offset `n`. -/
def leaf (r : Rule) (n : Nat) (w : Text) : Tree := ⟨r, ⟨n, n + size w⟩, []⟩

/-- The node for a sign, if there is one, at the offset `n`. -/
def signNodes (n : Nat) (w : Text) : List Tree := if w = [] then [] else [leaf .sign n w]

/-- The node for a kind with its underscore, if there is one, at the offset `n`. -/
def kindNodes (n : Nat) : Option Text → List Tree
  | none => []
  | some k =>
    [⟨.precisionSpec, ⟨n, n + size ('_' :: k)⟩,
      [leaf (if isName k then .name else .digits) (n + size ['_']) k]⟩]

/-- The node for what stands behind the sign, at the offset `n`. -/
def literalNode (n : Nat) (w : Text) (fraction kind : Option Text) : Tree :=
  let stop := n + size (w ++ (fractionSuffix fraction ++ kindSuffix kind))
  match fraction with
  | none => ⟨.integer, ⟨n, stop⟩, leaf .digits n w :: kindNodes (n + size w) kind⟩
  | some f =>
    ⟨.float, ⟨n, stop⟩, leaf .digits n w :: leaf .digits (n + size (w ++ ['.'])) f ::
      kindNodes (n + size (w ++ '.' :: f)) kind⟩

/-- The tree of the number at the offset `n`. -/
def tree (m : Numeral) (n : Nat) : Tree :=
  ⟨.number, ⟨n, n + size m.text⟩,
    signNodes n m.sign ++ [literalNode (n + size m.sign) m.whole m.fraction m.kind]⟩

example : tree ⟨['-'], ['1'], some ['5'], some ['d', 'p'], by decide, by decide, by decide,
    by decide⟩ 0 = ⟨.number, ⟨0, 7⟩, [⟨.sign, ⟨0, 1⟩, []⟩, ⟨.float, ⟨1, 7⟩, [⟨.digits, ⟨1, 2⟩, []⟩,
      ⟨.digits, ⟨3, 4⟩, []⟩, ⟨.precisionSpec, ⟨4, 7⟩, [⟨.name, ⟨5, 7⟩, []⟩]⟩]⟩]⟩ := by
  decide

end Numeral

open Numeral

/-! ## Derivations of the groups -/

section Groups

variable {skip : Cursor → Cursor} {c d : Cursor} {ts : List Tree}

theorem Derives.leaf {r : Rule} {p : Pattern} (hr : r.production = .lexeme p)
    (h : Derives skip (.call r) c ts d) :
    ∃ w, p.split? c.rest = some (w, d.rest) ∧ c.Passes w d ∧ d.stop = d.pos ∧
      ts = [Numeral.leaf r c.pos w] := by
  obtain ⟨us, rfl, hd⟩ := derives_call_iff.mp h
  rw [hr] at hd
  obtain ⟨rfl, ht⟩ := hd
  obtain ⟨w, hw, hcd, hstop⟩ := Cursor.passes_of_token? ht
  exact ⟨w, hw, hcd, hstop, by rw [hstop, hcd.pos]; rfl⟩

theorem Derives.sign_group (h : Derives id (.opt (.call .sign)) c ts d) :
    ∃ w, w ∈ [[], ['+'], ['-']] ∧ c.Passes w d ∧ ts = signNodes c.pos w := by
  rcases derives_opt_iff.mp h with ⟨rfl, rfl⟩ | h
  · exact ⟨[], by simp, ⟨rfl, rfl⟩, rfl⟩
  · obtain ⟨us, rfl, hd⟩ := derives_call_iff.mp h
    obtain ⟨rfl, ht⟩ := derives_token_iff.mp hd
    obtain ⟨w, hw, hcd, hstop⟩ := Cursor.passes_of_token? ht
    obtain ⟨x, hx, rfl⟩ := Pattern.mem_language_of_split? hw
    have hsign : x = '+' ∨ x = '-' := by simpa [CharClass.holds] using hx
    refine ⟨[x], by simpa using hsign, hcd, ?_⟩
    rw [signNodes, if_neg (List.cons_ne_nil x []), hstop, hcd.pos]
    rfl

theorem isName_eq_false_of_isDigitRun {w : Text} (h : isDigitRun w) : isName w = false := by
  cases w with
  | nil => rfl
  | cons x w =>
    have hx : x.isDigit := Pattern.digit_of_isDigitRun h x List.mem_cons_self
    cases ha : x.isAlpha with
    | false => rw [isName, ha, Bool.false_and]
    | true => exact absurd hx (by simp [CharClass.not_isDigit_of_isAlpha ha])

/-- The name or the digits of a kind. -/
theorem Derives.name_or_digits (h : Derives skip (.anyOf .name [.digits]) c ts d) :
    ∃ w, isKind w ∧ c.Passes w d ∧ d.stop = d.pos ∧
      ts = [Numeral.leaf (if isName w then .name else .digits) c.pos w] := by
  obtain ⟨q, hq, hcall⟩ := derives_anyOf h
  simp only [List.mem_cons, List.not_mem_nil, or_false] at hq
  rcases hq with rfl | rfl
  · obtain ⟨w, hw, hcd, hstop, hts⟩ := hcall.leaf rfl
    have hname := Pattern.isName_of_split? hw
    exact ⟨w, by simp [isKind, hname], hcd, hstop, by rw [hts, if_pos hname]⟩
  · obtain ⟨w, hw, hcd, hstop, hts⟩ := hcall.leaf rfl
    have hdigits := Pattern.isDigitRun_of_split? hw
    have hname := isName_eq_false_of_isDigitRun hdigits
    exact ⟨w, by simp [isKind, hdigits], hcd, hstop, by rw [hts, hname]; rfl⟩

theorem Derives.kind_group (h : Derives id (.opt (.call .precisionSpec)) c ts d)
    (hc : c.stop = c.pos) :
    ∃ k, (∀ w ∈ k, isKind w) ∧ c.Passes (kindSuffix k) d ∧ d.stop = d.pos ∧
      ts = kindNodes c.pos k := by
  rcases derives_opt_iff.mp h with ⟨rfl, rfl⟩ | h
  · exact ⟨none, by simp, ⟨rfl, rfl⟩, hc, rfl⟩
  · obtain ⟨us, rfl, hd⟩ := derives_call_iff.mp h
    obtain ⟨_, x, _, hmark, hkind, rfl⟩ := derives_seq_iff.mp hd
    obtain ⟨rfl, ht⟩ := derives_token_iff.mp hmark
    obtain ⟨m, hm, hcx, -⟩ := Cursor.passes_of_token? ht
    obtain rfl := Pattern.eq_of_split?_lit hm
    obtain ⟨w, hw, hxd, hstop, rfl⟩ := Derives.name_or_digits hkind
    have hcd : c.Passes ('_' :: w) d := hcx.trans hxd
    refine ⟨some w, by simpa using hw, hcd, hstop, ?_⟩
    have hx : x.pos = c.pos + size ['_'] := hcx.pos
    rw [kindNodes, hstop, hcd.pos, ← hx]
    rfl

/-- An integer or a float leaves the node of its groups. -/
theorem Derives.literal_groups (h : Derives id (.anyOf .float [.integer]) c ts d) :
    ∃ w f k, isDigitRun w ∧ (∀ v ∈ f, isDigitRun v) ∧ (∀ v ∈ k, isKind v) ∧
      c.Passes (w ++ (fractionSuffix f ++ kindSuffix k)) d ∧ d.stop = d.pos ∧
      ts = [literalNode c.pos w f k] := by
  obtain ⟨q, hq, hcall⟩ := derives_anyOf h
  obtain ⟨us, rfl, hd⟩ := derives_call_iff.mp hcall
  simp only [List.mem_cons, List.not_mem_nil, or_false] at hq
  rcases hq with rfl | rfl
  · obtain ⟨_, x, _, hwhole, hrest, rfl⟩ := derives_seq_iff.mp hd
    obtain ⟨_, y, _, hpoint, hbehind, rfl⟩ := derives_seq_iff.mp hrest
    obtain ⟨_, z, _, hfraction, hkind, rfl⟩ := derives_seq_iff.mp hbehind
    obtain ⟨w, hw, hcx, -, rfl⟩ := hwhole.leaf rfl
    obtain ⟨rfl, ht⟩ := derives_token_iff.mp hpoint
    obtain ⟨p, hp, hxy, -⟩ := Cursor.passes_of_token? ht
    obtain rfl := Pattern.eq_of_split?_lit hp
    obtain ⟨f, hf, hyz, hstop, rfl⟩ := hfraction.leaf rfl
    obtain ⟨k, hk, hzd, hstop', rfl⟩ := hkind.kind_group hstop
    have hcy := hcx.trans hxy
    have hcz := hcx.trans (hxy.trans hyz)
    have hcd := hcz.trans hzd
    have hy : y.pos = c.pos + size (w ++ ['.']) := hcy.pos
    refine ⟨w, some f, k, Pattern.isDigitRun_of_split? hw,
      by simpa using Pattern.isDigitRun_of_split? hf, hk, ?_, hstop', ?_⟩
    · simpa [fractionSuffix] using hcd
    · have hd : d.pos = c.pos + size (w ++ (fractionSuffix (some f) ++ kindSuffix k)) := by
        rw [hcd.pos, List.append_assoc]
        rfl
      have hz : z.pos = c.pos + size (w ++ '.' :: f) := hcz.pos
      simp only [literalNode, hstop', ← hd, id_eq, ← hz, hy]
      rfl
  · obtain ⟨_, x, _, hwhole, hkind, rfl⟩ := derives_seq_iff.mp hd
    obtain ⟨w, hw, hcx, hstop, rfl⟩ := hwhole.leaf rfl
    obtain ⟨k, hk, hxd, hstop', rfl⟩ := hkind.kind_group hstop
    have hcd := hcx.trans hxd
    refine ⟨w, none, k, Pattern.isDigitRun_of_split? hw, by simp, hk, hcd, hstop', ?_⟩
    have hd : d.pos = c.pos + size (w ++ (fractionSuffix none ++ kindSuffix k)) := hcd.pos
    simp only [literalNode, hstop', ← hd, id_eq, ← hcx.pos]
    rfl

end Groups

/-- The tree of a number is the tree of its groups. -/
theorem Rule.exists_numeral_of_derives {c d : Cursor} {ts : List Tree}
    (h : number.production.Derives c ts d) :
    ∃ m : Numeral, c.Passes m.text d ∧ (⟨.number, ⟨c.pos, d.stop⟩, ts⟩ : Tree) = m.tree c.pos := by
  obtain ⟨_, x, _, hsign, hliteral, rfl⟩ := derives_seq_iff.mp h
  obtain ⟨g, hg, hcx, rfl⟩ := hsign.sign_group
  obtain ⟨w, f, k, hw, hf, hk, hxd, hstop, rfl⟩ := hliteral.literal_groups
  have hcd := hcx.trans hxd
  refine ⟨⟨g, w, f, k, hg, hw, hf, hk⟩, hcd, ?_⟩
  rw [tree, hstop, hcd.pos, ← hcx.pos]
  rfl

/-! ## What is left behind a number -/

namespace Phrase

/-- Without noise between its parts, the phrase is found where the pattern applies, and leaves the
same rest of the text. -/
def ReadsAs (a : Phrase) (p : Pattern) : Prop :=
  ∀ c, (a.read Rule.read id c).found.map (·.2.rest) = (p.split? c.rest).map (·.2)

variable {a b : Phrase} {p q : Pattern}

theorem readsAs_token (p : Pattern) : (token p).ReadsAs p := by
  intro c
  rw [read, Reading.ofToken, Option.map_map, Cursor.token?, Option.map_map]
  rfl

theorem ReadsAs.seq (ha : a.ReadsAs p) (hb : b.ReadsAs q) : (seq a b).ReadsAs (.seq p q) := by
  intro c
  have hc := ha c
  rw [read, Reading.found_andThen_eq, Pattern.split?]
  cases hx : (a.read Rule.read id c).found with
  | none =>
    rw [hx, Option.map_none, eq_comm, Option.map_eq_none_iff] at hc
    rw [hc]
    rfl
  | some x =>
    rw [hx, Option.map_some, eq_comm, Option.map_eq_some_iff] at hc
    obtain ⟨y, hy, hrest⟩ := hc
    have hd := hb x.2
    rw [← hrest] at hd
    rw [hy, Option.bind_some, Option.bind_some, Option.map_map, Option.map_map]
    exact hd

theorem ReadsAs.alt (ha : a.ReadsAs p) (hb : b.ReadsAs q) : (alt a b).ReadsAs (.alt p q) := by
  intro c
  rw [read, Reading.found_orElse_eq, Pattern.split?, Option.map_or, Option.map_or, ha c, hb c]

theorem ReadsAs.opt (ha : a.ReadsAs p) : (opt a).ReadsAs (.opt p) := by
  intro c
  rw [read, Reading.found_orElse_eq, Pattern.opt, Pattern.split?, Option.map_or, Option.map_or,
    ha c]
  rfl

theorem ReadsAs.call {r : Rule} (h : ∀ c,
    (r.production.read Rule.read c).found.map (·.2.rest) = (p.split? c.rest).map (·.2)) :
    (Phrase.call r).ReadsAs p := by
  intro c
  rw [← h c, read, r.found_read_eq, Option.map_map]
  rfl

end Phrase

namespace Rule

open Phrase

theorem readsAs_digits : (Phrase.call digits).ReadsAs .digitRun :=
  .call (readsAs_token .digitRun)

theorem readsAs_kind : (opt (.call precisionSpec)).ReadsAs (.opt .kindPart) := by
  have hname : (Phrase.call name).ReadsAs .identifier := .call (readsAs_token .identifier)
  exact .opt (.call ((readsAs_token (.lit ['_'])).seq (hname.alt readsAs_digits)))

/-- A run tries a float and then an integer. -/
theorem readsAs_number : (Phrase.call number).ReadsAs (.seq (.opt (.one (.oneOf ['+', '-'])))
    (.alt (.seq .digitRun (.seq (.lit ['.']) (.seq .digitRun (.opt .kindPart))))
      (.seq .digitRun (.opt .kindPart)))) := by
  have hsign : (Phrase.call sign).ReadsAs (.one (.oneOf ['+', '-'])) := .call (readsAs_token _)
  have hfloat : (Phrase.call float).ReadsAs _ :=
    .call (readsAs_digits.seq ((readsAs_token (.lit ['.'])).seq (readsAs_digits.seq readsAs_kind)))
  have hinteger : (Phrase.call integer).ReadsAs _ := .call (readsAs_digits.seq readsAs_kind)
  exact .call (hsign.opt.seq (hfloat.alt hinteger))

end Rule

namespace Pattern

variable {p q q' d k : Pattern} {s : Text}

theorem rest_split?_seq (h : ∀ s, (q.split? s).map (·.2) = (q'.split? s).map (·.2)) :
    ((seq p q).split? s).map (·.2) = ((seq p q').split? s).map (·.2) := by
  rw [split?, split?]
  cases p.split? s with
  | none => rfl
  | some x =>
    have hx := h x.2
    simp only [Option.bind_some, Option.map_map]
    exact hx

/-- A float or else an integer leaves what digits leave with an optional fraction behind them. -/
theorem rest_split?_float_or_integer (hk : ∀ s, (k.split? s).isSome) :
    ((alt (seq d (seq p (seq d k))) (seq d k)).split? s).map (·.2) =
      ((seq d (seq (opt (seq p d)) k)).split? s).map (·.2) := by
  simp only [opt, split?]
  cases d.split? s with
  | none => rfl
  | some x =>
    simp only [Option.bind_some]
    obtain ⟨z, hz⟩ := Option.isSome_iff_exists.mp (hk x.2)
    cases p.split? x.2 with
    | none => simp [hz, splitWord?]
    | some y =>
      simp only [Option.bind_some]
      cases d.split? y.2 with
      | none => simp [hz, splitWord?]
      | some w =>
        obtain ⟨v, hv⟩ := Option.isSome_iff_exists.mp (hk w.2)
        simp [hv]

end Pattern

/-- Behind a number stands what the pattern of literal numbers leaves. -/
theorem Rule.readsAs_numeral : (Phrase.call number).ReadsAs .numeral := by
  intro c
  rw [readsAs_number c]
  exact Pattern.rest_split?_seq fun s => Pattern.rest_split?_float_or_integer fun s => by
    simp [Pattern.opt, Pattern.split?, Pattern.splitWord?]

namespace Numeral

theorem word_of_isKind {k : Text} (h : isKind k) : ∀ x ∈ k, CharClass.wordChar.holds x := by
  simp only [isKind, Bool.or_eq_true] at h
  rcases h with h | h
  · cases k with
    | nil => simp
    | cons x k =>
      simp only [isName, Bool.and_eq_true, List.all_eq_true] at h
      refine List.forall_mem_cons.mpr ⟨?_, h.2⟩
      simp [CharClass.holds, Char.isAlphanum, h.1]
  · intro x hx
    have hdigit := Pattern.digit_of_isDigitRun h x hx
    simp [CharClass.holds, Char.isAlphanum, hdigit]

/-- A literal number has a point if it has a fraction. -/
theorem point_mem_text (m : Numeral) : '.' ∈ m.text ↔ m.fraction.isSome := by
  obtain ⟨sign, whole, fraction, kind, hsign, hwhole, -, hkind⟩ := m
  have hnosign : '.' ∉ sign := by
    simp only [List.mem_cons, List.not_mem_nil, or_false] at hsign
    rcases hsign with rfl | rfl | rfl <;> decide
  have hnowhole : '.' ∉ whole := fun h =>
    absurd (Pattern.digit_of_isDigitRun hwhole _ h) (by decide)
  have hnokind : '.' ∉ kindSuffix kind := by
    cases kind with
    | none => simp [kindSuffix]
    | some k =>
      rw [kindSuffix, List.mem_cons, not_or]
      exact ⟨by decide, fun h => absurd (word_of_isKind (hkind k rfl) _ h) (by decide)⟩
  cases fraction with
  | none => simp [text, fractionSuffix, hnosign, hnowhole, hnokind]
  | some f => simp [text, fractionSuffix]

/-- The node behind the sign is a float if the literal number has a point. -/
theorem exists_float_iff (m : Numeral) (n : Nat) :
    (∃ u ∈ (m.tree n).children, u.rule = .float) ↔ '.' ∈ m.text := by
  have hsign : ∀ u ∈ signNodes n m.sign, u.rule = .sign := by
    intro u hu
    unfold signNodes at hu
    split at hu
    · simp at hu
    · rw [List.mem_singleton.mp hu]
      rfl
  have hliteral : ∀ n w f k, (literalNode n w f k).rule = .float ↔ f.isSome := by
    intro n w f k
    cases f <;> simp [literalNode]
  rw [m.point_mem_text, ← hliteral (n + size m.sign) m.whole m.fraction m.kind]
  constructor
  · rintro ⟨u, hu, hfloat⟩
    rcases List.mem_append.mp hu with hu | hu
    · exact absurd ((hsign u hu).symm.trans hfloat) (by decide)
    · rwa [List.mem_singleton.mp hu] at hfloat
  · exact fun h => ⟨_, List.mem_append_right _ (List.mem_singleton_self _), h⟩

end Numeral

/-- **A number is the longest numeric prefix.**  If matches need not be complete, a number is found
where parentheses do not nest too deeply and the text begins with a literal number.  The match covers
the longest literal number with which the text begins, and its nodes are the groups of it; there is
a float among them if it has a point. -/
theorem longest_number (s : Text) (o : Options) :
    (o.requireComplete = false → ((∃ t, parse s .number o = .ok t) ↔
      nestingDepth s ≤ o.maxNesting ∧ ∃ w ∈ Pattern.numeral.language, w <+: s)) ∧
    ∀ t, parse s .number o = .ok t →
      ∃ m : Numeral, s.LongestIn Pattern.numeral.language m.text ∧ t = m.tree 0 ∧
        ((∃ u ∈ t.children, u.rule = .float) ↔ '.' ∈ m.text) := by
  have hrest : (Rule.number.read (.start s 0)).found.map (·.2.rest) =
      (Pattern.numeral.split? s).map (·.2) := Rule.readsAs_numeral (.start s 0)
  refine ⟨fun ho => ?_, fun t ht => ?_⟩
  · have hfound : ((Rule.number.read (.start s 0)).found).isSome =
        (Pattern.numeral.split? s).isSome := by
      simpa only [Option.isSome_map] using congrArg Option.isSome hrest
    rw [← Pattern.munches_numeral.isSome_iff, ← hfound, Option.isSome_iff_exists]
    constructor
    · rintro ⟨t, ht⟩
      obtain ⟨hn, d, hf, -⟩ := parse_eq_ok_iff.mp ht
      exact ⟨hn, _, hf⟩
    · rintro ⟨hn, ⟨ts, d⟩, hf⟩
      obtain ⟨us, rfl, -⟩ := Rule.derives_of_read hf
      exact ⟨_, parse_eq_ok_iff.mpr ⟨hn, d, hf, by simp [ho]⟩⟩
  · obtain ⟨-, d, hf, -⟩ := parse_eq_ok_iff.mp ht
    obtain ⟨ts, hts, hd⟩ := Rule.derives_of_read hf
    obtain rfl := List.head_eq_of_cons_eq hts
    obtain ⟨m, hm, htree⟩ := Rule.exists_numeral_of_derives hd
    refine ⟨m, ?_, htree, htree ▸ m.exists_float_iff 0⟩
    rw [hf, Option.map_some, eq_comm, Option.map_eq_some_iff] at hrest
    obtain ⟨⟨w, r⟩, hw, rfl⟩ := hrest
    have hs : s = w ++ d.rest := Pattern.split?_eq_append hw
    obtain rfl : w = m.text := List.append_cancel_right (hs.symm.trans hm.rest)
    exact Pattern.munches_numeral.longestIn hw

/-- A float whose kind is a number, in front of a letter. -/
theorem longest_number_of_kind :
    let s : Text := ['1', '.', '5', '_', '2', 'a']
    let kind : Tree := ⟨.precisionSpec, ⟨3, 5⟩, [⟨.digits, ⟨4, 5⟩, []⟩]⟩
    let t : Tree := ⟨.number, ⟨0, 5⟩,
      [⟨.float, ⟨0, 5⟩, [⟨.digits, ⟨0, 1⟩, []⟩, ⟨.digits, ⟨2, 3⟩, []⟩, kind]⟩]⟩
    parse s .number {} = .ok t ∧ (∃ w ∈ Pattern.numeral.language, w <+: s) ∧
      ∃ m : Numeral, s.LongestIn Pattern.numeral.language m.text ∧ t = m.tree 0 ∧
        '.' ∈ m.text := by
  intro s kind t
  have ht : parse s .number {} = .ok t := by rfl
  obtain ⟨-, hw⟩ := ((longest_number s {}).1 rfl).mp ⟨t, ht⟩
  obtain ⟨m, hm, htree, hfloat⟩ := (longest_number s {}).2 t ht
  exact ⟨ht, hw, m, hm, htree, hfloat.mp (by decide)⟩

end FreeForm
