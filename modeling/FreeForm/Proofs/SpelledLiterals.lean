import FreeForm.Lowering.Literal
import FreeForm.Proofs.Spelled

/-!
# Spelled names and literals

Each kind of names and literals has a lemma `exists_tree`: where the spelling of a
well-formed `x` stands in a text, its rule leaves a tree there, and what the tree is lowered to is
`x` again, up to the spans.
-/

namespace FreeForm

/-! ## Lowering of given children -/

/-- The lowering gives `x` again, up to spans. -/
def Recovers {α : Type} (bare : α → α) (m : Lowered α) (x : α) : Prop :=
  ∃ y, m = .ok y ∧ bare y = bare x

theorem recovers_mapM {α : Type} {bare : α → α} {lower : Tree → Lowered α} {l : List α}
    {ts : List Tree} (h : List.Forall₂ (fun x t => Recovers bare (lower t) x) l ts) :
    Recovers (List.map bare) (ts.mapM lower) l := by
  induction h with
  | nil => exact ⟨[], rfl, rfl⟩
  | @cons x t l ts hx _ ih =>
    obtain ⟨y, hy, hb⟩ := hx
    obtain ⟨ys, hys, hbs⟩ := ih
    refine ⟨y :: ys, ?_, by rw [List.map_cons, List.map_cons, hb, hbs]⟩
    rw [List.mapM_cons, hy, hys]
    rfl

section Children

variable {α β : Type} {source : Source} {r q : Rule} {s : Span} {t : Tree} {ts us : List Tree}
  {lower : Tree → Lowered α}

@[simp] theorem lowered_ok_bind (a : α) (f : α → Lowered β) : (Except.ok a >>= f) = f a := rfl

@[simp] theorem Tree.expect_mk : (⟨r, s, ts⟩ : Tree).expect source r = .ok () := if_pos rfl

@[simp] theorem Tree.firstChild_mk (e : String) :
    (⟨r, s, t :: ts⟩ : Tree).firstChild source e = .ok t := rfl

namespace Tree

theorem child?_of_eq (h : t.rule = q) : (⟨r, s, t :: ts⟩ : Tree).child? q = some t := by
  rw [child?, List.find?_cons_of_pos (by simpa using h)]

theorem child?_of_ne (h : t.rule ≠ q) :
    (⟨r, s, t :: ts⟩ : Tree).child? q = (⟨r, s, ts⟩ : Tree).child? q := by
  rw [child?, List.find?_cons_of_neg (by simpa using h), child?]

theorem required_of_eq (h : t.rule = q) :
    (⟨r, s, t :: ts⟩ : Tree).required source q = .ok t := by rw [required, child?_of_eq h]

theorem optional_of_eq (h : t.rule = q) :
    (⟨r, s, t :: ts⟩ : Tree).optional q lower = (lower t).map some := by
  rw [optional, child?_of_eq h]

theorem optional_of_ne (h : t.rule ≠ q) :
    (⟨r, s, t :: ts⟩ : Tree).optional q lower = (⟨r, s, ts⟩ : Tree).optional q lower := by
  rw [optional, child?_of_ne h, optional]

theorem rule_ne_of_forall (h : ∀ t ∈ ts, t.rule = q) (hq : q ≠ r) : ∀ t ∈ ts, t.rule ≠ r :=
  fun t ht => h t ht ▸ hq

/-- Children of other rules do not count. -/
theorem child?_append_of_ne (h : ∀ u ∈ us, u.rule ≠ q) :
    (⟨r, s, us ++ ts⟩ : Tree).child? q = (⟨r, s, ts⟩ : Tree).child? q := by
  induction us with
  | nil => rfl
  | cons u us ih =>
    obtain ⟨hu, hus⟩ := List.forall_mem_cons.mp h
    rw [List.cons_append, child?_of_ne hu, ih hus]

theorem optional_of_forall_ne (h : ∀ t ∈ ts, t.rule ≠ q) :
    (⟨r, s, ts⟩ : Tree).optional q lower = .ok none := by
  have hnone : (⟨r, s, ts ++ []⟩ : Tree).child? q = none := child?_append_of_ne h
  rw [List.append_nil] at hnone
  rw [optional, hnone]

theorem childrenNamed_of_eq (h : t.rule = q) :
    (⟨r, s, t :: ts⟩ : Tree).childrenNamed q = t :: (⟨r, s, ts⟩ : Tree).childrenNamed q :=
  List.filter_cons_of_pos (by simpa using h)

theorem childrenNamed_of_ne (h : t.rule ≠ q) :
    (⟨r, s, t :: ts⟩ : Tree).childrenNamed q = (⟨r, s, ts⟩ : Tree).childrenNamed q :=
  List.filter_cons_of_neg (by simpa using h)

theorem childrenNamed_of_forall (h : ∀ t ∈ ts, t.rule = q) :
    (⟨r, s, ts⟩ : Tree).childrenNamed q = ts :=
  List.filter_eq_self.mpr fun t ht => by simpa using h t ht

end Tree

end Children

/-! ## Names and numbers -/

section Numbers

variable {source : Source} {n : Nat} {u : Text}

theorem Identifier.exists_tree (x : Identifier) (hx : x.isWellFormed) (hu : u.Stops .wordChar)
    (hat : (Cursor.start (x.spell ++ u) n).At source.content) :
    ∃ t : Tree, t.Spells id .name x.spell n u ∧
      Identifier.ofTree source t = .ok ⟨x.name, ⟨n, n + Text.size x.name⟩⟩ := by
  have ht := Rule.spells_lexeme (r := .name) (n := n) rfl
    (Pattern.split?_identifier (w := x.spell) hx hu)
  refine ⟨_, ht, ?_⟩
  rw [Identifier.ofTree, Tree.expect_mk, lowered_ok_bind, ht.text hat]
  rfl

theorem exists_digits {w : Text} (hw : isDigitRun w) (hu : u.Stops .digit)
    (hat : (Cursor.start (w ++ u) n).At source.content) :
    ∃ t : Tree, t.Spells id .digits w n u ∧ t.text source.content = w := by
  have ht := Rule.spells_lexeme (r := .digits) (n := n) rfl
    (Pattern.split?_digits hw hu)
  exact ⟨_, ht, ht.text hat⟩

/-- A kind with its underscore. -/
theorem exists_kind {k : Text} (hk : isKind k) (hu : u.Stops .wordChar)
    (hat : (Cursor.start ('_' :: k ++ u) n).At source.content) :
    ∃ t : Tree, t.Spells id .precisionSpec ('_' :: k) n u ∧ kindOfTree source t = .ok k := by
  have hat' : (Cursor.start (['_'] ++ (k ++ u)) n).At source.content := hat
  obtain ⟨q, hq, t, ht, htext⟩ : ∃ q ∈ [Rule.name, .digits], ∃ t : Tree,
      t.Spells id q k (n + Text.size ['_']) u ∧ t.text source.content = k := by
    rcases Bool.or_eq_true_iff.mp hk with hk | hk
    · have ht := Rule.spells_lexeme (r := .name) (n := n + Text.size ['_']) rfl
        (Pattern.split?_identifier hk hu)
      exact ⟨.name, by decide, _, ht, ht.text hat'.behind⟩
    · obtain ⟨t, ht⟩ := exists_digits hk hu.digit hat'.behind
      exact ⟨.digits, by decide, t, ht⟩
  have hseq := Phrase.Spells.seq (.punct ['_']) (Cursor.gap_id (k ++ u)) (ht.derives.anyOf hq)
  refine ⟨_, Rule.spells_compact rfl (by decide) hseq (by simpa using ht.settled), ?_⟩
  rw [kindOfTree, Tree.expect_mk, lowered_ok_bind, List.nil_append, Tree.firstChild_mk,
    lowered_ok_bind, htext]
  rfl

/-- Digits with a kind or without. -/
theorem exists_digitsKind {w : Text} {kind : Option Text} (hw : isDigitRun w)
    (hk : kind.all isKind) (hu : u.Stops .wordChar)
    (hat : (Cursor.start (w ++ kindSuffix kind ++ u) n).At source.content) :
    ∃ (t : Tree) (ts : List Tree), (Phrase.seq (.call .digits)
        (.opt (.call .precisionSpec))).Spells id (w ++ kindSuffix kind) n u (t :: ts) ∧
      (∀ v ∈ t :: ts, v.Settled (Rule.Asks Tree.HasRegion)) ∧
      t.rule = .digits ∧ t.text source.content = w ∧
      ∀ r s, (⟨r, s, ts⟩ : Tree).optional .precisionSpec (kindOfTree source) = .ok kind := by
  cases kind with
  | none =>
    rw [kindSuffix, List.append_nil] at hat ⊢
    obtain ⟨t, ht, htext⟩ := exists_digits hw hu.digit hat
    exact ⟨t, [], ht.derives.seq_absent .compact, by simpa using ht.settled, ht.rule, htext,
      fun _ _ => rfl⟩
  | some k =>
    rw [kindSuffix, List.append_assoc] at hat
    have hmark : Text.Stops .digit ('_' :: k ++ u) := Text.stops_cons (by decide) _
    obtain ⟨t, ht, htext⟩ := exists_digits hw hmark hat
    obtain ⟨v, hv, hlower⟩ := exists_kind (by simpa using hk) hu hat.behind
    refine ⟨t, [v], ht.derives.seq (g := []) (Cursor.gap_id _) hv.derives.present, ?_, ht.rule,
      htext, fun r s => ?_⟩
    · simpa using ⟨ht.settled, hv.settled⟩
    · rw [Tree.optional, Tree.child?_of_eq hv.rule]
      simp only [hlower]
      rfl

theorem IntegerLiteral.exists_tree (x : IntegerLiteral) (hx : x.isWellFormed)
    (hu : u.Stops .wordChar) (hat : (Cursor.start (x.spell ++ u) n).At source.content) :
    ∃ t : Tree, t.Spells id .integer x.spell n u ∧
      Recovers bare (IntegerLiteral.ofTree source t) x := by
  obtain ⟨hd, hk⟩ := Bool.and_eq_true_iff.mp hx
  obtain ⟨t, ts, ht, hset, hr, htext, hkind⟩ := exists_digitsKind hd hk hu hat
  refine ⟨_, Rule.spells_compact rfl (by decide) ht hset,
    ⟨x.digits, x.kind, ⟨n, n + Text.size x.spell⟩⟩, ?_, rfl⟩
  have hne : t.rule ≠ .precisionSpec := by rw [hr]; decide
  rw [IntegerLiteral.ofTree, Tree.expect_mk, Tree.required_of_eq hr, Tree.optional_of_ne hne, hkind]
  simp [htext]

theorem FloatLiteral.exists_tree (x : FloatLiteral) (hx : x.isWellFormed)
    (hu : u.Stops .wordChar) (hat : (Cursor.start (x.spell ++ u) n).At source.content) :
    ∃ t : Tree, t.Spells id .float x.spell n u ∧
      Recovers bare (FloatLiteral.ofTree source t) x := by
  simp only [isWellFormed, Bool.and_eq_true] at hx
  obtain ⟨⟨hw, hf⟩, hk⟩ := hx
  have hat' : (Cursor.start
      (x.whole ++ (['.'] ++ (x.fraction ++ kindSuffix x.kind ++ u))) n).At source.content := by
    simpa [spell] using hat
  obtain ⟨w, hws, hwtext⟩ := exists_digits hw (Text.stops_cons (by decide) _) hat'
  obtain ⟨t, ts, ht, hset, hr, htext, hkind⟩ := exists_digitsKind hf hk hu hat'.behind.behind
  have hseq := hws.derives.seq (g := []) (Cursor.gap_id _)
    (.seq (.punct ['.']) (Cursor.gap_id _) ht)
  refine ⟨_, Rule.spells_compact rfl (by decide) hseq
      (List.forall_mem_cons.mpr ⟨hws.settled, hset⟩),
    ⟨x.whole, x.fraction, x.kind, ⟨n, n + Text.size x.spell⟩⟩, ?_, rfl⟩
  have hne : ∀ {v : Tree}, v.rule = .digits → v.rule ≠ .precisionSpec := by
    intro v hv
    rw [hv]
    decide
  simp only [List.nil_append, List.singleton_append]
  rw [FloatLiteral.ofTree, Tree.expect_mk, Tree.childrenNamed_of_eq hws.rule,
    Tree.childrenNamed_of_eq hr, Tree.optional_of_ne (hne hws.rule), Tree.optional_of_ne (hne hr),
    hkind]
  simp [hwtext, htext]

theorem NumberLiteral.exists_tree (x : NumberLiteral) (hx : x.isWellFormed)
    (hu : u.Stops .wordChar) (hat : (Cursor.start (x.spell ++ u) n).At source.content) :
    ∃ t : Tree, (Phrase.anyOf .float [.integer]).Spells id x.spell n u [t] ∧
      t.Settled (Rule.Asks Tree.HasRegion) ∧ t.rule ≠ .sign ∧
      ∀ (s : Span) (ts : List Tree), (∀ v ∈ ts, v.rule = .sign) →
        Recovers bare (NumberLiteral.ofTree source ⟨.number, s, ts ++ [t]⟩) x := by
  cases x with
  | integer x =>
    obtain ⟨t, ht, y, hy, hb⟩ := x.exists_tree hx hu hat
    have hne : t.rule ≠ .float := by rw [ht.rule]; decide
    refine ⟨t, ht.derives.anyOf (by decide), ht.settled, by rw [ht.rule]; decide, fun s ts hts =>
      ⟨.integer y, ?_, by rw [bare, hb, bare]⟩⟩
    have hskip := fun {q} (hq : Rule.sign ≠ q) => Tree.rule_ne_of_forall hts hq
    rw [NumberLiteral.ofTree, Tree.child?_append_of_ne (hskip (by decide)), Tree.child?_of_ne hne,
      Tree.required, Tree.child?_append_of_ne (hskip (by decide)), Tree.child?_of_eq ht.rule]
    simp [Tree.child?, hy]
  | float x =>
    obtain ⟨t, ht, y, hy, hb⟩ := x.exists_tree hx hu hat
    refine ⟨t, ht.derives.anyOf (by decide), ht.settled, by rw [ht.rule]; decide, fun s ts hts =>
      ⟨.float y, ?_, by rw [bare, hb, bare]⟩⟩
    have hskip := Tree.rule_ne_of_forall (r := .float) hts (by decide)
    rw [NumberLiteral.ofTree, Tree.child?_append_of_ne hskip, Tree.child?_of_eq ht.rule]
    simp only [hy]
    rfl

theorem NumberLiteral.isDecimal_bare (x : NumberLiteral) : x.bare.isDecimal = x.isDecimal := by
  cases x <;> rfl

theorem NumberLiteral.isDecimal_of_isWellFormed {x : NumberLiteral} (hx : x.isWellFormed) :
    x.isDecimal := by
  cases x with
  | integer x => exact (Bool.and_eq_true_iff.mp hx).1
  | float x => exact (Bool.and_eq_true_iff.mp hx).1

theorem exists_sign (source : Source) (g : Sign) (n : Nat) (u : Text) :
    ∃ t : Tree, t.Spells id .sign (signPrefix (some g)) n u ∧
      ((Cursor.start (signPrefix (some g) ++ u) n).At source.content →
        Sign.ofTree source t = .ok g) := by
  have hsplit : (Pattern.one (.oneOf ['+', '-'])).split? (signPrefix (some g) ++ u) =
      some (signPrefix (some g), u) := by cases g <;> rfl
  have ht := Rule.spells_mark (r := .sign) (n := n) rfl hsplit
  refine ⟨_, ht, fun hat => ?_⟩
  rw [Sign.ofTree, ht.text hat]
  cases g <;> rfl

theorem Number.exists_tree (x : Number) (hx : x.isWellFormed) (hu : u.Stops .wordChar)
    (hat : (Cursor.start (x.spell ++ u) n).At source.content) :
    ∃ t : Tree, t.Spells id .number x.spell n u ∧
      ∃ y, Number.ofTree source t = .ok y ∧ y.bare = x.bare ∧ y.span = t.span := by
  have hdecimal : ∀ {y : NumberLiteral}, y.bare = x.literal.bare → y.isDecimal := by
    intro y hb
    rw [← y.isDecimal_bare, hb, NumberLiteral.isDecimal_bare]
    exact NumberLiteral.isDecimal_of_isWellFormed hx
  rw [spell, List.append_assoc] at hat
  obtain ⟨t, ht, hset, hr, hlower⟩ := x.literal.exists_tree hx hu hat.behind
  cases hg : x.sign with
  | none =>
    rw [hg] at ht
    have hseq := Phrase.Spells.absent_seq (a := .call .sign) (Cursor.gap_id _) ht
    obtain ⟨y, hy, hb⟩ := hlower ⟨n, n + Text.size x.spell⟩ [] (by simp)
    have hw : x.spell = x.literal.spell := by rw [spell, hg]; rfl
    rw [hw] at hy ⊢
    refine ⟨_, Rule.spells_compact rfl (by decide) hseq (by simpa using hset),
      ⟨none, y, _⟩, ?_, by simp [bare, hb, hg], rfl⟩
    rw [List.nil_append] at hy
    rw [Number.ofTree, Tree.expect_mk, Tree.optional_of_ne hr, hy]
    simp [hdecimal hb, Tree.optional, Tree.child?]
  | some g =>
    obtain ⟨v, hv, hsign⟩ := exists_sign source g n (x.literal.spell ++ u)
    rw [hg] at ht hat
    have hseq := hv.derives.present.seq (g := []) (Cursor.gap_id _) ht
    obtain ⟨y, hy, hb⟩ := hlower ⟨n, n + Text.size x.spell⟩ [v] (by simpa using hv.rule)
    have hw : x.spell = signPrefix (some g) ++ ([] ++ x.literal.spell) := by rw [spell, hg]; rfl
    rw [hw] at hy ⊢
    refine ⟨_, Rule.spells_compact rfl (by decide) hseq (by simpa using ⟨hv.settled, hset⟩),
      ⟨some g, y, _⟩, ?_, by simp [bare, hb, hg], rfl⟩
    rw [List.singleton_append] at hy ⊢
    rw [Number.ofTree, Tree.expect_mk, Tree.optional_of_eq hv.rule, hsign hat, hy]
    simp [hdecimal hb, Except.map]

end Numbers

/-! ## Strings and truth values -/

section Words

variable {source : Source} {n : Nat} {u : Text}

theorem unquote?_spell (x : StringLiteral) (hx : x.isWellFormed) :
    unquote? x.spell = some (x.quote, x.value) := by
  obtain ⟨hq, -⟩ := Bool.and_eq_true_iff.mp hx
  rw [StringLiteral.spell, unquote?, if_pos ⟨by simpa using hq, by simp⟩, List.dropLast_concat]

theorem StringLiteral.exists_tree (x : StringLiteral) (hx : x.isWellFormed)
    (hat : (Cursor.start (x.spell ++ u) n).At source.content) :
    ∃ t : Tree, t.Spells id .string x.spell n u ∧
      ∃ y, StringLiteral.ofTree source t = .ok y ∧ y.bare = x.bare ∧ y.span = t.span := by
  have hunquote := unquote?_spell x hx
  simp only [isWellFormed, Bool.and_eq_true, Bool.or_eq_true, decide_eq_true_eq,
    Bool.not_eq_true', List.contains_eq_mem, decide_eq_false_iff_not] at hx
  obtain ⟨hq, hv⟩ := hx
  have hquoted := Pattern.split?_quotedWith_self hv u
  have hsplit : (Pattern.alt (.quotedWith '"') (.quotedWith '\'')).split? (x.spell ++ u) =
      some (x.spell, u) := by
    refine Pattern.split?_alt_eq_some.mpr ?_
    rcases hq with hq | hq
    · rw [hq] at hquoted
      exact .inl (by rw [spell, hq, hquoted])
    · rw [hq] at hquoted
      refine .inr ⟨?_, by rw [spell, hq, hquoted]⟩
      rw [spell, hq]
      exact Pattern.split?_eq_none_of_rejects (by decide) _
  have ht := Rule.spells_lexeme (r := .string) (n := n) rfl hsplit
  refine ⟨_, ht, ⟨x.value, x.quote, ⟨n, n + Text.size x.spell⟩⟩, ?_, rfl, rfl⟩
  rw [StringLiteral.ofTree, Tree.expect_mk, lowered_ok_bind, ht.text hat, hunquote]
  rfl

theorem exists_booleanValue (b : Bool)
    (hat : (Cursor.start (truthWord b ++ u) n).At source.content) :
    ∃ t : Tree, t.Spells id .booleanValue (truthWord b) n u ∧
      truthValue? (t.text source.content) = some b := by
  have hsplit : (Pattern.alt (.word ['.', 't', 'r', 'u', 'e', '.'])
      (.word ['.', 'f', 'a', 'l', 's', 'e', '.'])).split? (truthWord b ++ u) =
      some (truthWord b, u) := by
    refine Pattern.split?_alt_eq_some.mpr ?_
    cases b with
    | true => exact .inl (Pattern.split?_word_self _ u)
    | false => exact .inr ⟨rfl, Pattern.split?_word_self _ u⟩
  have ht := Rule.spells_lexeme (r := .booleanValue) (n := n) rfl hsplit
  refine ⟨_, ht, ?_⟩
  rw [ht.text hat]
  cases b <;> decide

theorem exists_negation (n : Nat) (u : Text) :
    ∃ t : Tree,
      t.Spells Cursor.skipGap .logicalPrefixOperator ['.', 'n', 'o', 't', '.'] n u := by
  have ht := Rule.spells_mark (r := .logicalNot) (n := n) rfl
    (Pattern.split?_word_self ['.', 'n', 'o', 't', '.'] u)
  exact ⟨_, Rule.spells_spaced rfl (by decide) ht.of_id.derives (by simpa using ht.settled)⟩

theorem Boolean.exists_tree (x : Boolean)
    (hat : (Cursor.start (x.spell ++ u) n).At source.content) :
    ∃ t : Tree, t.Spells Cursor.skipGap .boolean x.spell n u ∧
      ∃ y, Boolean.ofTree source t = .ok y ∧ y.bare = x.bare ∧ y.span = t.span := by
  have hbegins : (truthWord x.literal ++ u).Begins := by
    cases x.literal <;> exact Text.begins_cons (by decide) _
  cases hx : x.negated with
  | false =>
    have hw : x.spell = truthWord x.literal := by simp [spell, hx]
    rw [hw] at hat ⊢
    obtain ⟨t, ht, hvalue⟩ := exists_booleanValue x.literal hat
    have hseq := Phrase.Spells.absent_seq (a := .call .logicalPrefixOperator)
      (Cursor.gap_nil hbegins) ht.of_id.derives
    refine ⟨_, Rule.spells_spaced rfl (by decide) hseq (by simpa using ht.settled),
      ⟨false, x.literal, _⟩, ?_, by simp [bare, hx], rfl⟩
    have hne : t.rule ≠ .logicalPrefixOperator := by rw [ht.rule]; decide
    simp only [Boolean.ofTree, Boolean.parts, Tree.required_of_eq ht.rule,
      Tree.child?_of_ne hne, lowered_ok_bind, pure_bind]
    rw [hvalue]
    rfl
  | true =>
    have hw : x.spell = ['.', 'n', 'o', 't', '.'] ++ ([' '] ++ truthWord x.literal) := by
      simp [spell, hx]
    rw [hw] at hat ⊢
    rw [List.append_assoc, List.append_assoc] at hat
    obtain ⟨v, hv⟩ := exists_negation n ([' '] ++ (truthWord x.literal ++ u))
    obtain ⟨t, ht, hvalue⟩ := exists_booleanValue x.literal hat.behind.behind
    have hseq := hv.derives.present.seq (Cursor.gap_blank hbegins) ht.of_id.derives
    refine ⟨_, Rule.spells_spaced rfl (by decide) hseq (by simpa using ⟨hv.settled, ht.settled⟩),
      ⟨true, x.literal, _⟩, ?_, by simp [bare, hx], rfl⟩
    have hne : v.rule ≠ .booleanValue := by rw [hv.rule]; decide
    simp only [Boolean.ofTree, Boolean.parts, Tree.required, List.singleton_append,
      Tree.child?_of_ne hne, Tree.child?_of_eq ht.rule, Tree.child?_of_eq hv.rule, lowered_ok_bind,
      pure_bind]
    rw [hvalue]
    rfl

end Words

/-! ## First characters -/

theorem Text.begins_of_wordChar {x : Char} (h : CharClass.wordChar.holds x) (v : Text) :
    Text.Begins (x :: v) := by
  have hmarks : Pattern.noiseMarks.all fun m => !CharClass.wordChar.holds m := by decide
  exact Text.begins_cons (fun hm => by simpa [h] using List.all_eq_true.mp hmarks x hm) v

theorem begins_of_isName {w : Text} (hw : isName w) : w.Begins := by
  cases w with
  | nil => simp [isName] at hw
  | cons c w =>
    simp only [isName, Bool.and_eq_true] at hw
    exact Text.begins_of_wordChar (by simp [CharClass.holds, Char.isAlphanum, hw.1]) w

theorem begins_of_isDigitRun {w : Text} (hw : isDigitRun w) : w.Begins := by
  cases w with
  | nil => simp [isDigitRun] at hw
  | cons c w =>
    simp only [isDigitRun, List.all_cons, Bool.and_eq_true] at hw
    exact Text.begins_of_wordChar (by simp [CharClass.holds, Char.isAlphanum, hw.2.1]) w

theorem IntegerLiteral.begins {x : IntegerLiteral} (hx : x.isWellFormed) : x.spell.Begins :=
  (begins_of_isDigitRun (Bool.and_eq_true_iff.mp hx).1).append _

theorem begins_signPrefix {g : Option Sign} {w : Text} (hw : w.Begins) :
    (signPrefix g ++ w).Begins := by
  rcases g with _ | _ | _
  · exact hw
  · exact Text.begins_cons (by decide) w
  · exact Text.begins_cons (by decide) w

theorem Number.begins {x : Number} (hx : x.isWellFormed) : x.spell.Begins := by
  refine begins_signPrefix ?_
  rw [isWellFormed] at hx
  cases hl : x.literal with
  | integer y =>
    rw [hl] at hx
    exact IntegerLiteral.begins hx
  | float y =>
    rw [hl] at hx
    simp only [NumberLiteral.isWellFormed, FloatLiteral.isWellFormed, Bool.and_eq_true] at hx
    exact (begins_of_isDigitRun hx.1.1).append _

theorem StringLiteral.begins {x : StringLiteral} (hx : x.isWellFormed) : x.spell.Begins := by
  simp only [isWellFormed, Bool.and_eq_true, Bool.or_eq_true, decide_eq_true_eq] at hx
  refine Text.begins_cons ?_ _
  rcases hx.1 with hq | hq
  · rw [hq]; decide
  · rw [hq]; decide

theorem Boolean.begins (x : Boolean) : x.spell.Begins := by
  obtain ⟨negated, literal, span⟩ := x
  cases negated <;> cases literal <;> exact Text.begins_cons (by decide) _

/-! ## Arrays -/

theorem begins_commaSeparated {α : Type} {spell : α → Text} {l : List α} (hne : l ≠ [])
    (hl : ∀ x ∈ l, (spell x).Begins) : (commaSeparated (l.map spell)).Begins := by
  obtain ⟨x, l, rfl⟩ := List.exists_cons_of_ne_nil hne
  rw [List.map_cons, commaSeparated_cons]
  exact (hl x List.mem_cons_self).append _

section Arrays

variable {source : Source} {n : Nat} {u : Text}

/-- The tree of a list, with the items as its children. -/
theorem exists_list {α : Type} {q r : Rule} {spell : α → Text} {bare : α → α}
    {lower : Tree → Lowered α} {l : List α} (hr : r.production = .spaced (.commaList q))
    (hne : r ≠ .valueReturningCode)
    (hl : ∀ x ∈ l, q.SpellsItem source.content spell (fun x t => Recovers bare (lower t) x) x)
    (hl0 : l ≠ []) (hu : u.Stops .wordChar)
    (hat : (Cursor.start (commaSeparated (l.map spell) ++ u) n).At source.content) :
    ∃ t : Tree, t.Spells Cursor.skipGap r (commaSeparated (l.map spell)) n u ∧
      Recovers (List.map bare) ((t.childrenNamed q).mapM lower) l := by
  obtain ⟨ts, hlist, hts, hP⟩ := Rule.exists_commaList hl hl0 hu hat
  refine ⟨_, Rule.spells_spaced hr hne hlist fun t ht => (hts t ht).2, ?_⟩
  rw [Tree.childrenNamed_of_forall fun t ht => (hts t ht).1]
  exact recovers_mapM hP

theorem ArrayItems.exists_tree (x : ArrayItems) (hx : x.isWellFormed) (hu : u.Stops .wordChar)
    (hat : (Cursor.start (x.spell ++ u) n).At source.content) :
    ∃ q ∈ [Rule.booleans, .strings, .numbers], ∃ t : Tree,
      t.Spells Cursor.skipGap q x.spell n u ∧ Recovers bare (ArrayItems.ofTree source t) x := by
  cases x with
  | booleans bs =>
    have hitem : ∀ b ∈ bs, Rule.boolean.SpellsItem source.content Boolean.spell
        (fun b t => Recovers Boolean.bare (Boolean.ofTree source t) b) b := fun b _ =>
      ⟨fun n u _ hat =>
        have ⟨t, ht, y, hy, hb, _⟩ := b.exists_tree hat
        ⟨t, ht, y, hy, hb⟩, b.begins⟩
    have hne : bs ≠ [] := by simpa [isWellFormed] using hx
    obtain ⟨t, ht, ys, hys, hbs⟩ := exists_list (r := .booleans) rfl (by decide) hitem hne hu hat
    refine ⟨.booleans, by decide, t, ht, .booleans ys, ?_, by rw [bare, hbs, bare]⟩
    simp [ArrayItems.ofTree, ht.rule, hys]
  | strings ss =>
    simp only [isWellFormed, Bool.and_eq_true, List.all_eq_true] at hx
    have hitem : ∀ s ∈ ss, Rule.string.SpellsItem source.content StringLiteral.spell
        (fun s t => Recovers StringLiteral.bare (StringLiteral.ofTree source t) s) s := fun s hs =>
      ⟨fun n u _ hat =>
        have ⟨t, ht, y, hy, hb, _⟩ := s.exists_tree (hx.2 s hs) hat
        ⟨t, ht.of_id, y, hy, hb⟩, StringLiteral.begins (hx.2 s hs)⟩
    have hne : ss ≠ [] := by simpa using hx.1
    obtain ⟨t, ht, ys, hys, hbs⟩ := exists_list (r := .strings) rfl (by decide) hitem hne hu hat
    refine ⟨.strings, by decide, t, ht, .strings ys, ?_, by rw [bare, hbs, bare]⟩
    simp [ArrayItems.ofTree, ht.rule, hys]
  | numbers ns =>
    simp only [isWellFormed, Bool.and_eq_true, List.all_eq_true] at hx
    have hitem : ∀ x ∈ ns, Rule.number.SpellsItem source.content Number.spell
        (fun x t => Recovers Number.bare (Number.ofTree source t) x) x := fun x hmem =>
      ⟨fun n u hu hat =>
        have ⟨t, ht, y, hy, hb, _⟩ := x.exists_tree (hx.2 x hmem) hu hat
        ⟨t, ht.of_id, y, hy, hb⟩, Number.begins (hx.2 x hmem)⟩
    have hne : ns ≠ [] := by simpa using hx.1
    obtain ⟨t, ht, ys, hys, hbs⟩ := exists_list (r := .numbers) rfl (by decide) hitem hne hu hat
    refine ⟨.numbers, by decide, t, ht, .numbers ys, ?_, by rw [bare, hbs, bare]⟩
    simp [ArrayItems.ofTree, ht.rule, hys]

theorem ArrayItems.begins {x : ArrayItems} (hx : x.isWellFormed) : x.spell.Begins := by
  cases x with
  | booleans bs =>
    exact begins_commaSeparated (by simpa [isWellFormed] using hx) fun b _ => b.begins
  | strings ss =>
    simp only [isWellFormed, Bool.and_eq_true, List.all_eq_true] at hx
    exact begins_commaSeparated (by simpa using hx.1) fun s hs => StringLiteral.begins (hx.2 s hs)
  | numbers ns =>
    simp only [isWellFormed, Bool.and_eq_true, List.all_eq_true] at hx
    exact begins_commaSeparated (by simpa using hx.1) fun x hmem => Number.begins (hx.2 x hmem)

theorem InPlaceArray.exists_tree (x : InPlaceArray) (hx : x.isWellFormed)
    (hat : (Cursor.start (x.spell ++ u) n).At source.content) :
    ∃ t : Tree, t.Spells Cursor.skipGap .inPlaceArray x.spell n u ∧
      ∃ y, InPlaceArray.ofTree source t = .ok y ∧ y.bare = x.bare ∧ y.span = t.span := by
  have hw : x.spell = ['(', '/'] ++ ([' '] ++ (x.items.spell ++ ([' '] ++ ['/', ')']))) := by
    simp [spell, parenthesized]
  rw [hw] at hat ⊢
  simp only [List.append_assoc] at hat
  obtain ⟨q, hq, t, ht, y, hy, hb⟩ := x.items.exists_tree (u := [' '] ++ (['/', ')'] ++ u)) hx
    (Text.stops_cons (by decide) _) hat.behind.behind
  have hclose := (ht.derives.anyOf hq).seq
    (Cursor.gap_blank (Text.begins_cons (by decide) _)) (.punct ['/', ')'])
  have hbegins := (ArrayItems.begins hx).append (([' '] ++ ['/', ')']) ++ u)
  rw [← List.append_assoc] at hbegins
  have hseq := Phrase.Spells.seq (.punct ['(', '/']) (Cursor.gap_blank hbegins) hclose
  refine ⟨_, Rule.spells_spaced rfl (by decide) hseq (by simpa using ht.settled), ⟨y, _⟩, ?_,
    by simp [bare, hb], rfl⟩
  rw [List.append_nil, List.nil_append, InPlaceArray.ofTree, Tree.expect_mk, lowered_ok_bind,
    Tree.firstChild_mk, lowered_ok_bind, hy]
  rfl

end Arrays

end FreeForm
