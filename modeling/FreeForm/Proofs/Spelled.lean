import FreeForm.Proofs.CallOrIndex
import FreeForm.Typed.Spelling
import Mathlib.Data.List.Forall2

/-!
# Derivations of spelled text

`Phrase.Spells skip a w n u ts`: a phrase derives the text `w` that stands at the offset `n` and
before the text `u`.  Spelled text is put together from parts with gaps between them, and so are its
derivations: `Phrase.Spells.seq` joins two parts, `Phrase.Spells.seq_rounds` a part and the items of
a list.  `Tree.Spells` says the same of a rule and the tree that it leaves.

A phrase that ends with an option may pass the gap behind `w`, but then the next part begins behind
this gap as well.  So the end of a derivation is known up to `skip`.
-/

namespace FreeForm

/-! ## Texts and gaps -/

namespace Text

variable {u v w s : Text} {n : Nat}

/-- The text does not go on with a character of the class. -/
def Stops (k : CharClass) (u : Text) : Prop := ∀ x ∈ u.head?, ¬k.holds x

/-- The text begins with a character that no noise begins with. -/
def Begins (v : Text) : Prop := ∃ x ∈ v.head?, x ∉ Pattern.noiseMarks

theorem stops_cons {k : CharClass} {x : Char} (h : ¬k.holds x) (u : Text) : Stops k (x :: u) := by
  simpa [Stops] using h

theorem Stops.digit (h : u.Stops .wordChar) : u.Stops .digit := by
  intro x hx hd
  have hd' : x.isDigit := hd
  exact h x hx (by simp [CharClass.holds, Char.isAlphanum, hd'])

theorem begins_cons {x : Char} (h : x ∉ Pattern.noiseMarks) (v : Text) : Begins (x :: v) :=
  ⟨x, rfl, h⟩

theorem Begins.append (h : w.Begins) (v : Text) : (w ++ v).Begins := by
  obtain ⟨x, hx, hm⟩ := h
  obtain ⟨w, rfl⟩ := List.head?_eq_some_iff.mp hx
  exact begins_cons hm _

end Text

namespace Cursor

variable {skip : Cursor → Cursor} {c d : Cursor} {g s u v w : Text} {n : Nat}

/-- Between `w` and `v` stands no more than `skip` passes, namely `g`. -/
def Gap (skip : Cursor → Cursor) (g v : Text) : Prop :=
  ∀ n k, skip ⟨g ++ v, n, k⟩ = ⟨v, n + Text.size g, k⟩

theorem gap_id (v : Text) : Gap id [] v := fun _ _ => rfl

theorem notMem_of_begins (h : v.Begins) : ∀ x ∈ v.head?, x ∉ Pattern.noiseMarks := by
  obtain ⟨x, hx, hm⟩ := h
  intro y hy
  exact Option.some.inj (hx.symm.trans hy) ▸ hm

theorem gap_nil (h : v.Begins) : Gap skipGap [] v := fun n k =>
  skipGap_of_noise (c := ⟨v, n, k⟩) (Pattern.split?_noise_of_notMem (notMem_of_begins h))

theorem gap_blank (h : v.Begins) : Gap skipGap [' '] v := by
  intro n k
  have hblank : Pattern.noiseItem.split? (' ' :: v) = some ([' '], v) := rfl
  have hv := Pattern.split?_noise_of_notMem (notMem_of_begins h)
  exact skipGap_of_noise (c := ⟨' ' :: v, n, k⟩) (Pattern.split?_many_of_some rfl hblank hv)

theorem token?_of_split? {p : Pattern} (h : p.split? (w ++ u) = some (w, u)) (n k : Nat) :
    token? ⟨w ++ u, n, k⟩ p = some (start u (n + Text.size w)) := by
  rw [token?, h]
  rfl

/-- Behind a part of a text stands the rest of the text. -/
theorem At.behind (h : (start (w ++ v) n).At s) : (start v (n + Text.size w)).At s :=
  h.passes ⟨rfl, rfl⟩

/-- The part of the text that stands at an offset. -/
theorem At.text (h : (start (w ++ v) n).At s) : Span.text s ⟨n, n + Text.size w⟩ = w := by
  obtain ⟨x, hs, hx⟩ := h
  have hn : n = Text.size x := hx
  have hs' : s = x ++ w ++ v := by rw [List.append_assoc]; exact hs
  rw [Span.text, hn, hs', Text.slice?_size_append, Option.getD_some]

end Cursor

/-! ## Lexemes -/

namespace Pattern

variable {u w : Text}

theorem split?_identifier (hw : isName w) (hu : u.Stops .wordChar) :
    identifier.split? (w ++ u) = some (w, u) := by
  cases w with
  | nil => simp [isName] at hw
  | cons c w =>
    simp only [isName, Bool.and_eq_true, List.all_eq_true] at hw
    refine split?_seq_eq_some.mpr ⟨[c], w ++ u, w, ?_, split?_run_eq_some.mpr ⟨rfl, hw.2, hu⟩, rfl⟩
    exact if_pos hw.1

theorem split?_digits (hw : isDigitRun w) (hu : u.Stops .digit) :
    (many1 (.one .digit)).split? (w ++ u) = some (w, u) := by
  cases w with
  | nil => simp [isDigitRun] at hw
  | cons c w =>
    simp only [isDigitRun, Bool.and_eq_true, List.all_eq_true, List.forall_mem_cons] at hw
    refine split?_seq_eq_some.mpr ⟨[c], w ++ u, w, if_pos hw.2.1, ?_, rfl⟩
    rw [split?_many_one]
    exact split?_run_eq_some.mpr ⟨rfl, hw.2.2, hu⟩

theorem split?_quotedWith_self {q : Char} (hw : q ∉ w) (u : Text) :
    (quotedWith q).split? (q :: (w ++ [q]) ++ u) = some (q :: (w ++ [q]), u) := by
  have hhold : ∀ x ∈ w, (CharClass.noneOf [q]).holds x := by
    intro x hx
    have hne : x ≠ q := fun h => hw (h ▸ hx)
    simp [CharClass.holds, hne]
  have hstop : Text.Stops (.noneOf [q]) (q :: u) := Text.stops_cons (by simp [CharClass.holds]) u
  have hrest : (all [.run (.noneOf [q]), .lit [q]]).split? (w ++ q :: u) = some (w ++ [q], u) :=
    split?_seq_eq_some.mpr ⟨w, q :: u, [q], split?_run_eq_some.mpr ⟨rfl, hhold, hstop⟩,
      split?_seq_eq_some.mpr ⟨[q], u, [], split?_lit_self [q] u, rfl, rfl⟩, rfl⟩
  rw [List.cons_append, List.append_assoc]
  exact split?_seq_eq_some.mpr ⟨[q], w ++ q :: u, w ++ [q], split?_lit_self [q] _, hrest, rfl⟩

end Pattern

/-! ## Phrases -/

/-- The phrase derives the text `w` that stands at `n` before `u`, up to a gap behind it. -/
def Phrase.Spells (skip : Cursor → Cursor) (a : Phrase) (w : Text) (n : Nat) (u : Text)
    (ts : List Tree) : Prop :=
  ∀ k, ∃ d, Derives skip a ⟨w ++ u, n, k⟩ ts d ∧ skip d = skip (.start u (n + Text.size w))

namespace Phrase.Spells

variable {skip : Cursor → Cursor} {a b c : Phrase} {p : Pattern} {g u v w : Text} {n : Nat}
  {ts us : List Tree}

theorem token (h : p.split? (w ++ u) = some (w, u)) : (Phrase.token p).Spells skip w n u [] :=
  fun k => ⟨_, .token (Cursor.token?_of_split? h n k), rfl⟩

theorem punct (w : Text) : (Phrase.punct w).Spells skip w n u [] :=
  token (Pattern.split?_lit_self w u)

theorem left (h : a.Spells skip w n u ts) : (alt a b).Spells skip w n u ts := fun k =>
  have ⟨d, hd, he⟩ := h k
  ⟨d, .left hd, he⟩

theorem right (h : b.Spells skip w n u ts) : (alt a b).Spells skip w n u ts := fun k =>
  have ⟨d, hd, he⟩ := h k
  ⟨d, .right hd, he⟩

theorem present (h : a.Spells skip w n u ts) : (opt a).Spells skip w n u ts := fun k =>
  have ⟨d, hd, he⟩ := h k
  ⟨d, .present hd, he⟩

theorem once (h : a.Spells skip w n u ts) : (many a).Spells skip w n u ts := fun k =>
  have ⟨d, hd, he⟩ := h k
  ⟨d, .once hd, he⟩

theorem anyOf {r q : Rule} {rs : List Rule} (hq : q ∈ r :: rs)
    (h : (Phrase.call q).Spells skip w n u ts) : (Phrase.anyOf r rs).Spells skip w n u ts := by
  induction rs generalizing r with
  | nil => rwa [← List.mem_singleton.mp hq]
  | cons r' rs ih =>
    rcases List.mem_cons.mp hq with rfl | hq
    · exact left h
    · exact right (ih hq)

theorem seq (ha : a.Spells skip w n (g ++ (v ++ u)) ts) (hg : Cursor.Gap skip g (v ++ u))
    (hb : b.Spells skip v (n + Text.size w + Text.size g) u us) :
    (seq a b).Spells skip (w ++ (g ++ v)) n u (ts ++ us) := by
  intro k
  obtain ⟨d, hd, hgap⟩ := ha k
  have hskip : skip d = ⟨v ++ u, n + Text.size w + Text.size g, n + Text.size w⟩ :=
    hgap.trans (hg _ _)
  obtain ⟨e, he, hend⟩ := hb (n + Text.size w)
  refine ⟨e, .seq ?_ (hskip ▸ he), ?_⟩
  · simpa only [List.append_assoc] using hd
  · simpa only [Text.size_append, Nat.add_assoc] using hend

/-- Without the option, its place is passed with nothing in it. -/
theorem absent_seq (hg : Cursor.Gap skip [] (w ++ u)) (hb : b.Spells skip w n u us) :
    (Phrase.seq (opt a) b).Spells skip w n u us := by
  intro k
  obtain ⟨e, he, hend⟩ := hb k
  have hskip : skip ⟨w ++ u, n, k⟩ = ⟨w ++ u, n, k⟩ := hg n k
  exact ⟨e, .seq .absent (hskip.symm ▸ he), hend⟩

theorem seq_absent (hs : Spacing skip) (ha : a.Spells skip w n u ts) :
    (Phrase.seq a (opt b)).Spells skip w n u ts := by
  intro k
  obtain ⟨d, hd, hend⟩ := ha k
  refine ⟨skip d, ?_, by rw [Cursor.skip_skip hs, hend]⟩
  rw [← List.append_nil ts]
  exact .seq hd .absent

theorem seq_never (hs : Spacing skip) (ha : a.Spells skip w n u ts) :
    (Phrase.seq a (many b)).Spells skip w n u ts := by
  intro k
  obtain ⟨d, hd, hend⟩ := ha k
  refine ⟨skip d, ?_, by rw [Cursor.skip_skip hs, hend]⟩
  rw [← List.append_nil ts]
  exact .seq hd .never

theorem assoc (h : (Phrase.seq (Phrase.seq a b) c).Spells skip w n u ts) :
    (Phrase.seq a (Phrase.seq b c)).Spells skip w n u ts := by
  intro k
  obtain ⟨d, hd, hend⟩ := h k
  refine ⟨d, ?_, hend⟩
  cases hd with
  | seq hab hc =>
    cases hab with
    | seq ha hb =>
      rw [List.append_assoc]
      exact .seq ha (.seq hb hc)

theorem again (ha : (many a).Spells skip w n (g ++ (v ++ u)) ts)
    (hg : Cursor.Gap skip g (v ++ u))
    (hb : a.Spells skip v (n + Text.size w + Text.size g) u us) :
    (many a).Spells skip (w ++ (g ++ v)) n u (ts ++ us) := by
  intro k
  obtain ⟨d, hd, hgap⟩ := ha k
  have hskip : skip d = ⟨v ++ u, n + Text.size w + Text.size g, n + Text.size w⟩ :=
    hgap.trans (hg _ _)
  obtain ⟨e, he, hend⟩ := hb (n + Text.size w)
  refine ⟨e, .again ?_ (hskip ▸ he), ?_⟩
  · simpa only [List.append_assoc] using hd
  · simpa only [Text.size_append, Nat.add_assoc] using hend

end Phrase.Spells

/-! ## The items of a list -/

section Rounds

variable {α : Type} {skip : Cursor → Cursor} {a b : Phrase} {s g u w : Text} {n : Nat}
  {ts : List Tree} {round : α → Text} {P : α → List Tree → Prop} {l : List α}

/-- The items of a list, each behind the gap `g`. -/
def Text.rounds (g : Text) (round : α → Text) (l : List α) : Text := l.flatMap fun x => g ++ round x

/-- What the spelling of each item has to provide: it is derived wherever it stands, it stands
behind the gap, and it is set apart from a name or number in front of it. -/
structure Phrase.SpellsItem (skip : Cursor → Cursor) (b : Phrase) (s g : Text) (round : α → Text)
    (P : α → List Tree → Prop) (x : α) : Prop where
  exists_spells : ∀ n u, u.Stops .wordChar → (Cursor.start (round x ++ u) n).At s →
    ∃ us, b.Spells skip (round x) n u us ∧ P x us
  gap : ∀ u, Cursor.Gap skip g (round x ++ u)
  stops : ∀ u, (g ++ (round x ++ u)).Stops .wordChar

theorem Text.stops_rounds (hl : ∀ x ∈ l, b.SpellsItem skip s g round P x)
    (hu : u.Stops .wordChar) : (rounds g round l ++ u).Stops .wordChar := by
  cases l with
  | nil => exact hu
  | cons x l =>
    have h := (hl x List.mem_cons_self).stops (rounds g round l ++ u)
    simpa only [rounds, List.flatMap_cons, List.append_assoc] using h

theorem Phrase.Spells.rounds (hl : ∀ x ∈ l, b.SpellsItem skip s g round P x)
    (hu : u.Stops .wordChar) (hat : (Cursor.start (w ++ (Text.rounds g round l ++ u)) n).At s)
    (hw : (many b).Spells skip w n (Text.rounds g round l ++ u) ts) :
    ∃ tss, List.Forall₂ P l tss ∧
      (many b).Spells skip (w ++ Text.rounds g round l) n u (ts ++ tss.flatten) := by
  induction l generalizing w ts with
  | nil => exact ⟨[], .nil, by simpa [Text.rounds] using hw⟩
  | cons x l ih =>
    obtain ⟨hx, hl⟩ := List.forall_mem_cons.mp hl
    have htail : Text.rounds g round (x :: l) ++ u =
        g ++ (round x ++ (Text.rounds g round l ++ u)) := by simp [Text.rounds]
    rw [htail] at hat hw
    obtain ⟨us, hus, hP⟩ := hx.exists_spells _ _ (Text.stops_rounds hl hu) hat.behind.behind
    have hat' : (Cursor.start (w ++ (g ++ round x) ++ (Text.rounds g round l ++ u)) n).At s := by
      simpa only [List.append_assoc] using hat
    obtain ⟨tss, htss, hmany⟩ := ih hl hat' (hw.again (hx.gap _) hus)
    refine ⟨us :: tss, .cons hP htss, ?_⟩
    simpa only [Text.rounds, List.flatMap_cons, List.flatten_cons, List.append_assoc] using hmany

/-- A part and the items of a list behind it. -/
theorem Phrase.Spells.seq_rounds (hs : Spacing skip)
    (hl : ∀ x ∈ l, b.SpellsItem skip s g round P x) (hu : u.Stops .wordChar)
    (hat : (Cursor.start (w ++ (Text.rounds g round l ++ u)) n).At s)
    (hw : a.Spells skip w n (Text.rounds g round l ++ u) ts) :
    ∃ tss, List.Forall₂ P l tss ∧
      (Phrase.seq a (many b)).Spells skip (w ++ Text.rounds g round l) n u (ts ++ tss.flatten) := by
  cases l with
  | nil => exact ⟨[], .nil, by simpa [Text.rounds] using hw.seq_never hs⟩
  | cons x l =>
    obtain ⟨hx, hl⟩ := List.forall_mem_cons.mp hl
    have htail : Text.rounds g round (x :: l) ++ u =
        g ++ (round x ++ (Text.rounds g round l ++ u)) := by simp [Text.rounds]
    rw [htail] at hat hw
    obtain ⟨us, hus, hP⟩ := hx.exists_spells _ _ (Text.stops_rounds hl hu) hat.behind.behind
    obtain ⟨tss, htss, hmany⟩ := hus.once.rounds hl hu hat.behind.behind
    refine ⟨us :: tss, .cons hP htss, ?_⟩
    have hgap := hx.gap (Text.rounds g round l ++ u)
    rw [← List.append_assoc (round x)] at hw hgap
    simpa only [Text.rounds, List.flatMap_cons, List.flatten_cons, List.append_assoc] using
      hw.seq hgap hmany

end Rounds

/-! ## Rules and the trees that they leave -/

/-- The rule `r` leaves the tree for the text `w` that stands at `n` before `u`, and no array
access in the tree can be taken for a call. -/
structure Tree.Spells (skip : Cursor → Cursor) (t : Tree) (r : Rule) (w : Text) (n : Nat)
    (u : Text) : Prop where
  rule : t.rule = r
  span : t.span = ⟨n, n + Text.size w⟩
  derives : (Phrase.call r).Spells skip w n u [t]
  settled : t.Settled (Rule.Asks Tree.HasRegion)

theorem Tree.Spells.text {skip : Cursor → Cursor} {t : Tree} {r : Rule} {s u w : Text} {n : Nat}
    (h : t.Spells skip r w n u) (hat : (Cursor.start (w ++ u) n).At s) : t.text s = w := by
  rw [Tree.text, h.span, hat.text]

/-- Behind a tree that ends with its last lexeme, any gap may follow. -/
theorem Tree.Spells.of_id {skip : Cursor → Cursor} {t : Tree} {r : Rule} {u w : Text} {n : Nat}
    (h : t.Spells id r w n u) : t.Spells skip r w n u where
  rule := h.rule
  span := h.span
  derives k := by
    obtain ⟨d, hd, hend⟩ := h.derives k
    obtain rfl : d = .start u (n + Text.size w) := hend
    exact ⟨_, derives_call_iff.mpr (derives_call_iff.mp hd), rfl⟩
  settled := h.settled

theorem Tree.settled_of_children {ok : Rule → Tree → Prop} {t : Tree}
    (h : ∀ u ∈ t.children, ok t.rule u ∧ u.Settled ok) : t.Settled ok := by
  intro n hn u hu
  rcases Tree.mem_nodes_iff.mp hn with rfl | ⟨v, hv, hn⟩
  · exact (h u hu).1
  · exact (h v hv).2 n hn u hu

namespace Rule

variable {r : Rule} {a : Phrase} {p : Pattern} {u w : Text} {n : Nat} {ts : List Tree}

theorem spells_lexeme (hr : r.production = .lexeme p) (h : p.split? (w ++ u) = some (w, u)) :
    Tree.Spells id ⟨r, ⟨n, n + Text.size w⟩, []⟩ r w n u where
  rule := rfl
  span := rfl
  derives k := ⟨_, .lexeme hr (Cursor.token?_of_split? h n k), rfl⟩
  settled := Tree.settled_of_children (by simp)

theorem spells_mark (hr : r.production = .spaced (.token p))
    (h : p.split? (w ++ u) = some (w, u)) :
    Tree.Spells id ⟨r, ⟨n, n + Text.size w⟩, []⟩ r w n u where
  rule := rfl
  span := rfl
  derives k := ⟨_, .spaced hr (.token (Cursor.token?_of_split? h n k)), rfl⟩
  settled := Tree.settled_of_children (by simp)

theorem spells_compact (hr : r.production = .compact a) (hne : r ≠ .valueReturningCode)
    (h : a.Spells id w n u ts) (hts : ∀ t ∈ ts, t.Settled (Asks Tree.HasRegion)) :
    Tree.Spells id ⟨r, ⟨n, n + Text.size w⟩, ts⟩ r w n u where
  rule := rfl
  span := rfl
  derives k := by
    obtain ⟨d, hd, hend⟩ := h k
    obtain rfl : d = .start u (n + Text.size w) := hend
    exact ⟨_, .compact hr hd, rfl⟩
  settled := Tree.settled_of_children fun t ht => ⟨fun h => absurd h hne, hts t ht⟩

/-- The rule for a value asks of the trees below that no variable is a call. -/
theorem spells_asking (hr : r.production = .spaced a) (h : a.Spells Cursor.skipGap w n u ts)
    (hts : ∀ t ∈ ts, Asks Tree.HasRegion r t ∧ t.Settled (Asks Tree.HasRegion)) :
    Tree.Spells Cursor.skipGap ⟨r, ⟨n, n + Text.size w⟩, ts⟩ r w n u where
  rule := rfl
  span := rfl
  derives k := by
    obtain ⟨d, hd, hend⟩ := h k
    have hstop : d.stop = n + Text.size w := by
      have hs := congrArg Cursor.stop hend
      rwa [Cursor.stop_skipGap, Cursor.stop_skipGap] at hs
    refine ⟨d, ?_, hend⟩
    rw [← hstop]
    exact .spaced hr hd
  settled := Tree.settled_of_children hts

theorem spells_spaced (hr : r.production = .spaced a) (hne : r ≠ .valueReturningCode)
    (h : a.Spells Cursor.skipGap w n u ts) (hts : ∀ t ∈ ts, t.Settled (Asks Tree.HasRegion)) :
    Tree.Spells Cursor.skipGap ⟨r, ⟨n, n + Text.size w⟩, ts⟩ r w n u :=
  spells_asking hr h fun t ht => ⟨fun h => absurd h hne, hts t ht⟩

end Rule

/-! ## Lists with commas -/

section CommaList

variable {α : Type} {q : Rule} {s u : Text} {n : Nat} {spell : α → Text} {P : α → Tree → Prop}
  {l : List α}

/-- What the spelling of an item between commas has to provide. -/
structure Rule.SpellsItem (q : Rule) (s : Text) (spell : α → Text) (P : α → Tree → Prop) (x : α) :
    Prop where
  exists_tree : ∀ n u, u.Stops .wordChar → (Cursor.start (spell x ++ u) n).At s →
    ∃ t, t.Spells Cursor.skipGap q (spell x) n u ∧ P x t
  begins : (spell x).Begins

theorem commaSeparated_cons (w : Text) (ws : List Text) :
    commaSeparated (w :: ws) = w ++ Text.rounds [] (fun v => [','] ++ ([' '] ++ v)) ws := by
  induction ws generalizing w with
  | nil => simp [commaSeparated, Text.rounds]
  | cons v ws ih =>
    rw [commaSeparated, List.intercalate_cons_cons, ← commaSeparated, ih]
    simp [Text.rounds]

theorem Rule.SpellsItem.behind_comma {x : α} (h : q.SpellsItem s spell P x) :
    (Phrase.seq (.punct [',']) (.call q)).SpellsItem Cursor.skipGap s []
      (fun y => [','] ++ ([' '] ++ spell y))
      (fun y ts => ∃ t, ts = [t] ∧ (t.rule = q ∧ t.Settled (Asks Tree.HasRegion)) ∧ P y t) x where
  exists_spells n u hu hat := by
    have hat' : (Cursor.start (([','] : Text) ++ ([' '] ++ (spell x ++ u))) n).At s := hat
    obtain ⟨t, ht, hP⟩ := h.exists_tree _ u hu hat'.behind.behind
    have hgap := Cursor.gap_blank (h.begins.append u)
    exact ⟨[t], .seq (.punct [',']) hgap ht.derives, t, rfl, ⟨ht.rule, ht.settled⟩, hP⟩
  gap u := Cursor.gap_nil (Text.begins_cons (by decide) _)
  stops u := Text.stops_cons (by decide) _

theorem forall₂_flatten {Q : α → Tree → Prop} {tss : List (List Tree)}
    (h : List.Forall₂ (fun x ts => ∃ t, ts = [t] ∧ Q x t) l tss) :
    List.Forall₂ Q l tss.flatten := by
  induction h with
  | nil => exact .nil
  | cons hx _ ih =>
    obtain ⟨t, rfl, hQ⟩ := hx
    exact .cons hQ ih

/-- The list of some items, and the trees of the items. -/
theorem Rule.exists_commaList (hl : ∀ x ∈ l, q.SpellsItem s spell P x) (hne : l ≠ [])
    (hu : u.Stops .wordChar) (hat : (Cursor.start (commaSeparated (l.map spell) ++ u) n).At s) :
    ∃ ts, (Phrase.commaList q).Spells Cursor.skipGap (commaSeparated (l.map spell)) n u ts ∧
      (∀ t ∈ ts, t.rule = q ∧ t.Settled (Asks Tree.HasRegion)) ∧ List.Forall₂ P l ts := by
  obtain ⟨x, l, rfl⟩ := List.exists_cons_of_ne_nil hne
  obtain ⟨hx, hl⟩ := List.forall_mem_cons.mp hl
  have hrounds : commaSeparated ((x :: l).map spell) =
      spell x ++ Text.rounds [] (fun y => [','] ++ ([' '] ++ spell y)) l := by
    rw [List.map_cons, commaSeparated_cons]
    simp [Text.rounds, List.flatMap_map]
  rw [hrounds] at hat ⊢
  rw [List.append_assoc] at hat
  have hitems := fun y hy => (hl y hy).behind_comma
  obtain ⟨t, ht, hP⟩ := hx.exists_tree _ _ (Text.stops_rounds hitems hu) hat
  obtain ⟨tss, htss, hlist⟩ := ht.derives.seq_rounds .spaced hitems hu hat
  have hall := List.Forall₂.cons ⟨⟨ht.rule, ht.settled⟩, hP⟩ (forall₂_flatten htss)
  obtain ⟨hts, hPs⟩ := (List.forall₂_and_left _ _).mp hall.flip
  exact ⟨_, hlist, hts, hPs.flip⟩

end CommaList

end FreeForm
