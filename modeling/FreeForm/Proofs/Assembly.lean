import FreeForm.Proofs.ChildRules
import FreeForm.Proofs.Context
import FreeForm.Proofs.FirstLexemes
import Mathlib.Data.List.Chain

/-!
# What a node is made of

A node is put together from items: its children, and the lexemes of its rule that leave no node.
From left to right the items are an instance of the right-hand side of the rule (`Phrase.items`),
the node begins with the first of them and ends with the last, and between two neighbours stands
all the noise there is, or nothing in a rule that rules noise out (`Tree.AssembledFrom`).

`assembled_of_parse` says this of every node of the tree of a parse, provided that the text does not
begin with noise.  In a rule that begins with an option, noise in front of the text would be passed
behind the absent option, and belong to the node.
-/

open scoped Computability

namespace FreeForm

/-! ## The words of a pattern -/

/-- The stretches that a pattern describes, wherever they stand. -/
def Pattern.language : Pattern → Language Char
  | one k => {w | ∃ c, k.holds c ∧ w = [c]}
  | run k => {w | ∀ c ∈ w, k.holds c}
  | lit v => {w | w = v}
  | word v => {w | w.map Char.toLower = v.map Char.toLower}
  | seq a b => a.language * b.language
  | alt a b => a.language + b.language
  | many a => a.language∗
  | avoid _ => 1

/-- What a pattern cuts off is one of its words. -/
theorem Pattern.mem_language_of_split? {p : Pattern} {s w r : Text}
    (h : p.split? s = some (w, r)) : w ∈ p.language := by
  induction p generalizing s w r with
  | one k =>
    obtain ⟨c, hc, rfl, -⟩ := split?_one_eq_some.mp h
    exact ⟨c, hc, rfl⟩
  | run k => exact holds_of_run h
  | lit v => exact eq_of_split?_lit h
  | word v => exact map_of_splitWord? h
  | seq a b iha ihb =>
    obtain ⟨t, x, u, ht, hu, rfl⟩ := split?_seq_eq_some.mp h
    exact Language.append_mem_mul (iha ht) (ihb hu)
  | alt a b iha ihb =>
    rcases split?_alt_eq_some.mp h with h | ⟨-, h⟩
    · exact .inl (iha h)
    · exact .inr (ihb h)
  | many a ih =>
    simp only [split?, Option.some.injEq] at h
    have hround : ∀ (n : Nat) (s : Text), (splitRounds a.split? n s).1 ∈ a.language∗ := by
      intro n
      induction n with
      | zero => exact fun s => Language.nil_mem_kstar _
      | succ n ihn =>
        intro s
        rw [splitRounds]
        split
        · exact Language.nil_mem_kstar _
        · rename_i x hx
          exact Set.mem_of_mem_of_subset (Language.append_mem_mul (ih hx) (ihn x.2))
            (mul_kstar_le_kstar (a := a.language))
    have := hround s.length s
    rwa [h] at this
  | avoid a =>
    obtain ⟨-, rfl, -⟩ := split?_avoid_eq_some.mp h
    exact Language.nil_mem_one

/-! ## Items -/

/-- A part of a node: a lexeme that leaves no node, or a child. -/
inductive Item where
  | lexeme (w : Text) (span : Span)
  | child (t : Tree)

namespace Item

/-- The part of the text that an item covers. -/
def span : Item → Span
  | lexeme _ s => s
  | child t => t.span

/-- The node of an item that has one. -/
def tree? : Item → Option Tree
  | lexeme _ _ => none
  | child t => some t

/-- A lexeme is what the text holds in its span. -/
def IsTextOf (s : Text) : Item → Prop
  | lexeme w p => s.slice? p.start p.stop = some w
  | child _ => True

end Item

/-- The instances of a phrase: its choices made, its options taken or left, its repetitions written
out. -/
def Phrase.items : Phrase → Language Item
  | token p => {l | ∃ w ∈ p.language, ∃ s, l = [.lexeme w s]}
  | .call r => {l | ∃ t : Tree, t.rule = r ∧ l = [.child t]}
  | seq a b => a.items * b.items
  | alt a b => a.items + b.items
  | opt a => 1 + a.items
  | many a => a.items∗

/-- The instances of a right-hand side. -/
def Production.items : Production → Language Item
  | lexeme p => (Phrase.token p).items
  | compact a | spaced a => a.items

/-- Where the item behind one that ends at `n` begins, if noise may stand between them, or not. -/
def nextStart (s : Text) (gaps : Bool) (n : Nat) : Nat := if gaps then skipNoise s n else n

/-- A node of the text `s` that is put together from the items `l`. -/
structure Tree.AssembledFrom (s : Text) (t : Tree) (l : List Item) : Prop where
  instance_of_rule : l ∈ t.rule.production.items
  children : t.children = l.filterMap Item.tree?
  first : l.head?.map (·.span.start) = some t.span.start
  last : l.getLast?.map (·.span.stop) = some t.span.stop
  spacing : l.IsChain fun i j => j.span.start = nextStart s (!t.rule.isAtomic) i.span.stop
  lexemes : ∀ i ∈ l, i.IsTextOf s

/-! ## Items between two places -/

/-- The items stand between the places `c` and `d`, one behind the other. -/
structure Cursor.Spans (s : Text) (gaps : Bool) (c : Cursor) (l : List Item) (d : Cursor) :
    Prop where
  nil : l = [] → d = c
  head : ∀ i ∈ l.head?, i.span.start = c.pos
  last : ∀ i ∈ l.getLast?, i.span.stop = d.stop
  tight : gaps = false → l ≠ [] → d.pos = d.stop
  spacing : l.IsChain fun i j => j.span.start = nextStart s gaps i.span.stop
  lexemes : ∀ i ∈ l, i.IsTextOf s

namespace Cursor

variable {s : Text} {gaps : Bool} {c d e f : Cursor} {l m : List Item}

theorem Spans.none (s : Text) (gaps : Bool) (c : Cursor) : c.Spans s gaps [] c :=
  ⟨fun _ => rfl, by simp, by simp, by simp, .nil, by simp⟩

theorem Spans.one {i : Item} (hstart : i.span.start = c.pos) (hstop : i.span.stop = d.stop)
    (ht : gaps = false → d.pos = d.stop) (hi : i.IsTextOf s) : c.Spans s gaps [i] d :=
  ⟨by simp, by simpa using hstart, by simpa using hstop, fun hg _ => ht hg, .singleton i,
    by simpa using hi⟩

/-- Items up to a place and items behind the noise there. -/
theorem Spans.append {g : Cursor} (h : c.Spans s gaps l d)
    (k : (skipWhen gaps d).Spans s gaps m f) (hc : gaps = true → c.skipGap = c)
    (hg : d.EndsAt s g) : c.Spans s gaps (l ++ m) f := by
  have hnil : l = [] → skipWhen gaps d = c := by
    intro hl
    rw [h.nil hl]
    cases gaps with
    | true => exact hc rfl
    | false => rfl
  have hcons : l ≠ [] → (skipWhen gaps d).pos = nextStart s gaps d.stop := by
    intro hl
    cases gaps with
    | true => exact hg.skipNoise_stop.symm
    | false => exact h.tight rfl hl
  have hstop : (skipWhen gaps d).stop = d.stop := by
    cases gaps with
    | true => exact d.stop_skipGap
    | false => rfl
  refine ⟨fun hlm => ?_, fun i hi => ?_, fun i hi => ?_, fun hgap hlm => ?_, ?_, fun i hi => ?_⟩
  · obtain ⟨hl, hm⟩ := List.append_eq_nil_iff.mp hlm
    rw [k.nil hm, hnil hl]
  · cases l with
    | nil => rw [← hnil rfl]; exact k.head i hi
    | cons x l => exact h.head i hi
  · rw [List.getLast?_append] at hi
    cases hm : m.getLast? with
    | none =>
      rw [hm, Option.none_or] at hi
      rw [k.nil (List.getLast?_eq_none_iff.mp hm), hstop]
      exact h.last i hi
    | some x =>
      rw [hm, Option.some_or] at hi
      exact k.last i (hm ▸ hi)
  · by_cases hm : m = []
    · subst hm hgap
      rw [k.nil rfl]
      exact h.tight rfl (by simpa using hlm)
    · exact k.tight hgap hm
  · refine List.isChain_append.mpr ⟨h.spacing, k.spacing, fun i hi j hj => ?_⟩
    have hl : l ≠ [] := by rintro rfl; simp at hi
    rw [k.head j hj, hcons hl, h.last i hi]
  · rcases List.mem_append.mp hi with hi | hi
    · exact h.lexemes i hi
    · exact k.lexemes i hi

/-- Where a lexeme is passed, the place changes. -/
theorem Taken.ne (h : c.Taken d) : d ≠ c := by
  rintro rfl
  obtain ⟨u, v, hu, huv, -⟩ := h
  have hlen := congrArg List.length huv.rest
  have hpos := List.length_pos_iff.mpr hu
  simp only [List.length_append] at hlen
  omega

end Cursor

/-! ## The items of a derivation -/

/-- Whether a match of the rule ends with its last lexeme, because noise is ruled out inside or
there is nothing that it could precede. -/
def Rule.endsTight (r : Rule) : Bool :=
  match r.production with
  | .lexeme _ | .compact _ | .spaced (.token _) => true
  | .spaced _ => false

/-- What the rules are like that are called between parts without noise. -/
theorem Rule.of_mem_calls {r q : Rule} {a : Phrase} (hr : r.production = .compact a)
    (hq : q ∈ a.calls) : q.endsTight ∧ q.lateLexemes = [] := by
  have h : ∀ r : Rule, ∀ a, r.production = .compact a →
      ∀ q ∈ a.calls, q.endsTight ∧ q.lateLexemes = [] := by
    intro r
    cases r <;> simp only [production, reduceCtorEq, false_implies, implies_true,
      Production.compact.injEq, forall_eq'] <;> decide
  exact h r a hr q hq

/-- What is asked of the place where the items of a phrase begin: no noise stands there, if noise
may stand between parts; otherwise a match of each part has to begin where it is tried and to end
with its last lexeme. -/
structure Phrase.Fits (a : Phrase) (gaps : Bool) (c : Cursor) : Prop where
  clean : gaps = true → c.skipGap = c
  tight : gaps = false → ∀ r ∈ a.calls, r.endsTight ∧ r.lateLexemes = []

theorem Phrase.Fits.of_calls {a b : Phrase} {gaps : Bool} {c : Cursor} (h : a.Fits gaps c)
    (hb : ∀ r ∈ b.calls, r ∈ a.calls) : b.Fits gaps c :=
  ⟨h.clean, fun hg r hr => h.tight hg r (hb r hr)⟩

theorem Phrase.Fits.skip {a b : Phrase} {gaps : Bool} {c : Cursor} (h : a.Fits gaps c)
    (hb : ∀ r ∈ b.calls, r ∈ a.calls) (d : Cursor) : b.Fits gaps (skipWhen gaps d) := by
  refine ⟨fun hg => ?_, fun hg r hr => h.tight hg r (hb r hr)⟩
  subst hg
  exact d.skipGap_skipGap

theorem Phrase.Fits.of_compact {r : Rule} {a : Phrase} (hr : r.production = .compact a)
    (c : Cursor) : a.Fits false c :=
  ⟨fun hg => absurd hg (by simp), fun _ _ hq => r.of_mem_calls hr hq⟩

theorem Phrase.Fits.of_spaced {c : Cursor} (a : Phrase) (hc : c.skipGap = c) : a.Fits true c :=
  ⟨fun _ => hc, fun hg => absurd hg (by simp)⟩

theorem spacing_skipWhen (gaps : Bool) : Spacing (skipWhen gaps) := by
  cases gaps with
  | true => exact .spaced
  | false => exact .compact

theorem Cursor.pos_eq_stop_of_token? {p : Pattern} {c d : Cursor} (h : c.token? p = some d) :
    d.pos = d.stop := by
  obtain ⟨-, -, -, hstop⟩ := passes_of_token? h
  exact hstop.symm

theorem Cursor.spans_token {s : Text} {gaps : Bool} {p : Pattern} {c d : Cursor} (hc : c.At s)
    (h : c.token? p = some d) :
    ∃ w ∈ p.language, c.Spans s gaps [.lexeme w ⟨c.pos, d.stop⟩] d := by
  obtain ⟨w, hw, hcd, hstop⟩ := passes_of_token? h
  refine ⟨w, Pattern.mem_language_of_split? hw, .one rfl rfl (fun _ => hstop.symm) ?_⟩
  rw [Item.IsTextOf, hstop]
  exact hc.slice? hcd

/-- A derivation leaves items of its phrase, and its trees are the children among them. -/
theorem Derives.exists_items {skip : Cursor → Cursor} {a : Phrase} {s : Text} {gaps : Bool}
    {c d : Cursor} {ts : List Tree} (h : Derives skip a c ts d) (hs : skip = skipWhen gaps)
    (hc : c.At s) (hf : ∃ f, c.EndsAt s f) (ha : a.Fits gaps c) :
    ∃ l ∈ a.items, ts = l.filterMap Item.tree? ∧ c.Spans s gaps l d := by
  induction h generalizing gaps with
  | token h =>
    obtain ⟨w, hw, hspan⟩ := Cursor.spans_token hc h
    exact ⟨_, ⟨w, hw, _, rfl⟩, rfl, hspan⟩
  | @lexeme _ r p c d hr h =>
    refine ⟨_, ⟨⟨r, ⟨c.pos, d.stop⟩, []⟩, rfl, rfl⟩, rfl, .one rfl rfl (fun _ => ?_) trivial⟩
    exact Cursor.pos_eq_stop_of_token? h
  | @compact _ r b c d ts hr h ih =>
    refine ⟨_, ⟨⟨r, ⟨c.pos, d.stop⟩, ts⟩, rfl, rfl⟩, rfl, .one rfl rfl (fun _ => ?_) trivial⟩
    obtain ⟨l, -, -, hl⟩ := ih rfl hc hf (.of_compact hr c)
    have hd : r.production.Derives c ts d := by rw [hr]; exact h
    exact hl.tight rfl fun hnil => (r.taken_of_derives hd).ne (hl.nil hnil)
  | @spaced _ r b c d ts hr h ih =>
    refine ⟨_, ⟨⟨r, ⟨c.pos, d.stop⟩, ts⟩, rfl, rfl⟩, rfl, .one rfl rfl (fun hg => ?_) trivial⟩
    obtain ⟨ht, -⟩ := ha.tight hg r (List.mem_singleton_self r)
    rw [Rule.endsTight, hr] at ht
    cases b with
    | token p => exact Cursor.pos_eq_stop_of_token? (derives_token_iff.mp h).2
    | call | seq | alt | opt | many => simp at ht
  | @seq _ a b c d e ts us h k iha ihb =>
    subst hs
    obtain ⟨l, hl, rfl, hlspan⟩ := iha rfl hc hf (ha.of_calls fun r hr => List.mem_append_left _ hr)
    obtain ⟨hd, f, hfd⟩ := h.endsAt (spacing_skipWhen gaps) hc hf
    have hs := spacing_skipWhen gaps
    obtain ⟨w, hw, -⟩ := Cursor.idle_skip hs d
    obtain ⟨m, hm, rfl, hmspan⟩ := ihb rfl (hd.passes hw) ⟨f, hfd.skip hs⟩
      (ha.skip (fun r hr => List.mem_append_right _ hr) d)
    exact ⟨l ++ m, Language.append_mem_mul hl hm, List.filterMap_append.symm,
      hlspan.append hmspan ha.clean hfd⟩
  | left _ ih =>
    obtain ⟨l, hl, hts, hspan⟩ := ih hs hc hf (ha.of_calls fun r hr => List.mem_append_left _ hr)
    exact ⟨l, .inl hl, hts, hspan⟩
  | right _ ih =>
    obtain ⟨l, hl, hts, hspan⟩ := ih hs hc hf (ha.of_calls fun r hr => List.mem_append_right _ hr)
    exact ⟨l, .inr hl, hts, hspan⟩
  | absent => exact ⟨[], .inl Language.nil_mem_one, rfl, .none s gaps _⟩
  | present _ ih =>
    obtain ⟨l, hl, hts, hspan⟩ := ih hs hc hf ⟨ha.clean, ha.tight⟩
    exact ⟨l, .inr hl, hts, hspan⟩
  | never => exact ⟨[], Language.nil_mem_kstar _, rfl, .none s gaps _⟩
  | @once _ a c d ts _ ih =>
    obtain ⟨l, hl, hts, hspan⟩ := ih hs hc hf ⟨ha.clean, ha.tight⟩
    exact ⟨l, Set.mem_of_mem_of_subset hl (le_kstar (a := a.items)), hts, hspan⟩
  | @again _ a c d e ts us h k ihm iha =>
    subst hs
    obtain ⟨l, hl, rfl, hlspan⟩ := ihm rfl hc hf ha
    obtain ⟨hd, f, hfd⟩ := h.endsAt (spacing_skipWhen gaps) hc hf
    have hs := spacing_skipWhen gaps
    obtain ⟨w, hw, -⟩ := Cursor.idle_skip hs d
    have ha' : a.Fits gaps c := ⟨ha.clean, ha.tight⟩
    obtain ⟨m, hm, rfl, hmspan⟩ := iha rfl (hd.passes hw) ⟨f, hfd.skip hs⟩
      (ha'.skip (fun _ => id) d)
    exact ⟨l ++ m, Set.mem_of_mem_of_subset (Language.append_mem_mul hl hm)
      (kstar_mul_le_kstar (a := a.items)), List.filterMap_append.symm,
      hlspan.append hmspan ha.clean hfd⟩

/-! ## Nodes that begin where no noise stands -/

/-- A tree that a rule leaves at a place of the text where no noise stands. -/
def Tree.GrownClean (s : Text) (t : Tree) : Prop :=
  ∃ c d, c.At s ∧ (∃ f, c.EndsAt s f) ∧ c.skipGap = c ∧
    t.rule.production.Derives c t.children d ∧ t.span = ⟨c.pos, d.stop⟩

/-- Where a rule matches that fits, no noise stands. -/
theorem Phrase.Fits.skipGap_eq {r : Rule} {gaps : Bool} {skip : Cursor → Cursor} {c d : Cursor}
    {ts : List Tree} (h : (Phrase.call r).Fits gaps c) (hd : Derives skip (.call r) c ts d) :
    c.skipGap = c := by
  cases gaps with
  | true => exact h.clean rfl
  | false => exact hd.skipGap_eq (h.tight rfl r (List.mem_singleton_self r)).2

theorem Tree.grownClean_nodes {r : Rule} {s : Text} {c d : Cursor} {ts : List Tree} (hc : c.At s)
    (hf : ∃ f, c.EndsAt s f) (hclean : c.skipGap = c) (h : r.production.Derives c ts d)
    (hts : ∀ t ∈ ts, ∀ n ∈ t.nodes, n.GrownClean s) :
    ∀ n ∈ (⟨r, ⟨c.pos, d.stop⟩, ts⟩ : Tree).nodes, n.GrownClean s := by
  intro n hn
  rcases Tree.mem_nodes_iff.mp hn with rfl | ⟨u, hu, hn⟩
  · exact ⟨c, d, hc, hf, hclean, h, rfl⟩
  · exact hts u hu n hn

/-- Every node of a derivation begins where no noise stands, if the derivation does. -/
theorem Derives.grownClean {skip : Cursor → Cursor} {a : Phrase} {s : Text} {gaps : Bool}
    {c d : Cursor} {ts : List Tree} (h : Derives skip a c ts d) (hs : skip = skipWhen gaps)
    (hc : c.At s) (hf : ∃ f, c.EndsAt s f) (ha : a.Fits gaps c) :
    ∀ t ∈ ts, ∀ n ∈ t.nodes, n.GrownClean s := by
  induction h generalizing gaps with
  | token | absent | never => simp
  | @lexeme _ r p c d hr h =>
    simp only [List.mem_singleton, forall_eq]
    have hclean := ha.skipGap_eq (Derives.lexeme hr h : Derives id _ c _ d)
    exact Tree.grownClean_nodes hc hf hclean (by rw [hr]; exact ⟨rfl, h⟩) (by simp)
  | @compact _ r b c d ts hr h ih =>
    simp only [List.mem_singleton, forall_eq]
    have hclean := ha.skipGap_eq (Derives.compact hr h : Derives id _ c _ d)
    have hts := ih rfl hc hf (.of_compact hr c)
    exact Tree.grownClean_nodes hc hf hclean (by rw [hr]; exact h) hts
  | @spaced _ r b c d ts hr h ih =>
    simp only [List.mem_singleton, forall_eq]
    have hclean := ha.skipGap_eq (Derives.spaced hr h : Derives id _ c _ d)
    have hts := ih rfl hc hf (.of_spaced b hclean)
    exact Tree.grownClean_nodes hc hf hclean (by rw [hr]; exact h) hts
  | @seq _ a b c d e ts us h k iha ihb =>
    subst hs
    have hs := spacing_skipWhen gaps
    obtain ⟨hd, f, hfd⟩ := h.endsAt hs hc hf
    intro t ht
    rcases List.mem_append.mp ht with ht | ht
    · exact iha rfl hc hf (ha.of_calls fun r hr => List.mem_append_left _ hr) t ht
    · exact ihb rfl (hd.skip hs) ⟨f, hfd.skip hs⟩
        (ha.skip (fun r hr => List.mem_append_right _ hr) d) t ht
  | left _ ih => exact ih hs hc hf (ha.of_calls fun r hr => List.mem_append_left _ hr)
  | right _ ih => exact ih hs hc hf (ha.of_calls fun r hr => List.mem_append_right _ hr)
  | present _ ih | once _ ih => exact ih hs hc hf ⟨ha.clean, ha.tight⟩
  | @again _ a c d e ts us h k ihm iha =>
    subst hs
    have hs := spacing_skipWhen gaps
    obtain ⟨hd, f, hfd⟩ := h.endsAt hs hc hf
    intro t ht
    rcases List.mem_append.mp ht with ht | ht
    · exact ihm rfl hc hf ha t ht
    · have ha' : a.Fits gaps c := ⟨ha.clean, ha.tight⟩
      exact iha rfl (hd.skip hs) ⟨f, hfd.skip hs⟩ (ha'.skip (fun _ => id) d) t ht

/-! ## Every node is assembled from an instance of its rule -/

theorem Cursor.Spans.assembledFrom {s : Text} {c d : Cursor} {l : List Item} {t : Tree}
    (h : c.Spans s (!t.rule.isAtomic) l d) (hl : l ∈ t.rule.production.items)
    (hts : t.children = l.filterMap Item.tree?) (hcd : c.Taken d)
    (hspan : t.span = ⟨c.pos, d.stop⟩) : t.AssembledFrom s l := by
  have hne : l ≠ [] := fun hnil => hcd.ne (h.nil hnil)
  refine ⟨hl, hts, ?_, ?_, h.spacing, h.lexemes⟩
  · rw [List.head?_eq_some_head hne, Option.map_some, hspan, h.head _ (List.head?_eq_some_head hne)]
  · have hlast := List.getLast?_eq_some_getLast hne
    rw [hlast, Option.map_some, hspan, h.last _ hlast]

theorem Tree.GrownClean.exists_assembledFrom {s : Text} {t : Tree} (h : t.GrownClean s) :
    ∃ l, t.AssembledFrom s l := by
  obtain ⟨c, d, hc, hf, hclean, hd, hspan⟩ := h
  have hcd := Rule.taken_of_derives hd
  cases hr : t.rule.production with
  | lexeme p =>
    rw [hr] at hd
    obtain ⟨hts, ht⟩ := hd
    obtain ⟨w, hw, hl⟩ := Cursor.spans_token hc ht
    have hitems : [.lexeme w ⟨c.pos, d.stop⟩] ∈ t.rule.production.items := by
      rw [hr]
      exact ⟨w, hw, _, rfl⟩
    exact ⟨_, hl.assembledFrom hitems hts hcd hspan⟩
  | compact a =>
    have hg : (!t.rule.isAtomic) = false := by simp [Rule.isAtomic, hr]
    have hda : Derives (skipWhen false) a c t.children d := by rwa [hr] at hd
    obtain ⟨l, hl, hts, hspans⟩ := hda.exists_items rfl hc hf (.of_compact hr c)
    exact ⟨l, (hg ▸ hspans).assembledFrom (by rw [hr]; exact hl) hts hcd hspan⟩
  | spaced a =>
    have hg : (!t.rule.isAtomic) = true := by simp [Rule.isAtomic, hr]
    have hda : Derives (skipWhen true) a c t.children d := by rwa [hr] at hd
    obtain ⟨l, hl, hts, hspans⟩ := hda.exists_items rfl hc hf (.of_spaced a hclean)
    exact ⟨l, (hg ▸ hspans).assembledFrom (by rw [hr]; exact hl) hts hcd hspan⟩

/-! ## Nodes without children -/

/-- A phrase that leaves a tree in any case has no instance without a child. -/
theorem Phrase.exists_child_of_items {a : Phrase} (ha : a.demands Rule.all) {l : List Item}
    (hl : l ∈ a.items) : l.filterMap Item.tree? ≠ [] := by
  induction a generalizing l with
  | token | opt | many => simp [demands] at ha
  | call r =>
    obtain ⟨t, -, rfl⟩ := hl
    exact List.cons_ne_nil t []
  | seq a b iha ihb =>
    obtain ⟨k, hk, m, hm, rfl⟩ := Language.mem_mul.mp hl
    simp only [demands, Bool.or_eq_true] at ha
    rw [List.filterMap_append, ne_eq, List.append_eq_nil_iff, not_and_or]
    exact ha.imp (fun h => iha h hk) fun h => ihb h hm
  | alt a b iha ihb =>
    simp only [demands, Bool.and_eq_true] at ha
    rcases hl with hl | hl
    · exact iha ha.1 hl
    · exact ihb ha.2 hl

/-- A rule leaves a child in any case, or it is one lexeme, or it is a region, which may be a colon
alone. -/
theorem Rule.demands_or_lexeme (r : Rule) :
    (∃ a, (r.production = .compact a ∨ r.production = .spaced a) ∧ a.demands all) ∨
      (∃ p, r.production = .lexeme p ∨ r.production = .spaced (.token p)) ∨
        r = arrayIndexRegion := by
  cases r
  case arrayIndexRegion => exact .inr (.inr rfl)
  all_goals
    first
    | exact .inr (.inl ⟨_, .inl rfl⟩)
    | exact .inr (.inl ⟨_, .inr rfl⟩)
    | exact .inl ⟨_, .inl rfl, by decide⟩
    | exact .inl ⟨_, .inr rfl, by decide⟩

theorem Phrase.eq_nil_of_items_opt {r : Rule} {l : List Item} (hl : l ∈ (opt (.call r)).items)
    (hts : l.filterMap Item.tree? = []) : l = [] := by
  rcases hl with hl | ⟨t, -, rfl⟩
  · exact hl
  · exact absurd hts (List.cons_ne_nil t [])

/-- An instance without children is one lexeme. -/
theorem Rule.exists_lexeme_of_items {r : Rule} {l : List Item} (hl : l ∈ r.production.items)
    (hts : l.filterMap Item.tree? = []) :
    ∃ p ∈ r.production.lexemes, ∃ w ∈ p.language, ∃ x, l = [.lexeme w x] := by
  rcases r.demands_or_lexeme with ⟨a, hr, ha⟩ | ⟨p, hr⟩ | rfl
  · have hla : l ∈ a.items := by rcases hr with hr | hr <;> rwa [hr] at hl
    exact absurd hts (Phrase.exists_child_of_items ha hla)
  · have hp : p ∈ r.production.lexemes := by
      rcases hr with hr | hr <;> rw [hr] <;> exact List.mem_singleton_self p
    have hlp : l ∈ (Phrase.token p).items := by rcases hr with hr | hr <;> rwa [hr] at hl
    obtain ⟨w, hw, x, rfl⟩ := hlp
    exact ⟨p, hp, w, hw, x, rfl⟩
  · obtain ⟨k, hk, _, ⟨_, ⟨w, hw, x, rfl⟩, m, hm, rfl⟩, rfl⟩ := hl
    simp only [List.filterMap_append, List.append_eq_nil_iff] at hts
    rw [Phrase.eq_nil_of_items_opt hk hts.1, Phrase.eq_nil_of_items_opt hm hts.2.2]
    exact ⟨.lit [':'], by decide, w, hw, x, rfl⟩

/-- The text of a node without children is a word of its rule. -/
theorem Tree.AssembledFrom.text_mem {s : Text} {t : Tree} {l : List Item} (h : t.AssembledFrom s l)
    (ht : t.children = []) : ∃ p ∈ t.rule.production.lexemes, t.text s ∈ p.language := by
  obtain ⟨p, hp, w, hw, x, rfl⟩ :=
    Rule.exists_lexeme_of_items h.instance_of_rule (h.children.symm.trans ht)
  have hstart : x.start = t.span.start := Option.some.inj h.first
  have hstop : x.stop = t.span.stop := Option.some.inj h.last
  have hslice : s.slice? x.start x.stop = some w := h.lexemes _ (List.mem_singleton_self _)
  refine ⟨p, hp, ?_⟩
  rw [Tree.text, Span.text, ← hstart, ← hstop, hslice]
  exact hw

/-- Every node of the tree of a text that does not begin with noise begins where no noise stands. -/
theorem grownClean_of_parse {s : Text} {r : Rule} {o : Options} {t : Tree}
    (hs : skipNoise s 0 = 0) (h : parse s r o = .ok t) : ∀ n ∈ t.nodes, n.GrownClean s := by
  obtain ⟨d, ts, -, rfl, hd⟩ := derives_of_parse h
  obtain ⟨hat, hends⟩ := Cursor.endsAt_start s
  have hclean : (Cursor.start s 0).skipGap = .start s 0 := by
    refine Cursor.skipGap_eq_self ?_
    obtain ⟨w, hw, hsize, -⟩ := Cursor.skipGap_start s
    have hlen := Text.length_le_size w
    have hnil : w = [] := List.length_eq_zero_iff.mp (by omega)
    rw [hnil, List.nil_append] at hw
    exact hw.symm
  have hcall : Derives (skipWhen true) (.call r) (.start s 0) [⟨r, ⟨0, d.stop⟩, ts⟩] d :=
    derives_call_iff.mpr ⟨ts, rfl, hd⟩
  have hgrown := hcall.grownClean rfl hat hends (.of_spaced _ hclean)
  exact hgrown _ (List.mem_singleton_self _)

/-- **A tree is a derivation of the grammar.**  In the tree of a text that does not begin with
noise, every node is put together from an instance of its rule, with all the noise there is between
two neighbouring items, or none where the rule rules noise out; and the text of a node without
children is a word of its rule. -/
theorem assembled_of_parse {s : Text} {r : Rule} {o : Options} {t : Tree}
    (hs : skipNoise s 0 = 0) (h : parse s r o = .ok t) :
    ∀ n ∈ t.nodes, (∃ l, n.AssembledFrom s l) ∧
      (n.children = [] → ∃ p ∈ n.rule.production.lexemes, n.text s ∈ p.language) := by
  intro n hn
  obtain ⟨l, hl⟩ := (grownClean_of_parse hs h n hn).exists_assembledFrom
  exact ⟨⟨l, hl⟩, hl.text_mem⟩

/-- A call with a comment on a continued line between its parentheses. -/
theorem assembled_of_continued_call :
    let s : Text := ['f', '(', '&', '!', ')', '\n', '&', ')', ' ']
    let u : Tree := ⟨.name, ⟨0, 1⟩, []⟩
    let t : Tree := ⟨.functionCall, ⟨0, 8⟩, [u]⟩
    skipNoise s 0 = 0 ∧ parse s .functionCall {} = .ok t ∧ (∃ l, t.AssembledFrom s l) ∧
      ∃ p ∈ Rule.name.production.lexemes, u.text s ∈ p.language := by
  intro s u t
  have hs : skipNoise s 0 = 0 := by decide
  have ht : parse s .functionCall {} = .ok t := by rfl
  have hu : u ∈ t.nodes := by decide
  exact ⟨hs, ht, (assembled_of_parse hs ht t t.self_mem_nodes).1,
    (assembled_of_parse hs ht u hu).2 rfl⟩

end FreeForm
