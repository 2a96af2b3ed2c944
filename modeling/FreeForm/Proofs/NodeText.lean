import FreeForm.Proofs.Assembly
import FreeForm.Proofs.Choices
import FreeForm.Proofs.LeafText
import FreeForm.Proofs.SpanOrder

/-!
# The texts of nodes with children

A node of a rule that rules noise out reads as its items do, one behind the other
(`Tree.GrownAt.exists_items`): the text of a number is the text of its sign and the text of its
digits.  A truth value with a negation is the one literal that may have noise inside, between its
two words (`Tree.GrownAt.text_boolean`).
-/

open scoped Computability

namespace FreeForm

/-- A slice that ends where another one begins. -/
theorem Text.slice?_append {s v w : Text} {i j k : Nat} (hv : s.slice? i j = some v)
    (hw : s.slice? j k = some w) : s.slice? i k = some (v ++ w) := by
  obtain ⟨u, x, rfl, rfl, hj⟩ := eq_append_of_slice? hv
  simp only [slice?, Option.ite_none_right_eq_some, Option.bind_eq_some_iff] at hw
  obtain ⟨hle, r, hr, ht⟩ := hw
  rw [← hj, ← size_append, dropBytes?_size_append] at hr
  obtain rfl := Option.some.inj hr
  obtain ⟨y, rfl, hsize⟩ := eq_append_of_takeBytes? ht
  have hk : size u + size (v ++ w) = k := by
    rw [size_append]
    omega
  have hslice := slice?_size_append u (v ++ w) y
  rwa [hk, ← List.append_assoc, List.append_assoc (u ++ v)] at hslice

/-! ## Nodes in a whole text -/

/-- A tree that a rule leaves between two places of the text `s`, each with nothing but noise since
the last lexeme. -/
def Tree.GrownAt (s : Text) (t : Tree) : Prop :=
  t.GrownFrom fun c => c.At s ∧ ∃ f, c.EndsAt s f

theorem grownAt_of_parse {s : Text} {r : Rule} {o : Options} {t : Tree} (h : parse s r o = .ok t) :
    ∀ n ∈ t.nodes, n.GrownAt s :=
  (Cursor.invariant_endsAt s).grownFrom_of_parse (fun _ _ _ => trivial) (Cursor.endsAt_start s) h

theorem Cursor.At.in {s : Text} {c f : Cursor} (hc : c.At s) (hf : c.EndsAt s f) : c.In s := by
  obtain ⟨u, hs, hu⟩ := hc
  refine ⟨⟨u, [], by rw [hs, List.append_nil], hu⟩, ?_⟩
  rw [← hf.stop, hf.stop_eq]
  exact hf.le

theorem Tree.GrownAt.grownIn {s : Text} {t : Tree} (h : t.GrownAt s) : t.GrownIn s := by
  obtain ⟨c, d, ⟨hc, f, hf⟩, -, hd, hspan⟩ := h
  exact ⟨c, d, hc.in hf, hd, hspan⟩

theorem Tree.GrownAt.slice? {s : Text} {t : Tree} (h : t.GrownAt s) :
    s.slice? t.span.start t.span.stop = some (t.text s) := h.grownIn.wellSpanned.text_eq

/-- A node of a rule without late lexemes begins where no noise stands. -/
theorem Tree.GrownAt.skipNoise_start {s : Text} {t : Tree} (h : t.GrownAt s)
    (hr : t.rule.lateLexemes = []) : skipNoise s t.span.start = t.span.start := by
  obtain ⟨c, d, ⟨hc, -⟩, -, hd, hspan⟩ := h
  have hcall : Derives id (.call t.rule) c [⟨t.rule, ⟨c.pos, d.stop⟩, t.children⟩] d :=
    derives_call_iff.mpr ⟨_, rfl, hd⟩
  rw [hspan, hc.skipNoise, hcall.skipGap_eq hr]

/-! ## Rules that rule noise out -/

/-- The text of an item. -/
def Item.text (s : Text) : Item → Text
  | lexeme w _ => w
  | child t => t.text s

/-- Items without noise between them are read one behind the other. -/
theorem Item.slice?_of_isChain {s : Text} {l : List Item} :
    ∀ {i : Item}, (i :: l).IsChain (fun i j => j.span.start = i.span.stop) →
      (∀ j ∈ i :: l, s.slice? j.span.start j.span.stop = some (j.text s)) →
      ∀ k ∈ (i :: l).getLast?,
        s.slice? i.span.start k.span.stop = some ((i :: l).flatMap (Item.text s)) := by
  induction l with
  | nil =>
    intro i _ hl k hk
    obtain rfl := Option.some.inj hk
    simpa using hl i (List.mem_singleton_self i)
  | cons j l ih =>
    intro i hchain hl k hk
    obtain ⟨hij, hchain⟩ := List.isChain_cons_cons.mp hchain
    rw [List.getLast?_cons_cons] at hk
    have hrest := ih hchain (fun m hm => hl m (List.mem_cons_of_mem i hm)) k hk
    rw [hij] at hrest
    rw [List.flatMap_cons]
    exact Text.slice?_append (hl i List.mem_cons_self) hrest

/-- A node of a rule that rules noise out is made of items, and its text of theirs. -/
theorem Tree.exists_items_of_compact {s : Text} {t : Tree} {a : Phrase} (h : t.GrownAt s)
    (hts : ∀ u ∈ t.children, u.GrownAt s) (hr : t.rule.production = .compact a) :
    ∃ l ∈ a.items, t.children = l.filterMap Item.tree? ∧ t.text s = l.flatMap (Item.text s) := by
  obtain ⟨c, d, ⟨hc, hf⟩, -, hd, hspan⟩ := h
  have htaken := Rule.taken_of_derives hd
  rw [hr] at hd
  have hda : Derives (skipWhen false) a c t.children d := hd
  obtain ⟨l, hl, hchildren, hspans⟩ := hda.exists_items rfl hc hf (.of_compact hr c)
  refine ⟨l, hl, hchildren, ?_⟩
  have hslice : ∀ i ∈ l, s.slice? i.span.start i.span.stop = some (i.text s) := by
    intro i hi
    cases i with
    | lexeme w x => exact hspans.lexemes _ hi
    | child u =>
      have hu : u ∈ t.children := hchildren ▸ List.mem_filterMap.mpr ⟨_, hi, rfl⟩
      exact (hts u hu).slice?
  cases l with
  | nil => exact absurd (hspans.nil rfl) htaken.ne
  | cons i l =>
    have hlast := List.getLast?_eq_some_getLast (List.cons_ne_nil i l)
    have htext := Item.slice?_of_isChain hspans.spacing hslice _ hlast
    rw [hspans.head i rfl, hspans.last _ hlast] at htext
    rw [Tree.text, Span.text, hspan, htext, Option.getD_some]

/-! ## Truth values -/

/-- The text of a truth value with a possible negation: the word `.not.` if there is a child for it,
noise as far as it goes, and the other word. -/
theorem Tree.GrownAt.text_boolean {s : Text} {t : Tree} (h : t.GrownAt s) (hr : t.rule = .boolean) :
    ∃ us u w g, t.children = us ++ [u] ∧ u.rule = .booleanValue ∧
      t.text s = w ++ (g ++ u.text s) ∧
      skipNoise s (t.span.start + Text.size w) = t.span.start + Text.size w + Text.size g ∧
      (us = [] ∧ w = [] ∨ ∃ v, us = [v] ∧ v.rule = .logicalPrefixOperator ∧
        w.map Char.toLower = ['.', 'n', 'o', 't', '.']) := by
  obtain ⟨c, d, ⟨hc, -⟩, -, hd, hspan⟩ := h
  rw [hr] at hd
  obtain ⟨us, x, vs, hopt, hval, hts⟩ := derives_seq_iff.mp hd
  obtain ⟨ws, rfl, hword⟩ := derives_call_iff.mp hval
  obtain ⟨rfl, htoken⟩ := hword
  obtain ⟨v, -, hv, hstop⟩ := Cursor.passes_of_token? htoken
  obtain ⟨g, -, hg, -⟩ := x.passes_skipGap
  have hprefix : ∃ w, c.Passes w x ∧ (us = [] ∧ w = [] ∨
      ∃ v, us = [v] ∧ v.rule = .logicalPrefixOperator ∧
        w.map Char.toLower = ['.', 'n', 'o', 't', '.']) := by
    rcases derives_opt_iff.mp hopt with ⟨rfl, rfl⟩ | hcall
    · exact ⟨[], ⟨rfl, rfl⟩, .inl ⟨rfl, rfl⟩⟩
    · obtain ⟨ys, rfl, hnot⟩ := derives_call_iff.mp hcall
      obtain ⟨zs, -, hnot⟩ := derives_call_iff.mp hnot
      obtain ⟨-, hnot⟩ := derives_token_iff.mp hnot
      obtain ⟨w, hw, hcx, -⟩ := Cursor.passes_of_token? hnot
      exact ⟨w, hcx, .inr ⟨_, rfl, rfl, Pattern.map_of_splitWord? hw⟩⟩
  obtain ⟨w, hw, hus⟩ := hprefix
  have hx := hc.passes hw
  have hsplit := hc.slice? (hw.trans (hg.trans hv))
  have htext := (hx.passes hg).slice? hv
  refine ⟨us, _, w, g, hts, rfl, ?_, ?_, hus⟩
  · simp only [Tree.text, Span.text, hspan, hstop, hsplit, htext, Option.getD_some]
  · rw [hspan, ← hw.pos, hx.skipNoise, hg.pos]

end FreeForm
