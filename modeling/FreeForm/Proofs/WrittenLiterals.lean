import FreeForm.Proofs.LoweringSteps
import FreeForm.Proofs.NodeText
import FreeForm.Proofs.SpelledLiterals

/-!
# Literals reproduce the source

Typed syntax keeps names and literals as they were written.  `WrittenIn` says so for each type of
them: the spelling is the text in the span, and the parts are well-formed.  A truth value is compared
up to case and up to the noise behind its negation.

The proof goes up from the texts of the leaves.  A lowering says which children the parts of a
literal are read from (`FreeForm.Proofs.LoweringSteps`), and the items of a node say in which order
the texts of these children make its own text (`FreeForm.Proofs.NodeText`).
-/

open scoped Computability

namespace FreeForm

/-! ## What is written in a text -/

section WrittenIn

variable (s : Text)

def Identifier.WrittenIn (x : Identifier) : Prop :=
  s.slice? x.span.start x.span.stop = some x.spell ∧ x.isWellFormed

def IntegerLiteral.WrittenIn (n : IntegerLiteral) : Prop :=
  s.slice? n.span.start n.span.stop = some n.spell ∧ n.isWellFormed

def FloatLiteral.WrittenIn (x : FloatLiteral) : Prop :=
  s.slice? x.span.start x.span.stop = some x.spell ∧ x.isWellFormed

def NumberLiteral.WrittenIn : NumberLiteral → Prop
  | integer n => n.WrittenIn s
  | float x => x.WrittenIn s

def Number.WrittenIn (n : Number) : Prop :=
  s.slice? n.span.start n.span.stop = some n.spell ∧ n.isWellFormed ∧ n.literal.WrittenIn s

def StringLiteral.WrittenIn (x : StringLiteral) : Prop :=
  s.slice? x.span.start x.span.stop = some x.spell ∧ x.isWellFormed

/-- The word `.not.` if the value is negated, all the noise there is, and the word for the value.  A
`.not.` inside the noise, in a comment, does not count. -/
def Boolean.WrittenIn (b : Boolean) : Prop :=
  ∃ w g v, s.slice? b.span.start b.span.stop = some (w ++ (g ++ v)) ∧
    w.map Char.toLower = (if b.negated then ['.', 'n', 'o', 't', '.'] else []) ∧
    skipNoise s (b.span.start + Text.size w) = b.span.start + Text.size w + Text.size g ∧
    v.map Char.toLower = truthWord b.literal

def Literal.WrittenIn : Literal → Prop
  | number n => n.WrittenIn s
  | string x => x.WrittenIn s
  | boolean b => b.WrittenIn s

/-- There is an item, and the items are written in the text. -/
def ArrayItems.WrittenIn : ArrayItems → Prop
  | booleans bs => bs ≠ [] ∧ ∀ b ∈ bs, b.WrittenIn s
  | strings xs => xs ≠ [] ∧ ∀ x ∈ xs, x.WrittenIn s
  | numbers ns => ns ≠ [] ∧ ∀ n ∈ ns, n.WrittenIn s

def InPlaceArray.WrittenIn (a : InPlaceArray) : Prop := a.items.WrittenIn s

end WrittenIn

/-! ## Names and digits -/

theorem Pattern.isName_of_split? {s w r : Text} (h : identifier.split? s = some (w, r)) :
    isName w := by
  obtain ⟨x, y, z, hx, hy, rfl⟩ := split?_seq_eq_some.mp h
  have hall := holds_of_run hy
  obtain ⟨c, hc, rfl, -⟩ := split?_one_eq_some.mp hx
  simp only [List.singleton_append, isName, Bool.and_eq_true, List.all_eq_true]
  exact ⟨by simpa [CharClass.holds] using hc, fun d hd => by
    simpa [CharClass.holds] using hall d hd⟩

variable {source : Source} {t : Tree}

theorem Tree.GrownAt.isName_text {s : Text} (h : t.GrownAt s) (hr : t.rule = .name) :
    isName (t.text s) := by
  obtain ⟨x, r, hx⟩ := h.grownIn.split?_of_lexeme (by rw [hr]; rfl)
  exact Pattern.isName_of_split? hx

theorem Identifier.writtenIn_of_ofTree {x : Identifier}
    (h : ∀ n ∈ t.nodes, n.GrownAt source.content) (hx : Identifier.ofTree source t = .ok x) :
    x.WrittenIn source.content := by
  obtain ⟨_, hr, hx⟩ := bind_eq_ok hx
  obtain rfl := Except.ok.inj hx
  have ht := h t t.self_mem_nodes
  exact ⟨ht.slice?, ht.isName_text (Tree.rule_of_expect hr)⟩

/-- The items of a node of a rule that rules noise out, if all nodes grow in the text. -/
theorem Tree.exists_items {a : Phrase} {r : Rule} (h : ∀ n ∈ t.nodes, n.GrownAt source.content)
    (hr : t.rule = r) (ha : r.production = .compact a) :
    ∃ l ∈ a.items, t.children = l.filterMap Item.tree? ∧
      t.text source.content = l.flatMap (Item.text source.content) :=
  exists_items_of_compact (h t t.self_mem_nodes) (fun u hu => h u (mem_nodes_of_child hu))
    (by rw [hr, ha])

theorem text_of_kindOfTree {k : Text} (h : ∀ n ∈ t.nodes, n.GrownAt source.content)
    (hk : kindOfTree source t = .ok k) : t.text source.content = '_' :: k ∧ isKind k := by
  obtain ⟨_, hr, hk⟩ := bind_eq_ok hk
  obtain ⟨u, hu, hk⟩ := bind_eq_ok hk
  obtain rfl := Except.ok.inj hk
  obtain ⟨us, hc⟩ := Tree.firstChild_eq_ok hu
  have hgrown := h u (Tree.mem_nodes_of_child (hc ▸ List.mem_cons_self))
  obtain ⟨_, ⟨_, ⟨w, hw, x, rfl⟩, m, hm, rfl⟩, hts, htext⟩ :=
    Tree.exists_items h (Tree.rule_of_expect hr) rfl
  obtain rfl : w = ['_'] := hw
  have hname : ∃ v, m = [.child v] ∧ (v.rule = .name ∨ v.rule = .digits) := by
    rcases hm with ⟨v, hv, rfl⟩ | ⟨v, hv, rfl⟩
    · exact ⟨v, rfl, .inl hv⟩
    · exact ⟨v, rfl, .inr hv⟩
  obtain ⟨v, rfl, hv⟩ := hname
  obtain rfl : u = v := List.head_eq_of_cons_eq (hc.symm.trans hts)
  refine ⟨by simpa [Item.text] using htext, Bool.or_eq_true_iff.mpr ?_⟩
  exact hv.imp hgrown.isName_text hgrown.grownIn.isDigitRun_text

/-- The kind of a number, if it has one, is read from the last of its items. -/
theorem kindSuffix_of_optional {r : Rule} {y : Span} (us : List Tree) {m : List Item}
    {k : Option Text} (hm : m ∈ (Phrase.opt (.call .precisionSpec)).items)
    (hus : ∀ u ∈ us, u.rule ≠ .precisionSpec)
    (h : ∀ u ∈ m.filterMap Item.tree?, ∀ n ∈ u.nodes, n.GrownAt source.content)
    (hk : (⟨r, y, us ++ m.filterMap Item.tree?⟩ : Tree).optional .precisionSpec
      (kindOfTree source) = .ok k) :
    kindSuffix k = m.flatMap (Item.text source.content) ∧ k.all isKind := by
  rcases hm with rfl | ⟨v, hv, rfl⟩
  · rw [List.filterMap_nil, List.append_nil, Tree.optional_of_forall_ne hus] at hk
    obtain rfl := Except.ok.inj hk
    exact ⟨rfl, rfl⟩
  · have hchild : (⟨r, y, us ++ [v]⟩ : Tree).child? .precisionSpec = some v :=
      (Tree.child?_append_of_ne hus).trans (Tree.child?_of_eq hv)
    rcases Tree.optional_eq_ok hk with ⟨hnone, -⟩ | ⟨w, k, hw, hk, rfl⟩
    · exact absurd (hchild.symm.trans hnone) (by simp)
    · obtain rfl : v = w := Option.some.inj (hchild.symm.trans hw)
      obtain ⟨htext, hkind⟩ := text_of_kindOfTree (h v (List.mem_singleton_self v)) hk
      exact ⟨by simp [kindSuffix, Item.text, htext], hkind⟩

/-! ## Numbers -/

theorem IntegerLiteral.spell_of_ofTree {n : IntegerLiteral}
    (h : ∀ n ∈ t.nodes, n.GrownAt source.content) (hn : IntegerLiteral.ofTree source t = .ok n) :
    n.span = t.span ∧ n.spell = t.text source.content ∧ n.isWellFormed := by
  obtain ⟨_, hr, hn⟩ := bind_eq_ok hn
  obtain ⟨u, hu, hn⟩ := bind_eq_ok hn
  obtain ⟨k, hk, hn⟩ := bind_eq_ok hn
  obtain rfl := Except.ok.inj hn
  obtain ⟨_, ⟨_, ⟨v, hv, rfl⟩, m, hm, rfl⟩, hts, htext⟩ :=
    Tree.exists_items h (Tree.rule_of_expect hr) rfl
  obtain ⟨r, y, ts⟩ := t
  obtain rfl : ts = [v] ++ m.filterMap Item.tree? := hts
  obtain rfl : v = u := Except.ok.inj ((Tree.required_of_eq hv).symm.trans hu)
  have hchild : ∀ w ∈ [v] ++ m.filterMap Item.tree?, ∀ n ∈ w.nodes, n.GrownAt source.content :=
    fun w hw => Tree.forall_nodes_of_child h hw
  have hdigits := (hchild v List.mem_cons_self v v.self_mem_nodes).grownIn.isDigitRun_text hv
  obtain ⟨hsuffix, hkind⟩ := kindSuffix_of_optional [v] hm (by simp [hv])
    (fun w hw => hchild w (List.mem_append_right _ hw)) hk
  refine ⟨rfl, ?_, Bool.and_eq_true_iff.mpr ⟨hdigits, hkind⟩⟩
  rw [htext, spell, hsuffix]
  rfl

theorem FloatLiteral.spell_of_ofTree {x : FloatLiteral}
    (h : ∀ n ∈ t.nodes, n.GrownAt source.content) (hx : FloatLiteral.ofTree source t = .ok x) :
    x.span = t.span ∧ x.spell = t.text source.content ∧ x.isWellFormed := by
  obtain ⟨_, hr, hx⟩ := bind_eq_ok hx
  obtain ⟨_, ⟨_, ⟨u, hu, rfl⟩, _, ⟨_, ⟨p, hp, z, rfl⟩, _, ⟨_, ⟨v, hv, rfl⟩, m, hm, rfl⟩, rfl⟩, rfl⟩,
    hts, htext⟩ := Tree.exists_items h (Tree.rule_of_expect hr) rfl
  obtain rfl : p = ['.'] := hp
  obtain ⟨r, y, ts⟩ := t
  obtain rfl : ts = [u, v] ++ m.filterMap Item.tree? := hts
  have hchild : ∀ w ∈ [u, v] ++ m.filterMap Item.tree?, ∀ n ∈ w.nodes, n.GrownAt source.content :=
    fun w hw => Tree.forall_nodes_of_child h hw
  rw [List.cons_append, List.cons_append, Tree.childrenNamed_of_eq hu,
    Tree.childrenNamed_of_eq hv] at hx
  obtain ⟨k, hk, hx⟩ := bind_eq_ok hx
  obtain rfl := Except.ok.inj hx
  have hwhole := (hchild u (by simp) u u.self_mem_nodes).grownIn.isDigitRun_text hu
  have hfraction := (hchild v (by simp) v v.self_mem_nodes).grownIn.isDigitRun_text hv
  obtain ⟨hsuffix, hkind⟩ := kindSuffix_of_optional [u, v] hm (by simp [hu, hv])
    (fun w hw => hchild w (List.mem_append_right _ hw)) hk
  refine ⟨rfl, ?_, by simp [isWellFormed, hwhole, hfraction, hkind]⟩
  rw [htext, spell, hsuffix]
  rfl

theorem Sign.text_of_ofTree {g : Sign} (hg : Sign.ofTree source t = .ok g) :
    t.text source.content = signPrefix g := by
  unfold Sign.ofTree at hg
  split at hg
  · rename_i htext
    obtain rfl := Except.ok.inj hg
    exact htext
  · rename_i htext
    obtain rfl := Except.ok.inj hg
    exact htext
  · simp at hg

theorem signPrefix_of_optional {r : Rule} {y : Span} {u : Tree} {m : List Item} {k : Option Sign}
    (hm : m ∈ (Phrase.opt (.call .sign)).items) (hu : u.rule ≠ .sign)
    (hk : (⟨r, y, m.filterMap Item.tree? ++ [u]⟩ : Tree).optional .sign (Sign.ofTree source)
      = .ok k) :
    signPrefix k = m.flatMap (Item.text source.content) := by
  rcases hm with rfl | ⟨v, hv, rfl⟩
  · rw [Tree.optional_of_forall_ne (by simpa using hu)] at hk
    obtain rfl := Except.ok.inj hk
    rfl
  · have hchild : (⟨r, y, [v] ++ [u]⟩ : Tree).child? .sign = some v := Tree.child?_of_eq hv
    rcases Tree.optional_eq_ok hk with ⟨hnone, -⟩ | ⟨w, g, hw, hg, rfl⟩
    · exact absurd (hchild.symm.trans hnone) (by simp)
    · obtain rfl : v = w := Option.some.inj (hchild.symm.trans hw)
      simp [← Sign.text_of_ofTree hg, Item.text]

/-- The literal of a number is read from the last of its items. -/
theorem NumberLiteral.spell_of_ofTree {r : Rule} {y : Span} {u : Tree} {us : List Tree}
    {x : NumberLiteral} (hus : ∀ v ∈ us, v.rule = .sign) (hu : u.rule = .float ∨ u.rule = .integer)
    (h : ∀ n ∈ u.nodes, n.GrownAt source.content)
    (hx : NumberLiteral.ofTree source ⟨r, y, us ++ [u]⟩ = .ok x) :
    x.WrittenIn source.content ∧ x.spell = u.text source.content ∧ x.isWellFormed := by
  have hslice := (h u u.self_mem_nodes).slice?
  have hskip : ∀ q, q ≠ .sign → (⟨r, y, us ++ [u]⟩ : Tree).child? q = [u].find? (·.rule = q) :=
    fun q hq => Tree.child?_append_of_ne fun v hv => by rw [hus v hv]; exact hq.symm
  rcases hu with hu | hu
  · have hfloat := hskip .float (by decide)
    rw [List.find?_cons_of_pos (by simpa using hu)] at hfloat
    rw [NumberLiteral.ofTree, hfloat] at hx
    obtain ⟨f, hf, rfl⟩ := map_eq_ok hx
    obtain ⟨hspan, hspell, hwell⟩ := FloatLiteral.spell_of_ofTree h hf
    exact ⟨⟨by rw [hspan, hspell]; exact hslice, hwell⟩, hspell, hwell⟩
  · have hfloat := hskip .float (by decide)
    have hinteger := hskip .integer (by decide)
    rw [List.find?_cons_of_neg (by simp [hu]), List.find?_nil] at hfloat
    rw [List.find?_cons_of_pos (by simpa using hu)] at hinteger
    rw [NumberLiteral.ofTree, hfloat] at hx
    obtain ⟨v, hv, hx⟩ := bind_eq_ok hx
    rw [Tree.required, hinteger] at hv
    obtain rfl := Except.ok.inj hv
    obtain ⟨n, hn, hx⟩ := bind_eq_ok hx
    obtain rfl := Except.ok.inj hx
    obtain ⟨hspan, hspell, hwell⟩ := IntegerLiteral.spell_of_ofTree h hn
    exact ⟨⟨by rw [hspan, hspell]; exact hslice, hwell⟩, hspell, hwell⟩

theorem IntegerLiteral.writtenIn_of_ofTree {n : IntegerLiteral}
    (h : ∀ n ∈ t.nodes, n.GrownAt source.content) (hn : IntegerLiteral.ofTree source t = .ok n) :
    n.WrittenIn source.content := by
  obtain ⟨hspan, hspell, hwell⟩ := spell_of_ofTree h hn
  exact ⟨by rw [hspan, hspell]; exact (h t t.self_mem_nodes).slice?, hwell⟩

theorem FloatLiteral.writtenIn_of_ofTree {x : FloatLiteral}
    (h : ∀ n ∈ t.nodes, n.GrownAt source.content) (hx : FloatLiteral.ofTree source t = .ok x) :
    x.WrittenIn source.content := by
  obtain ⟨hspan, hspell, hwell⟩ := spell_of_ofTree h hx
  exact ⟨by rw [hspan, hspell]; exact (h t t.self_mem_nodes).slice?, hwell⟩

theorem Number.writtenIn_of_ofTree {n : Number} (h : ∀ n ∈ t.nodes, n.GrownAt source.content)
    (hn : Number.ofTree source t = .ok n) : n.WrittenIn source.content := by
  obtain ⟨_, hr, hn⟩ := bind_eq_ok hn
  obtain ⟨g, hg, hn⟩ := bind_eq_ok hn
  obtain ⟨x, hx, hn⟩ := bind_eq_ok hn
  split at hn
  · obtain rfl := Except.ok.inj hn
    obtain ⟨_, ⟨m, hm, l, hl, rfl⟩, hts, htext⟩ := Tree.exists_items h (Tree.rule_of_expect hr) rfl
    have hlast : ∃ u, l = [.child u] ∧ (u.rule = .float ∨ u.rule = .integer) := by
      rcases hl with ⟨u, hu, rfl⟩ | ⟨u, hu, rfl⟩
      · exact ⟨u, rfl, .inl hu⟩
      · exact ⟨u, rfl, .inr hu⟩
    obtain ⟨u, rfl, hu⟩ := hlast
    have hslice := (h t t.self_mem_nodes).slice?
    obtain ⟨r, y, ts⟩ := t
    obtain rfl : ts = m.filterMap Item.tree? ++ [u] := by simpa [Item.tree?] using hts
    have hsigns : ∀ v ∈ m.filterMap Item.tree?, v.rule = .sign := by
      rcases hm with rfl | ⟨v, hv, rfl⟩
      · simp
      · simpa [Item.tree?] using hv
    have hne : u.rule ≠ .sign := by rcases hu with hu | hu <;> rw [hu] <;> decide
    have hprefix := signPrefix_of_optional hm hne hg
    obtain ⟨hwritten, hspell, hwell⟩ := NumberLiteral.spell_of_ofTree hsigns hu
      (Tree.forall_nodes_of_child h (List.mem_append_right _ (List.mem_singleton_self u))) hx
    refine ⟨?_, hwell, hwritten⟩
    rw [hslice, htext, spell, hprefix, hspell, List.flatMap_append, List.flatMap_singleton]
    rfl
  · simp at hn

/-! ## Strings and truth values -/

theorem StringLiteral.writtenIn_of_ofTree {x : StringLiteral}
    (h : ∀ n ∈ t.nodes, n.GrownAt source.content) (hx : StringLiteral.ofTree source t = .ok x) :
    x.WrittenIn source.content := by
  have ht := h t t.self_mem_nodes
  obtain ⟨_, hr, hx⟩ := bind_eq_ok hx
  obtain ⟨q, b, htext, hq, hb⟩ := ht.grownIn.text_string (Tree.rule_of_expect hr)
  have hunquote : unquote? (t.text source.content) = some (q, b) := by
    simp [htext, unquote?, hq]
  rw [hunquote] at hx
  obtain rfl := Except.ok.inj hx
  have hwell : (⟨b, q, t.span⟩ : StringLiteral).isWellFormed := by simp [isWellFormed, hq, hb]
  exact ⟨ht.slice?.trans (congrArg some htext), hwell⟩

theorem map_toLower_of_truthValue? {w : Text} {b : Bool} (h : truthValue? w = some b) :
    w.map Char.toLower = truthWord b := by
  unfold truthValue? at h
  dsimp only at h
  split at h
  · rename_i hw
    obtain rfl := Option.some.inj h
    exact hw
  · split at h
    · rename_i hw
      obtain rfl := Option.some.inj h
      exact hw
    · simp at h

theorem Boolean.writtenIn_of_ofTree {b : Boolean} (h : ∀ n ∈ t.nodes, n.GrownAt source.content)
    (hb : Boolean.ofTree source t = .ok b) : b.WrittenIn source.content := by
  have ht := h t t.self_mem_nodes
  obtain ⟨⟨negated, u⟩, hparts, hb⟩ := bind_eq_ok hb
  dsimp only at hb
  split at hb
  · rename_i literal hvalue
    obtain rfl := Except.ok.inj hb
    have hword := map_toLower_of_truthValue? hvalue
    unfold parts at hparts
    split at hparts
    · rename_i hr
      obtain ⟨rfl, rfl⟩ := Prod.mk.inj (Except.ok.inj hparts)
      exact ⟨[], [], _, ht.slice?, rfl, ht.skipNoise_start (by rw [hr]; rfl), hword⟩
    · rename_i hr
      obtain ⟨us, v, w, g, hts, hv, htext, hnoise, hus⟩ := ht.text_boolean hr
      obtain ⟨x, hx, hparts⟩ := bind_eq_ok hparts
      obtain ⟨rfl, rfl⟩ := Prod.mk.inj (Except.ok.inj hparts)
      have hslice := ht.slice?
      rw [htext] at hslice
      obtain ⟨r, y, ts⟩ := t
      obtain rfl : ts = us ++ [v] := hts
      rcases hus with ⟨rfl, rfl⟩ | ⟨p, rfl, hp, hw⟩
      · obtain rfl : v = x := Except.ok.inj ((Tree.required_of_eq hv).symm.trans hx)
        have hnone : (⟨r, y, [] ++ [v]⟩ : Tree).child? .logicalPrefixOperator = none :=
          Tree.child?_of_ne (by rw [hv]; decide)
        exact ⟨[], g, _, hslice, by rw [hnone]; rfl, hnoise, hword⟩
      · have hskip : (⟨r, y, [p] ++ [v]⟩ : Tree).child? .booleanValue = some v :=
          (Tree.child?_of_ne (by rw [hp]; decide)).trans (Tree.child?_of_eq hv)
        rw [Tree.required, hskip] at hx
        obtain rfl : v = x := Except.ok.inj hx
        have hsome : (⟨r, y, [p] ++ [v]⟩ : Tree).child? .logicalPrefixOperator = some p :=
          Tree.child?_of_eq hp
        exact ⟨w, g, _, hslice, by rw [hsome]; exact hw, hnoise, hword⟩
    · simp at hparts
  · simp at hb

/-! ## Lists of children -/

section Children

variable {α : Type} {q : Rule} {P : α → Prop}

/-- Where a right-hand side leaves a tree of a rule in any case, the children of that rule give some
results, which share what each of them gives. -/
theorem forall_of_mapM_childrenNamed {f : Tree → Lowered α} {xs : List α}
    (h : ∀ n ∈ t.nodes, n.GrownAt source.content) (hd : t.rule.production.demands [q])
    (hxs : (t.childrenNamed q).mapM f = .ok xs)
    (hf : ∀ u x, (∀ n ∈ u.nodes, n.GrownAt source.content) → f u = .ok x → P x) :
    xs ≠ [] ∧ ∀ x ∈ xs, P x := by
  have hall := forall₂_of_mapM hxs
  constructor
  · rintro rfl
    have hnil := List.forall₂_nil_right_iff.mp hall
    have hmem := (h t t.self_mem_nodes).grownIn.map_rule_mem
    obtain ⟨r, hr, hrule⟩ := Production.exists_mem_of_demands hd hmem
    obtain ⟨u, hu, hur⟩ := List.mem_map.mp hrule
    have huq : u ∈ t.childrenNamed q :=
      List.mem_filter.mpr ⟨hu, by simpa [hur] using hr⟩
    rw [hnil] at huq
    exact absurd huq List.not_mem_nil
  · intro x hx
    obtain ⟨u, hu, hux⟩ := exists_mem_of_forall₂ hall x hx
    exact hf u x (Tree.forall_nodes_of_child h (Tree.mem_of_childrenNamed hu).1) hux

theorem forall_of_optional {f : Tree → Lowered α} {x : Option α}
    (h : ∀ n ∈ t.nodes, n.GrownAt source.content) (hx : t.optional q f = .ok x)
    (hf : ∀ u x, (∀ n ∈ u.nodes, n.GrownAt source.content) → f u = .ok x → P x) :
    ∀ y ∈ x, P y := by
  rcases Tree.optional_eq_ok hx with ⟨-, rfl⟩ | ⟨u, y, hu, hy, rfl⟩
  · simp
  · intro z hz
    obtain rfl := Option.some.inj hz
    exact hf u y (Tree.forall_nodes_of_child h (Tree.mem_of_child? hu).1) hy

end Children

theorem ArrayItems.writtenIn_of_ofTree {i : ArrayItems}
    (h : ∀ n ∈ t.nodes, n.GrownAt source.content) (hi : ArrayItems.ofTree source t = .ok i) :
    i.WrittenIn source.content := by
  unfold ArrayItems.ofTree at hi
  split at hi
  · rename_i hr
    obtain ⟨bs, hbs, rfl⟩ := map_eq_ok hi
    exact forall_of_mapM_childrenNamed h (by rw [hr]; rfl) hbs
      fun _ _ => Boolean.writtenIn_of_ofTree
  · rename_i hr
    obtain ⟨xs, hxs, rfl⟩ := map_eq_ok hi
    exact forall_of_mapM_childrenNamed h (by rw [hr]; rfl) hxs
      fun _ _ => StringLiteral.writtenIn_of_ofTree
  · rename_i hr
    obtain ⟨ns, hns, rfl⟩ := map_eq_ok hi
    exact forall_of_mapM_childrenNamed h (by rw [hr]; rfl) hns
      fun _ _ => Number.writtenIn_of_ofTree
  · simp at hi

theorem InPlaceArray.writtenIn_of_ofTree {a : InPlaceArray}
    (h : ∀ n ∈ t.nodes, n.GrownAt source.content) (ha : InPlaceArray.ofTree source t = .ok a) :
    a.WrittenIn source.content := by
  obtain ⟨_, -, ha⟩ := bind_eq_ok ha
  obtain ⟨u, hu, ha⟩ := bind_eq_ok ha
  obtain ⟨i, hi, ha⟩ := bind_eq_ok ha
  obtain rfl := Except.ok.inj ha
  obtain ⟨us, hc⟩ := Tree.firstChild_eq_ok hu
  exact ArrayItems.writtenIn_of_ofTree
    (Tree.forall_nodes_of_child h (hc ▸ List.mem_cons_self)) hi

end FreeForm
