import FreeForm.Proofs.SpelledNesting
import FreeForm.Proofs.SpelledStatements

/-!
# Parsing undoes spelling

A parse of a spelled fragment, by the rule of the fragment, gives the fragment again
(`parseConstruct_spell`).  The spelling has a derivation whose tree is lowered to the fragment
(`Fragment.exists_tree`), a run finds what the derivation leaves because the line ends behind it
(`Rule.found_of_derives`), and the check of the parentheses lets a spelling pass that is not too
deep (`Fragment.nestingDepth_spell`).
-/

namespace FreeForm

/-- The spelling of a well-formed fragment leaves a tree that is lowered to the fragment. -/
theorem Fragment.exists_tree (words : Bool) (x : Fragment) (hx : x.isWellFormed) (source : Source)
    (hs : source.content = x.spell words) :
    ∃ t : Tree, t.Spells Cursor.skipGap x.rule (x.spell words) 0 [] ∧
      ∃ y : Fragment, Construct.ofTree source t = .ok y.construct ∧ y.bare = x.bare ∧
        y.span = t.span := by
  have hat : (Cursor.start (x.spell words ++ []) 0).At source.content :=
    ⟨[], by simp [hs, Cursor.start], rfl⟩
  have hu : Text.Stops .wordChar [] := by simp [Text.Stops]
  cases x with
  | expr e =>
    obtain ⟨t, ht, y, hy, hb, hspan⟩ := e.isRead source hx 0 [] hu hat
    exact ⟨t, ht, .expr y, by simp [Construct.ofTree, ht.rule, hy, construct],
      by rw [bare, bare, hb], hspan⟩
  | arithmetic c =>
    obtain ⟨t, ht, y, hy, hb, hspan⟩ := c.exists_tree hx hu hat
    exact ⟨t, ht, .arithmetic y, by simp [Construct.ofTree, ht.rule, hy, construct],
      by rw [bare, bare, hb], hspan⟩
  | relational c =>
    obtain ⟨t, ht, y, hy, hb, hspan⟩ := c.exists_tree words hx hu hat
    exact ⟨t, ht, .relational y, by simp [Construct.ofTree, ht.rule, hy, construct],
      by rw [bare, bare, hb], hspan⟩
  | logical c =>
    obtain ⟨t, ht, y, hy, hb, hspan⟩ := c.exists_tree words hx hu hat
    exact ⟨t, ht, .logical y, by simp [Construct.ofTree, ht.rule, hy, construct],
      by rw [bare, bare, hb], hspan⟩
  | assignment a =>
    obtain ⟨t, ht, y, hy, hb, hspan⟩ := a.exists_tree hx hu hat
    exact ⟨t, ht, .assignment y, by simp [Construct.ofTree, ht.rule, hy, construct],
      by rw [bare, bare, hb], hspan⟩
  | subroutineCall c =>
    obtain ⟨t, ht, y, hy, hb, hspan⟩ := c.exists_tree hx hu hat
    exact ⟨t, ht, .subroutineCall y, by simp [Construct.ofTree, ht.rule, hy, construct],
      by rw [bare, bare, hb], hspan⟩

/-- A rule that derives a whole text finds it. -/
theorem Tree.Spells.found {t : Tree} {r : Rule} {w : Text} (h : t.Spells Cursor.skipGap r w 0 []) :
    ∃ d, (r.read (.start w 0)).found = some ([t], d) := by
  obtain ⟨d, hd, hend⟩ := h.derives 0
  obtain ⟨ts, hts, hprod⟩ := derives_call_iff.mp hd
  have ht := List.head_eq_of_cons_eq hts
  have hrest : d.skipGap.rest = [] := by rw [hend]; rfl
  have hfollow : d.Followed r.follow := .inl (by rw [hrest]; simp [Text.AtLineEnd])
  have hfound := Rule.found_of_derives tellsCalls_hasRegion hprod (ht ▸ h.settled) hfollow
  rw [← ht, List.append_nil] at hfound
  exact ⟨d, hfound⟩

/-- **Parsing undoes spelling.**  The spelling of a well-formed fragment, parsed by the rule of the
fragment, gives the fragment up to spans, and the match covers the whole text.  This is so whatever
the options are, unless parentheses nest more deeply than they allow; then the parse is refused for
this reason. -/
theorem parseConstruct_spell (words : Bool) (x : Fragment) (hx : x.isWellFormed) (o : Options) :
    (x.parenDepth ≤ o.maxNesting →
      ∃ y : Fragment, parseConstruct (x.spell words) x.rule o = .ok y.construct ∧
        y.bare = x.bare ∧ y.span = ⟨0, Text.size (x.spell words)⟩) ∧
    (o.maxNesting < x.parenDepth →
      parseConstruct (x.spell words) x.rule o =
        .error ⟨.nestingTooDeep x.parenDepth o.maxNesting, ⟨o.sourceName, x.spell words⟩,
          ⟨0, Text.size (x.spell words)⟩⟩) := by
  have hdepth := Fragment.nestingDepth_spell words hx
  constructor
  · intro hle
    obtain ⟨t, ht, y, hy, hb, hspan⟩ :=
      Fragment.exists_tree words x hx ⟨o.sourceName, x.spell words⟩ rfl
    obtain ⟨d, hd⟩ := ht.found
    rw [ht.span, Nat.zero_add] at hspan
    have htrail := le_skipTrailing (x.spell words) t.span.stop
    rw [ht.span, Nat.zero_add] at htrail
    have hparse : parse (x.spell words) x.rule o = .ok t :=
      parse_eq_ok_iff.mpr ⟨by omega, d, hd, fun _ => by rw [ht.span, Nat.zero_add]; exact htrail⟩
    refine ⟨y, ?_, hb, hspan⟩
    rw [parseConstruct, parseAs, hparse]
    exact hy
  · intro hlt
    rw [← hdepth] at hlt ⊢
    rw [parseConstruct, parseAs, parse, parseRange, Text.slice?_size]
    simp only [parseFragment, if_pos hlt, Nat.zero_add]
    rfl

/-- A call with a region and a quoted parenthesis, raised to a negative number with a kind. -/
theorem parseConstruct_spell_of_power :
    let a : IndexedArray := ⟨⟨['a'], default⟩, [.region ⟨none, none, default⟩], default⟩
    let e : Expr := .call ⟨['f'], default⟩
      [.access ⟨none, .indexed a, default⟩, .literal (.string ⟨['('], '"', default⟩)] default
    let m : Expr := .literal (.number ⟨some .minus, .integer ⟨['2'], some ['k'], default⟩, default⟩)
    let x : Fragment := .relational ⟨⟨e, [(⟨.power, default⟩, m)], default⟩,
      [(⟨.lessEqual, default⟩, ⟨m, [], default⟩)], default⟩
    let s : Text := ['f', '(', 'a', '(', ':', ')', ',', ' ', '"', '(', '"', ')', ' ', '*', '*', ' ',
      '-', '2', '_', 'k', ' ', '<', '=', ' ', '-', '2', '_', 'k']
    x.isWellFormed ∧ x.spell false = s ∧ x.parenDepth = 2 ∧
      (∃ y : Fragment, parseConstruct s .relationalStatement { maxNesting := 2 } = .ok y.construct ∧
        y.bare = x.bare ∧ y.span = ⟨0, 28⟩) ∧
      parseConstruct s .relationalStatement { maxNesting := 1 } =
        .error ⟨.nestingTooDeep 2 1, ⟨({} : Options).sourceName, s⟩, ⟨0, 28⟩⟩ := by
  intro a e m x s
  have hx : x.isWellFormed := by rfl
  have hs : x.spell false = s := by rfl
  have hk : x.parenDepth = 2 := by rfl
  have hsize : Text.size s = 28 := by rfl
  have hok := (parseConstruct_spell false x hx { maxNesting := 2 }).1 (Nat.le_of_eq hk)
  have herror := (parseConstruct_spell false x hx { maxNesting := 1 }).2 (by rw [hk]; decide)
  rw [hs, hsize] at hok herror
  rw [hk] at herror
  exact ⟨hx, hs, hk, hok, herror⟩

end FreeForm
