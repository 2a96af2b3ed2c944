import FreeForm.Proofs.Derivation
import Mathlib.Computability.Language

/-!
# The rules of the children of a node

The right-hand side of a rule fixes a regular language over the rules, and the rules of the children
of a node, from left to right, are a word of the language of its own rule.
-/

open scoped Computability

namespace FreeForm

/-- The language of the one word that is just this rule. -/
def Rule.alone (r : Rule) : Language Rule := {l | l = [r]}

@[simp] theorem Rule.mem_alone {r : Rule} {l : List Rule} : l ∈ r.alone ↔ l = [r] := Iff.rfl

/-- The rules of the trees that a phrase can leave. -/
def Phrase.childRules : Phrase → Language Rule
  | token _ => 1
  | .call r => r.alone
  | seq a b => a.childRules * b.childRules
  | alt a b => a.childRules + b.childRules
  | opt a => 1 + a.childRules
  | many a => a.childRules∗

/-- The rules of the children that a right-hand side can leave. -/
def Production.childRules : Production → Language Rule
  | lexeme _ => 1
  | compact a | spaced a => a.childRules

theorem Derives.map_rule_mem {skip : Cursor → Cursor} {a : Phrase} {c d : Cursor}
    {ts : List Tree} (h : Derives skip a c ts d) : ts.map Tree.rule ∈ a.childRules := by
  induction h with
  | token => exact Language.nil_mem_one
  | lexeme | compact | spaced => exact Rule.mem_alone.mpr rfl
  | seq _ _ iha ihb =>
    rw [List.map_append]
    exact Language.append_mem_mul iha ihb
  | left _ ih => exact .inl ih
  | right _ ih => exact .inr ih
  | absent => exact .inl Language.nil_mem_one
  | present _ ih => exact .inr ih
  | never => exact Language.nil_mem_kstar _
  | @once _ a _ _ _ _ ih =>
    exact Language.mem_kstar.mpr ⟨[_], (List.flatten_singleton).symm, by simpa using ih⟩
  | again _ _ ihm iha =>
    obtain ⟨ks, hk, hks⟩ := Language.mem_kstar.mp ihm
    rw [List.map_append, hk]
    refine Language.mem_kstar.mpr ⟨ks ++ [_], List.flatten_concat.symm, fun k hk => ?_⟩
    rcases List.mem_append.mp hk with hk | hk
    · exact hks k hk
    · rw [List.mem_singleton.mp hk]
      exact iha

/-- The children of a node in a text make a word of the language of its rule. -/
theorem Tree.GrownIn.map_rule_mem {s : Text} {t : Tree} (h : t.GrownIn s) :
    t.children.map Tree.rule ∈ t.rule.production.childRules := by
  obtain ⟨c, d, -, hd, -⟩ := h
  cases hp : t.rule.production with
  | lexeme p =>
    rw [hp] at hd
    rw [hd.1]
    exact Language.nil_mem_one
  | compact a =>
    rw [hp] at hd
    exact Derives.map_rule_mem hd
  | spaced a =>
    rw [hp] at hd
    exact Derives.map_rule_mem hd

/-! ## What a language says about its words -/

/-- A phrase leaves trees of the rules that it calls. -/
theorem Phrase.mem_calls_of_mem_childRules {a : Phrase} {l : List Rule} (hl : l ∈ a.childRules) :
    ∀ r ∈ l, r ∈ a.calls := by
  induction a generalizing l with
  | token p =>
    obtain rfl : l = [] := hl
    simp
  | call q =>
    obtain rfl : l = [q] := hl
    simp [calls]
  | seq a b iha ihb =>
    obtain ⟨k, hk, m, hm, rfl⟩ := Language.mem_mul.mp hl
    intro r hr
    rcases List.mem_append.mp hr with hr | hr
    · exact List.mem_append_left _ (iha hk r hr)
    · exact List.mem_append_right _ (ihb hm r hr)
  | alt a b iha ihb =>
    intro r hr
    rcases hl with hl | hl
    · exact List.mem_append_left _ (iha hl r hr)
    · exact List.mem_append_right _ (ihb hl r hr)
  | opt a ih =>
    rcases hl with rfl | hl
    · simp
    · exact ih hl
  | many a ih =>
    obtain ⟨ks, rfl, hks⟩ := Language.mem_kstar.mp hl
    intro r hr
    obtain ⟨k, hk, hr⟩ := List.mem_flatten.mp hr
    exact ih (hks k hk) r hr

/-- The children of a node in a text are of rules that its own rule calls. -/
theorem Tree.GrownIn.rule_mem_calls {s : Text} {t : Tree} (h : t.GrownIn s) :
    ∀ u ∈ t.children, u.rule ∈ t.rule.production.calls := by
  intro u hu
  have hl := h.map_rule_mem
  have hur := List.mem_map_of_mem (f := Tree.rule) hu
  cases hp : t.rule.production with
  | lexeme p =>
    rw [hp] at hl
    have hnil : t.children.map Tree.rule = [] := hl
    rw [hnil] at hur
    exact absurd hur List.not_mem_nil
  | compact a | spaced a =>
    rw [hp] at hl
    exact Phrase.mem_calls_of_mem_childRules hl _ hur

/-- Whether a phrase leaves a tree of one of the rules `rs` in any case. -/
def Phrase.demands (rs : List Rule) : Phrase → Bool
  | token _ => false
  | .call r => rs.contains r
  | seq a b => a.demands rs || b.demands rs
  | alt a b => a.demands rs && b.demands rs
  | opt _ => false
  | many _ => false

/-- Whether a right-hand side leaves a child of one of the rules `rs` in any case. -/
def Production.demands (rs : List Rule) : Production → Bool
  | lexeme _ => false
  | compact a | spaced a => a.demands rs

theorem Phrase.exists_mem_of_demands {rs : List Rule} {a : Phrase} (ha : a.demands rs)
    {l : List Rule} (hl : l ∈ a.childRules) : ∃ r ∈ rs, r ∈ l := by
  induction a generalizing l with
  | token | opt | many => simp [demands] at ha
  | call q =>
    rw [Rule.mem_alone.mp hl]
    exact ⟨q, List.contains_iff_mem.mp ha, List.mem_singleton_self q⟩
  | seq a b iha ihb =>
    obtain ⟨k, hk, m, hm, rfl⟩ := Language.mem_mul.mp hl
    simp only [demands, Bool.or_eq_true] at ha
    rcases ha with ha | ha
    · obtain ⟨r, hr, hrk⟩ := iha ha hk
      exact ⟨r, hr, List.mem_append_left m hrk⟩
    · obtain ⟨r, hr, hrm⟩ := ihb ha hm
      exact ⟨r, hr, List.mem_append_right k hrm⟩
  | alt a b iha ihb =>
    simp only [demands, Bool.and_eq_true] at ha
    rcases hl with hl | hl
    · exact iha ha.1 hl
    · exact ihb ha.2 hl

theorem Production.exists_mem_of_demands {rs : List Rule} {p : Production} (hp : p.demands rs)
    {l : List Rule} (hl : l ∈ p.childRules) : ∃ r ∈ rs, r ∈ l := by
  cases p with
  | lexeme p => simp [demands] at hp
  | compact a | spaced a => exact Phrase.exists_mem_of_demands hp hl

/-- A choice between rules leaves one tree, of one of these rules. -/
theorem Phrase.mem_childRules_anyOf {r : Rule} {rs : List Rule} {l : List Rule} :
    l ∈ (anyOf r rs).childRules ↔ ∃ q ∈ r :: rs, l = [q] := by
  induction rs generalizing r with
  | nil => simp [anyOf, firstOf, childRules]
  | cons q rs ih =>
    have h : (anyOf r (q :: rs)).childRules = r.alone + (anyOf q rs).childRules := rfl
    rw [h, Language.mem_add, ih]
    simp

/-- A chain leaves an operand, and then operators and operands in turn. -/
theorem Phrase.mem_childRules_chain {p q : Rule} {l : List Rule} :
    l ∈ (chain p q).childRules ↔ ∃ n, l = p :: (List.replicate n [q, p]).flatten := by
  simp only [chain, childRules, Language.mem_mul, Rule.mem_alone, Language.mem_kstar]
  constructor
  · rintro ⟨_, rfl, _, ⟨ks, rfl, hk⟩, rfl⟩
    refine ⟨ks.length, ?_⟩
    rw [← List.eq_replicate_of_mem (a := [q, p]) fun k h => ?_]
    · rfl
    · obtain ⟨_, rfl, _, rfl, rfl⟩ := hk k h
      rfl
  · rintro ⟨n, rfl⟩
    refine ⟨[p], rfl, _, ⟨_, rfl, fun k hk => ?_⟩, rfl⟩
    rw [List.eq_of_mem_replicate hk]
    exact ⟨[q], rfl, [p], rfl, rfl⟩

end FreeForm
