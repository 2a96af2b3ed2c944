import FreeForm.Proofs.LineEnds
import FreeForm.Tree.Outline
import Mathlib.Data.List.Forall2
import Mathlib.Data.List.Nodup

/-!
# What an outline tells

An outline has one line for each node, whatever the texts of the nodes are, and it determines them:
trees with equal outlines agree in the depths, rules and texts of their nodes (`outline_tells`).

No character of a quoted text is written as a line feed, and no beginning of what is written for one
character is written for another (`Escaped.append_inj`), so that a quoted text can be read back
(`quoted_injective`).
-/

namespace FreeForm

namespace Text

variable {a c d x : Char} {r s t u v w : Text}

/-- What stands in front of the first `a` is determined, and so is what stands behind it. -/
theorem append_cons_inj (hs : a ∉ s) (ht : a ∉ t) (h : s ++ a :: r = t ++ a :: u) :
    s = t ∧ r = u := by
  have hcut : ∀ {y z : Text}, a ∉ y → (y ++ a :: z).takeWhile (· ≠ a) = y ∧
      (y ++ a :: z).dropWhile (· ≠ a) = a :: z := fun hy =>
    takeWhile_eq_and_dropWhile_eq (fun c hc => by simpa using fun e : c = a => hy (e ▸ hc))
      (by rintro c ⟨rfl⟩; simp)
  obtain ⟨hs, hr⟩ := hcut hs (z := r)
  obtain ⟨ht, hu⟩ := hcut ht (z := u)
  rw [h] at hs hr
  exact ⟨hs.symm.trans ht, List.tail_eq_of_cons_eq (hr.symm.trans hu)⟩

/-! ## Code points -/

theorem digitChar_inj : ∀ i < 16, ∀ j < 16, Nat.digitChar i = Nat.digitChar j → i = j := by
  decide

/-- Hexadecimal digits determine the number. -/
theorem toDigits_injective : Function.Injective (Nat.toDigits 16) := by
  intro n
  induction n using Nat.strongRecOn with
  | ind n ih =>
    intro m h
    rw [Nat.toDigits_eq_if (by decide), Nat.toDigits_eq_if (n := m) (by decide)] at h
    split at h <;> split at h
    · exact digitChar_inj n ‹_› m ‹_› (List.singleton_inj.mp h)
    · have hlength := congrArg List.length h
      have hpos := Nat.length_toDigits_pos (b := 16) (n := m / 16)
      simp only [List.length_append, List.length_singleton] at hlength
      omega
    · have hlength := congrArg List.length h
      have hpos := Nat.length_toDigits_pos (b := 16) (n := n / 16)
      simp only [List.length_append, List.length_singleton] at hlength
      omega
    · obtain ⟨hdiv, hmod⟩ := List.append_inj' h rfl
      have hdiv := ih (n / 16) (by omega) hdiv
      have hmod := digitChar_inj _ (Nat.mod_lt _ (by decide)) _ (Nat.mod_lt _ (by decide))
        (List.singleton_inj.mp hmod)
      omega

/-- The characters of hexadecimal numbers. -/
def hexDigits : Text :=
  ['0', '1', '2', '3', '4', '5', '6', '7', '8', '9', 'a', 'b', 'c', 'd', 'e', 'f']

theorem mem_hexDigits (n : Nat) : ∀ c ∈ Nat.toDigits 16 n, c ∈ hexDigits := by
  have hdigit : ∀ i < 16, Nat.digitChar i ∈ hexDigits := by decide
  induction n using Nat.strongRecOn with
  | ind n ih =>
    intro c hc
    rw [Nat.toDigits_eq_if (by decide)] at hc
    split at hc
    · rw [List.mem_singleton.mp hc]
      exact hdigit n ‹_›
    · rcases List.mem_append.mp hc with hc | hc
      · exact ih (n / 16) (by omega) c hc
      · rw [List.mem_singleton.mp hc]
        exact hdigit _ (Nat.mod_lt _ (by decide))

/-! ## Escapes -/

/-- The characters that have an escape of two characters, each with the second of these. -/
def shortEscapes : List (Char × Char) :=
  [('\x00', '0'), ('\t', 't'), ('\r', 'r'), ('\n', 'n'), ('\\', '\\'), ('"', '"')]

/-- The ways in which a character stands in a quoted text. -/
inductive Escaped : Char → Text → Prop
  | plain {c : Char} (hc : c ∉ shortEscapes.map Prod.fst) : Escaped c [c]
  | short {p : Char × Char} (hp : p ∈ shortEscapes) : Escaped p.1 ['\\', p.2]
  | codePoint (c : Char) : Escaped c (codePointEscape c)

theorem escaped_escape (c : Char) : Escaped c (escape c) := by
  have hshort : ∀ p ∈ shortEscapes, escape p.1 = ['\\', p.2] := by decide
  by_cases hc : c ∈ shortEscapes.map Prod.fst
  · obtain ⟨p, hp, rfl⟩ := List.mem_map.mp hc
    rw [hshort p hp]
    exact .short hp
  · have hne := hc
    simp only [shortEscapes, List.map_cons, List.map_nil, List.mem_cons, List.not_mem_nil, or_false,
      not_or] at hne
    obtain ⟨h0, ht, hr, hn, hb, hq⟩ := hne
    unfold escape
    split <;> try contradiction
    split
    · exact .plain hc
    · exact .codePoint c

theorem ne_backslash_of_plain (hc : c ∉ shortEscapes.map Prod.fst) : c ≠ '\\' := by
  rintro rfl
  exact hc (by decide)

/-- What is written for a character ends where it says, and tells the character. -/
theorem Escaped.append_inj (hc : Escaped c v) (hd : Escaped d w) (h : v ++ s = w ++ t) :
    c = d ∧ s = t := by
  have hcode : ∀ p ∈ shortEscapes, p.2 ≠ 'u' := by decide
  have hshort : ∀ p ∈ shortEscapes, ∀ q ∈ shortEscapes, p.2 = q.2 → p.1 = q.1 := by decide
  have hbrace : ∀ e : Char, '\x7d' ∉ Nat.toDigits 16 e.toNat := fun e hmem =>
    absurd (mem_hexDigits _ _ hmem) (by decide)
  cases hc with
  | plain hc =>
    cases hd with
    | plain hd =>
      obtain ⟨rfl, rfl⟩ := List.cons.inj h
      exact ⟨rfl, rfl⟩
    | short | codePoint => exact absurd (List.cons.inj h).1 (ne_backslash_of_plain hc)
  | short hp =>
    cases hd with
    | plain hd => exact absurd (List.cons.inj h).1.symm (ne_backslash_of_plain hd)
    | short hq =>
      obtain ⟨hsame, hrest⟩ := List.cons.inj (List.cons.inj h).2
      exact ⟨hshort _ hp _ hq hsame, hrest⟩
    | codePoint => exact absurd (List.cons.inj (List.cons.inj h).2).1 (hcode _ hp)
  | codePoint c =>
    cases hd with
    | plain hd => exact absurd (List.cons.inj h).1.symm (ne_backslash_of_plain hd)
    | short hq => exact absurd (List.cons.inj (List.cons.inj h).2).1.symm (hcode _ hq)
    | codePoint d =>
      have hdigits : Nat.toDigits 16 c.toNat ++ '\x7d' :: s =
          Nat.toDigits 16 d.toNat ++ '\x7d' :: t := by simpa [codePointEscape] using h
      obtain ⟨hsame, hrest⟩ := append_cons_inj (hbrace c) (hbrace d) hdigits
      exact ⟨Char.toNat_inj.mp (toDigits_injective hsame), hrest⟩

theorem Escaped.ne_nil (hc : Escaped c v) : v ≠ [] := by
  cases hc <;> simp [codePointEscape]

theorem Escaped.notMem_lineFeed (hc : Escaped c v) : '\n' ∉ v := by
  cases hc with
  | plain hc =>
    rw [List.mem_singleton]
    rintro rfl
    exact hc (by decide)
  | short hp =>
    have h : ∀ p ∈ shortEscapes, '\n' ∉ ['\\', p.2] := by decide
    exact h _ hp
  | codePoint c =>
    intro hmem
    simp only [codePointEscape, List.mem_append] at hmem
    rcases hmem with (hmem | hmem) | hmem
    · exact absurd hmem (by decide)
    · exact absurd (mem_hexDigits _ _ hmem) (by decide)
    · exact absurd hmem (by decide)

/-- A quoted text is the writing of one text only. -/
theorem quoted_injective : Function.Injective quoted := by
  have hwritten : ∀ {s t : Text}, s.flatMap escape = t.flatMap escape → s = t := by
    intro s
    induction s with
    | nil =>
      intro t h
      cases t with
      | nil => rfl
      | cons d t =>
        rw [List.flatMap_cons] at h
        exact absurd (List.append_eq_nil_iff.mp h.symm).1 (escaped_escape d).ne_nil
    | cons c s ih =>
      intro t h
      cases t with
      | nil =>
        rw [List.flatMap_cons] at h
        exact absurd (List.append_eq_nil_iff.mp h).1 (escaped_escape c).ne_nil
      | cons d t =>
        rw [List.flatMap_cons, List.flatMap_cons] at h
        obtain ⟨rfl, hrest⟩ := (escaped_escape c).append_inj (escaped_escape d) h
        rw [ih hrest]
  intro s t h
  exact hwritten (List.append_cancel_right (List.cons.inj h).2)

/-- A quoted text is on one line. -/
theorem notMem_lineFeed_quoted (s : Text) : '\n' ∉ s.quoted := by
  intro hmem
  simp only [quoted, List.mem_append, List.mem_cons, List.mem_flatMap, List.not_mem_nil,
    or_false] at hmem
  rcases hmem with (hmem | ⟨c, -, hmem⟩) | hmem
  · exact absurd hmem (by decide)
  · exact (escaped_escape c).notMem_lineFeed hmem
  · exact absurd hmem (by decide)

/-- Complete lines are the lines of their text. -/
theorem physicalLines_flatten {ls : List Text} (h : ∀ l ∈ ls, ∃ t, '\n' ∉ t ∧ l = t ++ ['\n']) :
    physicalLines ls.flatten = ls := by
  induction ls with
  | nil => rfl
  | cons l ls ih =>
    obtain ⟨t, ht, rfl⟩ := h l List.mem_cons_self
    rw [List.flatten_cons, List.append_assoc, List.singleton_append, physicalLines_line ht,
      ih fun l hl => h l (List.mem_cons_of_mem _ hl)]

end Text

/-! ## Names of rules -/

namespace Rule

theorem nodup_names : (all.map fun r => r.toString.toList).Nodup := by decide +kernel

theorem toString_injective : Function.Injective Rule.toString := fun r q h =>
  List.inj_on_of_nodup_map nodup_names (mem_all r) (mem_all q) (congrArg String.toList h)

/-- A name is a word on one line. -/
theorem toString_word (r : Rule) : r.toString.toList ≠ [] ∧ ' ' ∉ r.toString.toList ∧
    '\n' ∉ r.toString.toList := by
  cases r <;> decide +kernel

end Rule

/-! ## Outlines -/

namespace Tree

open Text

/-- The line that an outline has for a node, from the depth, the rule and the text of the node. -/
def lineOf (x : Nat × Rule × Text) : Text :=
  List.replicate (2 * x.1) ' ' ++ (x.2.1.toString.toList ++ ' ' :: (x.2.2.quoted ++ ['\n']))

/-- The depths, rules and texts of the nodes, in pre-order. -/
def shown (s : Text) (t : Tree) : List (Nat × Rule × Text) :=
  t.preorder.map fun x => (x.1, x.2.rule, x.2.text s)

theorem outline_eq (s : Text) (t : Tree) : t.outline s = ((t.shown s).map lineOf).flatten := by
  rw [outline_eq_flatMap, List.flatMap_def, shown, List.map_map]
  congr 2
  funext x
  simp [outlineLine, lineOf]

/-- The blanks in front of a line are its indentation. -/
theorem indentation_lineOf (d : Nat) (r : Rule) (w : Text) :
    (lineOf (d, r, w)).takeWhile (· = ' ') = List.replicate (2 * d) ' ' ∧
      (lineOf (d, r, w)).dropWhile (· = ' ') =
        r.toString.toList ++ ' ' :: (w.quoted ++ ['\n']) := by
  obtain ⟨hne, hblank, -⟩ := r.toString_word
  refine takeWhile_eq_and_dropWhile_eq (fun c hc => by simpa using List.eq_of_mem_replicate hc) ?_
  intro c hc
  rw [List.head?_append_of_ne_nil _ hne] at hc
  have hmem := List.mem_of_mem_head? hc
  simpa using fun h : c = ' ' => hblank (h ▸ hmem)

/-- The line of a node tells its depth, its rule and its text. -/
theorem lineOf_injective : Function.Injective lineOf := by
  rintro ⟨d, r, w⟩ ⟨e, q, v⟩ h
  obtain ⟨htake, hdrop⟩ := indentation_lineOf d r w
  obtain ⟨htake', hdrop'⟩ := indentation_lineOf e q v
  rw [h] at htake hdrop
  have hdepth := congrArg List.length (htake.symm.trans htake')
  simp only [List.length_replicate] at hdepth
  obtain rfl : d = e := by omega
  obtain ⟨hname, hrest⟩ := append_cons_inj r.toString_word.2.1 q.toString_word.2.1
    (hdrop.symm.trans hdrop')
  obtain rfl := Rule.toString_injective (String.toList_inj.mp hname)
  obtain rfl := quoted_injective (List.append_cancel_right hrest)
  rfl

theorem lineOf_isLine (x : Nat × Rule × Text) : ∃ w, '\n' ∉ w ∧ lineOf x = w ++ ['\n'] := by
  refine ⟨List.replicate (2 * x.1) ' ' ++ (x.2.1.toString.toList ++ ' ' :: x.2.2.quoted), ?_,
    by simp [lineOf]⟩
  simp only [List.mem_append, List.mem_cons, not_or]
  exact ⟨fun hmem => absurd (List.eq_of_mem_replicate hmem) (by decide),
    x.2.1.toString_word.2.2, by decide, notMem_lineFeed_quoted _⟩

theorem physicalLines_outline (s : Text) (t : Tree) :
    (t.outline s).physicalLines = (t.shown s).map lineOf := by
  rw [outline_eq]
  refine physicalLines_flatten fun l hl => ?_
  obtain ⟨x, -, rfl⟩ := List.mem_map.mp hl
  exact lineOf_isLine x

end Tree

/-- **An outline has one line for each node, in pre-order**, indented by two blanks for each level,
**and it determines the depths, rules and texts of the nodes.** -/
theorem outline_tells (s : Text) (t : Tree) :
    List.Forall₂ (fun x w => w.takeWhile (· = ' ') = List.replicate (2 * x.1) ' ' ∧
        w.dropWhile (· = ' ') =
          x.2.rule.toString.toList ++ ' ' :: ((x.2.text s).quoted ++ ['\n']))
      t.preorder (t.outline s).physicalLines ∧
    ∀ (s' : Text) (t' : Tree), t.outline s = t'.outline s' ↔
      (t.preorder.map fun x => (x.1, x.2.rule, x.2.text s)) =
        t'.preorder.map fun x => (x.1, x.2.rule, x.2.text s') := by
  refine ⟨?_, fun s' t' => ⟨fun h => ?_, fun h => ?_⟩⟩
  · rw [Tree.physicalLines_outline, Tree.shown, List.forall₂_map_right_iff,
      List.forall₂_map_right_iff, List.forall₂_same]
    exact fun x _ => Tree.indentation_lineOf x.1 x.2.rule (x.2.text s)
  · have hlines := congrArg Text.physicalLines h
    rw [Tree.physicalLines_outline, Tree.physicalLines_outline] at hlines
    exact List.map_injective_iff.mpr Tree.lineOf_injective hlines
  · rw [Tree.outline_eq, Tree.outline_eq]
    exact congrArg (fun x => (List.map Tree.lineOf x).flatten) h

end FreeForm
