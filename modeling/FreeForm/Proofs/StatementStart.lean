import FreeForm.Locate
import FreeForm.Proofs.PatternForm
import Mathlib.Data.List.TakeWhile

/-!
# Where the statement on a line begins

In front of the statement on a line stand blanks and, if there is a label, its digits with blanks
behind them (`Text.Prologue`).  Every line is split so (`LogicalLine.exists_prologue`), and however
it is split, the statement starts behind the first part (`LogicalLine.statementStart_of_prologue`).
-/

namespace FreeForm

namespace Text

theorem not_isDigit_of_blank {c : Char} (hc : CharClass.blank.holds c) : ¬c.isDigit := by
  have h : c = ' ' ∨ c = '\t' := by simpa [CharClass.blank, CharClass.holds] using hc
  rcases h with rfl | rfl <;> decide

/-- What stands in front of the statement `v` of a line: blanks and, if digits with a blank behind
them follow, these digits and the blanks behind them. -/
inductive Prologue : Text → Text → Prop
  | bare {b v : Text} (hb : ∀ c ∈ b, CharClass.blank.holds c)
    (hv : ∀ c ∈ v.head?, ¬CharClass.blank.holds c)
    (hlabel : ∀ d c r, v = d ++ c :: r → d ≠ [] → (∀ x ∈ d, x.isDigit) →
      ¬CharClass.blank.holds c) :
    Prologue b v
  | labelled {b d i v : Text} (hb : ∀ c ∈ b, CharClass.blank.holds c) (hd : d ≠ [])
    (hdigit : ∀ c ∈ d, c.isDigit) (hi : i ≠ []) (hblank : ∀ c ∈ i, CharClass.blank.holds c)
    (hv : ∀ c ∈ v.head?, ¬CharClass.blank.holds c) : Prologue (b ++ (d ++ i)) v

end Text

namespace LogicalLine

open Text

/-- Every line is a prologue and a statement, which may be empty. -/
theorem exists_prologue (l : LogicalLine) : ∃ g v, l.text = g ++ v ∧ Prologue g v := by
  obtain ⟨b, hb⟩ : ∃ b, b = l.text.takeWhile CharClass.blank.holds := ⟨_, rfl⟩
  obtain ⟨k, hk⟩ : ∃ k, k = l.text.dropWhile CharClass.blank.holds := ⟨_, rfl⟩
  obtain ⟨d, hd⟩ : ∃ d, d = k.takeWhile Char.isDigit := ⟨_, rfl⟩
  obtain ⟨m, hm⟩ : ∃ m, m = k.dropWhile Char.isDigit := ⟨_, rfl⟩
  obtain ⟨i, hi⟩ : ∃ i, i = m.takeWhile CharClass.blank.holds := ⟨_, rfl⟩
  obtain ⟨v, hv⟩ : ∃ v, v = m.dropWhile CharClass.blank.holds := ⟨_, rfl⟩
  have htext : l.text = b ++ k := by rw [hb, hk, List.takeWhile_append_dropWhile]
  have hkdm : k = d ++ m := by rw [hd, hm, List.takeWhile_append_dropWhile]
  have hmiv : m = i ++ v := by rw [hi, hv, List.takeWhile_append_dropWhile]
  have hblank : ∀ c ∈ b, CharClass.blank.holds c := fun c hc => List.mem_takeWhile_imp (hb ▸ hc)
  have hdigit : ∀ c ∈ d, c.isDigit := fun c hc => List.mem_takeWhile_imp (hd ▸ hc)
  have hbetween : ∀ c ∈ i, CharClass.blank.holds c := fun c hc =>
    List.mem_takeWhile_imp (hi ▸ hc)
  have hstop : ∀ {p : Char → Bool} {s : Text}, ∀ c ∈ (s.dropWhile p).head?, ¬p c := by
    intro p s c hc
    have h := List.head?_dropWhile_not p s
    rw [Option.mem_def.mp hc] at h
    simpa using h
  by_cases hlabel : d = [] ∨ i = []
  · refine ⟨b, k, htext, .bare hblank (hk ▸ hstop) fun e c r he hne hall hc => ?_⟩
    -- the digits end in front of `c`, so that they are `d` and `c` is the first character of `i`
    obtain ⟨hed, hcr⟩ := takeWhile_eq_and_dropWhile_eq (p := Char.isDigit) (t := c :: r) hall
      (by rintro x ⟨rfl⟩; exact not_isDigit_of_blank hc)
    rw [← he] at hed hcr
    rcases hlabel with h | h
    · exact hne (by rw [← hed, ← hd, h])
    · rw [hi, hm, hcr, List.takeWhile_cons_of_pos hc] at h
      simp at h
  · rw [not_or] at hlabel
    refine ⟨b ++ (d ++ i), v, ?_, .labelled hblank hlabel.1 hdigit hlabel.2 hbetween (hv ▸ hstop)⟩
    rw [htext, hkdm, hmiv]
    simp

/-- The statement on a line starts behind the prologue. -/
theorem statementStart_of_prologue {l : LogicalLine} {g v : Text} (h : l.text = g ++ v)
    (hg : Prologue g v) : l.statementStart = l.span.start + size g := by
  unfold statementStart
  cases hg with
  | bare hb hv hlabel =>
    obtain ⟨htake, hdrop⟩ := takeWhile_eq_and_dropWhile_eq hb hv
    simp only [h, htake, hdrop]
    rw [if_pos, Nat.add_zero]
    by_contra hne
    rw [not_or] at hne
    obtain ⟨c, r, hcr⟩ := List.exists_cons_of_ne_nil fun hnil : v.dropWhile Char.isDigit = [] =>
      hne.2 (by rw [hnil]; rfl)
    refine hlabel (v.takeWhile Char.isDigit) c r ?_ hne.1 (fun x hx => List.mem_takeWhile_imp hx) ?_
    · rw [← hcr, List.takeWhile_append_dropWhile]
    · by_contra hc
      rw [hcr, List.takeWhile_cons_of_neg hc] at hne
      exact hne.2 rfl
  | @labelled b d i v hb hd hdigit hi hblank hv =>
    obtain ⟨x, d', rfl⟩ := List.exists_cons_of_ne_nil hd
    obtain ⟨y, i', rfl⟩ := List.exists_cons_of_ne_nil hi
    have hx : ¬CharClass.blank.holds x := fun hx =>
      not_isDigit_of_blank hx (hdigit x List.mem_cons_self)
    have hy : ¬y.isDigit := not_isDigit_of_blank (hblank y List.mem_cons_self)
    obtain ⟨htake, hdrop⟩ := takeWhile_eq_and_dropWhile_eq (t := x :: d' ++ (y :: i' ++ v)) hb
      (by rintro c ⟨rfl⟩; exact hx)
    obtain ⟨htake', hdrop'⟩ := takeWhile_eq_and_dropWhile_eq (t := y :: i' ++ v) hdigit
      (by rintro c ⟨rfl⟩; exact hy)
    obtain ⟨htake'', -⟩ := takeWhile_eq_and_dropWhile_eq hblank hv
    have happ : l.text = b ++ (x :: d' ++ (y :: i' ++ v)) := by
      rw [h]
      simp
    simp only [happ, htake, hdrop, htake', hdrop', htake'']
    rw [if_neg (by simp)]
    simp only [size_append]
    omega

end LogicalLine

end FreeForm
