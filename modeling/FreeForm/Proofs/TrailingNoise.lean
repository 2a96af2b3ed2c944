import FreeForm.Proofs.OtherRest
import Mathlib.Data.List.TakeWhile

/-!
# What may follow a statement

Noise and line breaks may follow a statement (`Pattern.trailing`).  Where they are skipped in a text
that goes on behind the line of the statement, they may reach the end of the line in two ways: the
rest of the line is noise and line breaks by itself, or it ends inside a continuation that is
completed behind the line (`Pattern.isTrailing_or_runsOver`).
-/

namespace FreeForm

namespace Text

/-- The text consists of blanks, comments, continuations and line breaks. -/
def IsTrailing (w : Text) : Prop := Pattern.trailing.split? w = some (w, [])

/-- Behind such a beginning, which may be empty, the text breaks off inside a continuation that is
completed in the text `v`. -/
def RunsOver (w v : Text) : Prop :=
  ∃ x y z r, w = x ++ y ∧ Pattern.trailing.split? w = some (x, y) ∧ y ≠ [] ∧ z ≠ [] ∧ v = z ++ r ∧
    Pattern.continuation.split? (y ++ v) = some (y ++ z, r)

end Text

namespace Pattern

variable {s t r r' u v w g : Text}

/-- One blank, continuation, comment or line break. -/
abbrev trailingItem : Pattern := .alt noiseItem (.one .lineBreak)

theorem split?_trailingItem_append (h : trailingItem.split? s = some (t, r))
    (hr : r'.Replaces true r) : trailingItem.split? (t ++ r') = some (t, r') := by
  rcases split?_alt_eq_some.mp h with h | ⟨-, h⟩
  · exact split?_alt_eq_some.mpr (.inl (split?_noiseItem_append h hr))
  · have hbreak : (one .lineBreak).split? (t ++ r') = some (t, r') :=
      split?_append_of_peeks rfl h (hr.mono fun _ => rfl)
    have hapart : (one .lineBreak).Apart noiseItem := apart_oneOf (by decide)
    exact split?_alt_eq_some.mpr (.inr ⟨hapart _ (Option.isSome_of_eq_some hbreak), hbreak⟩)

theorem isTrailing_of_comment (h : comment.split? (w ++ v) = some (w ++ u, r)) (hw : w ≠ []) :
    w.IsTrailing := by
  obtain ⟨m, r', b, hm, hb, hwb⟩ := split?_seq_eq_some.mp h
  obtain rfl : m = ['!'] := eq_of_split?_lit hm
  obtain ⟨c, w, rfl⟩ := List.exists_cons_of_ne_nil hw
  obtain ⟨rfl, rfl⟩ := List.cons.inj hwb
  have hall : ∀ c ∈ w, (CharClass.noneOf ['\n', '\r']).holds c := fun c hc =>
    holds_of_run hb c (List.mem_append_left u hc)
  have hrun : (run (.noneOf ['\n', '\r'])).split? w = some (w, []) :=
    split?_run_eq_some.mpr ⟨(List.append_nil w).symm, hall, by simp⟩
  have hcomment : comment.split? ('!' :: w) = some ('!' :: w, []) :=
    split?_seq_eq_some.mpr ⟨['!'], w, w, rfl, hrun, rfl⟩
  have hitem : trailingItem.split? ('!' :: w) = some ('!' :: w, []) :=
    split?_alt_eq_some.mpr (.inl (split?_alt_eq_some.mpr
      (.inr ⟨split?_eq_none_of_rejects (by decide) w, hcomment⟩)))
  have hmany := split?_many_of_some (by decide) hitem (u := []) (v := []) rfl
  rwa [List.append_nil] at hmany

/-- A text that ends inside an item of noise or a line break is itself trailing, unless the item is
a continuation. -/
theorem isTrailing_of_cut (h : trailingItem.split? (w ++ v) = some (w ++ u, r)) (hw : w ≠ [])
    (hu : u ≠ []) : w.IsTrailing ∨ continuation.split? (w ++ v) = some (w ++ u, r) := by
  have hone : ∀ k : CharClass, (one k).split? (w ++ v) ≠ some (w ++ u, r) := by
    intro k hk
    obtain ⟨c, w, rfl⟩ := List.exists_cons_of_ne_nil hw
    simp only [split?, List.cons_append, Option.ite_none_right_eq_some, Option.some.injEq,
      Prod.mk.injEq, List.cons.injEq, true_and] at hk
    exact hu (List.append_eq_nil_iff.mp hk.2.1.symm).2
  rcases split?_alt_eq_some.mp h with h | ⟨-, h⟩
  · rcases split?_alt_eq_some.mp h with h | ⟨-, h⟩
    · rcases split?_alt_eq_some.mp h with h | ⟨-, h⟩
      · exact absurd h (hone _)
      · exact .inr h
    · exact .inl (isTrailing_of_comment h hw)
  · exact absurd h (hone _)

/-- Inside a continuation nothing is passed in a text that breaks off there. -/
theorem split?_trailing_of_cut (h : continuation.split? (w ++ v) = some (w ++ u, r)) (hw : w ≠ [])
    (hu : u ≠ []) : trailing.split? w = some ([], w) := by
  have hnone : continuation.split? w = none := by
    cases hc : continuation.split? w with
    | none => rfl
    | some x =>
      obtain ⟨k, q⟩ := x
      have hw' := split?_eq_append hc
      have happ := split?_continuation_append hc (q ++ v)
      rw [← List.append_assoc, ← hw', h, Option.some.injEq, Prod.mk.injEq] at happ
      have hnil : q ++ u = [] := by
        have hk := happ.1
        rw [hw', List.append_assoc] at hk
        exact List.append_right_eq_self.mp hk
      exact absurd (List.append_eq_nil_iff.mp hnil).2 hu
  obtain ⟨c, w, rfl⟩ := List.exists_cons_of_ne_nil hw
  obtain ⟨_, _, _, _, _, hmark, -⟩ := split?_continuation_eq_some.mp h
  obtain rfl : c = '&' := (List.cons.inj hmark).1
  have hblank : (one .blank).split? ('&' :: w) = none := split?_eq_none_of_rejects (by decide) w
  have hcomment : comment.split? ('&' :: w) = none := split?_eq_none_of_rejects (by decide) w
  have hbreak : (one .lineBreak).split? ('&' :: w) = none :=
    split?_eq_none_of_rejects (by decide) w
  have hwhite : whitespace.split? ('&' :: w) = none := Option.or_eq_none_iff.mpr ⟨hblank, hnone⟩
  have hnoise : noiseItem.split? ('&' :: w) = none := Option.or_eq_none_iff.mpr ⟨hwhite, hcomment⟩
  exact split?_many_of_none (Option.or_eq_none_iff.mpr ⟨hnoise, hbreak⟩)

/-- Where noise and line breaks are passed up to the end of `w` or further on, `w` is trailing, or
it ends inside a continuation. -/
theorem isTrailing_or_runsOver (h : trailing.split? (w ++ v) = some (w ++ g, r)) :
    w.IsTrailing ∨ w.RunsOver v := by
  refine many_induction (P := fun s t _ => ∀ w v g, s = w ++ v → t = w ++ g →
    w.IsTrailing ∨ w.RunsOver v) (a := trailingItem) (by decide) ?_ ?_ h w v g rfl rfl
  · intro s _ w v g _ ht
    rw [(List.append_eq_nil_iff.mp ht.symm).1]
    exact .inl rfl
  intro s t r u z ht hu ih w v g hs hg
  have hsplit := split?_eq_append ht
  have hcut : (∃ w', w = t ++ w' ∧ u = w' ++ g) ∨ ∃ t', t' ≠ [] ∧ t = w ++ t' := by
    rcases List.append_eq_append_iff.mp hg with hw | ⟨t', ht', hg'⟩
    · exact .inl hw
    · by_cases hnil : t' = []
      · exact .inl ⟨[], by simp [ht', hnil], by simp [hg', hnil]⟩
      · exact .inr ⟨t', hnil, ht'⟩
  rcases hcut with ⟨w', rfl, rfl⟩ | ⟨t', ht', rfl⟩
  · -- the item ends in front of the end of `w`
    have hr : r = w' ++ v := by
      rw [hs, List.append_assoc] at hsplit
      exact (List.append_cancel_left hsplit).symm
    have hitem : trailingItem.split? (t ++ w') = some (t, w') := by
      refine split?_trailingItem_append ht ?_
      rw [hr]
      cases w' with
      | nil => exact .inr ⟨rfl, by simp [Text.AtLineEnd]⟩
      | cons c w' => exact .inl rfl
    rcases ih w' v g hr rfl with htrail | ⟨x, y, k, q, rfl, hx, hy, hk, rfl, hcont⟩
    · exact .inl (split?_many_of_some (by decide) hitem htrail)
    · refine .inr ⟨t ++ x, y, k, q, (List.append_assoc ..).symm, ?_, hy, hk, rfl, hcont⟩
      exact split?_many_of_some (by decide) hitem hx
  · -- the item goes on behind the end of `w`
    by_cases hw : w = []
    · rw [hw]
      exact .inl rfl
    rw [hs] at ht hsplit
    rcases isTrailing_of_cut ht hw ht' with htrail | hcont
    · exact .inl htrail
    · rw [List.append_assoc, List.append_cancel_left_eq] at hsplit
      exact .inr ⟨[], w, t', r, rfl, split?_trailing_of_cut hcont hw ht', hw, ht', hsplit, hcont⟩

end Pattern

end FreeForm
