import FreeForm.Proofs.Derivation
import FreeForm.Lowering.Literal
import FreeForm.Proofs.PatternForm

/-!
# The texts of leaves

A node whose right-hand side is one lexeme covers exactly this lexeme.  What follows is read off the
patterns: a run of digits is made of digits, a sign is one of two characters, a string stands
between two equal quotes, and a truth value is one of two words.
-/

namespace FreeForm

namespace Pattern

theorem isDigitRun_of_split? {s t r : Text}
    (h : (many1 (.one .digit)).split? s = some (t, r)) : isDigitRun t := by
  rw [many1, split?] at h
  simp only [Option.bind_eq_some_iff, Option.map_eq_some_iff, split?_many_one] at h
  obtain ⟨x, hx, y, hy, hxy⟩ := h
  simp only [Prod.mk.injEq] at hxy
  obtain ⟨rfl, rfl⟩ := hxy
  cases s with
  | nil => simp [split?] at hx
  | cons c s =>
    simp only [split?, Option.ite_none_right_eq_some, Option.some.injEq] at hx hy
    obtain ⟨hc, rfl⟩ := hx
    rw [← hy]
    have hall : (s.takeWhile CharClass.digit.holds).all CharClass.digit.holds := by simp
    simp only [isDigitRun, List.singleton_append, List.isEmpty_cons, Bool.not_false,
      List.all_cons, Bool.true_and, Bool.and_eq_true]
    exact ⟨hc, hall⟩

end Pattern

/-- A lexeme covers the stretch that its pattern cuts off. -/
theorem Cursor.split?_of_token? {s : Text} {c d : Cursor} {p : Pattern} (hc : c.In s)
    (h : c.token? p = some d) : p.split? c.rest = some (Span.text s ⟨c.pos, d.stop⟩, d.rest) := by
  obtain ⟨w, hw, hcd, hs⟩ := passes_of_token? h
  obtain ⟨u, v, rfl, hu⟩ := hc.split
  have hslice := Text.slice?_size_append u w (d.rest ++ v)
  rw [← hu, ← hcd.pos, ← hs] at hslice
  have : u ++ c.rest ++ v = u ++ w ++ (d.rest ++ v) := by simp [hcd.rest]
  rw [hw, Span.text, this, hslice, Option.getD_some]

namespace Tree.GrownIn

variable {s : Text} {t : Tree} {p : Pattern}

theorem split?_of_lexeme (h : t.GrownIn s) (hp : t.rule.production = .lexeme p) :
    ∃ x r, p.split? x = some (t.text s, r) := by
  obtain ⟨c, d, hc, hd, hspan⟩ := h
  rw [hp] at hd
  exact ⟨_, _, by rw [Tree.text, hspan]; exact Cursor.split?_of_token? hc hd.2⟩

theorem isDigitRun_text (h : t.GrownIn s) (hr : t.rule = .digits) : isDigitRun (t.text s) := by
  obtain ⟨x, r, hx⟩ := h.split?_of_lexeme (by rw [hr]; rfl)
  exact Pattern.isDigitRun_of_split? hx

theorem text_sign (h : t.GrownIn s) (hr : t.rule = .sign) :
    t.text s = ['+'] ∨ t.text s = ['-'] := by
  obtain ⟨c, d, hc, hd, hspan⟩ := h
  rw [hr] at hd
  obtain ⟨-, hd⟩ := derives_token_iff.mp hd
  have hx := Cursor.split?_of_token? hc hd
  rw [Tree.text, hspan]
  cases hrest : c.rest with
  | nil => simp [hrest, Pattern.split?] at hx
  | cons a x =>
    simp only [hrest, Pattern.split?, Option.ite_none_right_eq_some, Option.some.injEq,
      Prod.mk.injEq] at hx
    obtain ⟨ha, hx, -⟩ := hx
    rw [← hx]
    simpa [CharClass.holds] using ha

theorem text_string (h : t.GrownIn s) (hr : t.rule = .string) :
    ∃ q b, t.text s = q :: (b ++ [q]) ∧ (q = '"' ∨ q = '\'') ∧ q ∉ b := by
  obtain ⟨x, r, hx⟩ := h.split?_of_lexeme (by rw [hr]; rfl)
  rw [Pattern.split?, Option.or_eq_some_iff] at hx
  rcases hx with hx | ⟨-, hx⟩
  · obtain ⟨b, hb, hq⟩ := Pattern.split?_quotedWith hx
    exact ⟨'"', b, hb, .inl rfl, hq⟩
  · obtain ⟨b, hb, hq⟩ := Pattern.split?_quotedWith hx
    exact ⟨'\'', b, hb, .inr rfl, hq⟩

/-- A truth value spells one of the two words. -/
theorem map_toLower_text (h : t.GrownIn s) (hr : t.rule = .booleanValue) :
    (t.text s).map Char.toLower = ['.', 't', 'r', 'u', 'e', '.'] ∨
      (t.text s).map Char.toLower = ['.', 'f', 'a', 'l', 's', 'e', '.'] := by
  obtain ⟨x, r, hx⟩ := h.split?_of_lexeme (by rw [hr]; rfl)
  rw [Pattern.split?, Option.or_eq_some_iff] at hx
  rcases hx with hx | ⟨-, hx⟩
  · exact .inl (Pattern.map_of_splitWord? hx)
  · exact .inr (Pattern.map_of_splitWord? hx)

end Tree.GrownIn

end FreeForm
