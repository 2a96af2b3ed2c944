import FreeForm.Text

/-!
# White space

`isSpace` is Unicode's property White_Space, which is wider than the blanks of the source form
(blank and tab) and narrower than "looks empty": the zero-width characters do not have it.
-/

namespace FreeForm

namespace Text

/-- The characters with the property White_Space. -/
def isSpace (c : Char) : Bool :=
  let n := c.toNat
  (0x9 ≤ n && n ≤ 0xd) || n = 0x20 || n = 0x85 || n = 0xa0 || n = 0x1680
    || (0x2000 ≤ n && n ≤ 0x200a) || n = 0x2028 || n = 0x2029 || n = 0x202f || n = 0x205f
    || n = 0x3000

/-- Drops the characters that satisfy `p` at the end. -/
def trimEnd (p : Char → Bool) (s : Text) : Text := (s.reverse.dropWhile p).reverse

/-- Drops the characters that satisfy `p` at both ends. -/
def trim (p : Char → Bool) (s : Text) : Text := trimEnd p (s.dropWhile p)

/-- What `trimEnd` drops satisfies `p` throughout, and what it keeps does not end so. -/
theorem trimEnd_append (p : Char → Bool) (s : Text) :
    ∃ t, s = trimEnd p s ++ t ∧ t.all p := by
  refine ⟨(s.reverse.takeWhile p).reverse, ?_, ?_⟩
  · rw [trimEnd, ← List.reverse_append, List.takeWhile_append_dropWhile, List.reverse_reverse]
  · simp

end Text

end FreeForm
