import FreeForm.Text.Unprintable

/-!
# Quoted texts

`quoted` writes any text on one line between double quotes.  Six characters have an escape of two
characters, every other character that `isPrintable` excludes is written by its code point, and
the rest stands for itself.  An apostrophe needs no escape between double quotes.
-/

namespace FreeForm

namespace Text

/-- A code point between braces, in lower-case hexadecimal digits and as few as possible. -/
def codePointEscape (c : Char) : Text :=
  ['\\', 'u', '\x7b'] ++ Nat.toDigits 16 c.toNat ++ ['\x7d']

/-- One character as it stands in a quoted text. -/
def escape (c : Char) : Text :=
  match c with
  | '\x00' => ['\\', '0']
  | '\t' => ['\\', 't']
  | '\r' => ['\\', 'r']
  | '\n' => ['\\', 'n']
  | '\\' => ['\\', '\\']
  | '"' => ['\\', '"']
  | _ => if isPrintable c then [c] else codePointEscape c

/-- The text between double quotes, each character escaped where needed. -/
def quoted (s : Text) : Text := '"' :: s.flatMap escape ++ ['"']

example : quoted ['a', '"', '\n', '\''] = ['"', 'a', '\\', '"', '\\', 'n', '\'', '"'] := by
  decide +kernel

end Text

end FreeForm
