import FreeForm.Text

/-!
# The shortest decimal of a double

Of the decimals that round to a given double, `Decimal.shortest` takes one on the coarsest grid of
powers of ten that has any, and of two on that grid the nearer; a tie goes to the even multiple.
`Decimal.toText` writes a decimal from 0.00001 on and below 10 ^ 16 in full, with at least one
digit on each side of the point, and any other with an exponent that has a sign.
-/

namespace FreeForm

/-- The number `digits · 10 ^ exponent`. -/
structure Decimal where
  digits : Nat
  exponent : Int
deriving DecidableEq, Repr

namespace Decimal

/-- A positive finite double and its neighbourhood, in quarters of the unit in its last place: the
double is `centre · 2 ^ exponent`, and what lies between `low` and `high` rounds to it. -/
structure Neighbourhood where
  low : Nat
  centre : Nat
  high : Nat
  closed : Bool
  exponent : Int
deriving DecidableEq, Repr

/-- The neighbourhood of the double with the given fields of its binary form.  It reaches less far
down at a power of two, and its ends belong to it if the significand is even. -/
def Neighbourhood.ofFields (biased fraction : Nat) : Neighbourhood :=
  let m := if biased = 0 then fraction else fraction + Nat.pow 2 52
  let low := if fraction = 0 ∧ 1 < biased then 4 * m - 1 else 4 * m - 2
  ⟨low, 4 * m, 4 * m + 2, m % 2 = 0, (max biased 1 : Int) - 1077⟩

/-- The multiples of `10 ^ k` next to the centre, of those in the neighbourhood the nearer, or the
even one if both are as near. -/
def Neighbourhood.onGrid? (n : Neighbourhood) (k : Int) : Option Decimal :=
  -- all of it in one unit, in which the grid and the neighbourhood are whole
  let unit := Nat.pow 2 n.exponent.toNat * Nat.pow 10 (-k).toNat
  let step := Nat.pow 10 k.toNat * Nat.pow 2 (-n.exponent).toNat
  let centre := n.centre * unit
  let inside (d : Nat) : Bool :=
    if n.closed then n.low * unit ≤ d * step ∧ d * step ≤ n.high * unit
    else n.low * unit < d * step ∧ d * step < n.high * unit
  let below := centre / step
  let above := below + 1
  let middle := (below + above) * step
  let low : Bool := 2 * centre < middle ∨ 2 * centre = middle ∧ below % 2 = 0
  if inside below ∧ (¬ inside above ∨ low) then some ⟨below, k⟩
  else if inside above then some ⟨above, k⟩
  else none

/-- The first hit on grids from `10 ^ k` downward, on at most `n` of them. -/
def Neighbourhood.search? (b : Neighbourhood) : Nat → Int → Option Decimal
  | 0, _ => none
  | n + 1, k => (b.onGrid? k).or (search? b n (k - 1))

/-- The shortest decimal that rounds to a finite double, without its sign. -/
def shortest (x : Float) : Decimal :=
  let bits := x.toBits.toNat
  let b := Neighbourhood.ofFields (bits / Nat.pow 2 52 % Nat.pow 2 11) (bits % Nat.pow 2 52)
  if b.centre = 0 then ⟨0, 0⟩ else (b.search? 640 309).getD ⟨0, 0⟩

/-- A decimal without an exponent. -/
def positional (d : Decimal) : Text :=
  let ds := Nat.toDigits 10 d.digits
  let places := (-d.exponent).toNat
  if places = 0 then ds ++ List.replicate d.exponent.toNat '0' ++ ['.', '0']
  else
    let padded := List.replicate (places + 1 - ds.length) '0' ++ ds
    padded.take (padded.length - places) ++ '.' :: padded.drop (padded.length - places)

/-- The exponent that a decimal has when its point is moved behind its first digit. -/
def leadingExponent (d : Decimal) : Int := (Nat.toDigits 10 d.digits).length + d.exponent - 1

/-- A decimal with its point behind the first digit, or none if there is just one, and an exponent
with its sign. -/
def scientific (d : Decimal) : Text :=
  let significand := match Nat.toDigits 10 d.digits with
    | [] => []
    | [c] => [c]
    | c :: cs => c :: '.' :: cs
  let sign := if 0 ≤ d.leadingExponent then '+' else '-'
  significand ++ 'e' :: sign :: Nat.toDigits 10 d.leadingExponent.natAbs

/-- A decimal in full unless it is very large or very small. -/
def toText (d : Decimal) : Text :=
  if -6 < d.leadingExponent ∧ d.leadingExponent < 16 then d.positional else d.scientific

/-- A finite double as the shortest decimal that rounds to it, with its sign. -/
def ofFloat (x : Float) : Text :=
  (if x.toBits.toNat < Nat.pow 2 63 then [] else ['-']) ++ (shortest x).toText

example : ofFloat 1.5 = "1.5".toList ∧ ofFloat (-0.0) = "-0.0".toList
    ∧ ofFloat 1e3 = "1000.0".toList ∧ ofFloat 0.001 = "0.001".toList
    ∧ ofFloat 1.25e-7 = "1.25e-7".toList ∧ ofFloat 1e22 = "1e+22".toList := by decide +kernel

example : ofFloat 1125899906842624.25 = "1125899906842624.2".toList
    ∧ ofFloat 1125899906842624.75 = "1125899906842624.8".toList := by decide +kernel

end Decimal

end FreeForm
