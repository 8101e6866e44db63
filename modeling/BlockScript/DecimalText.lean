import BlockScript.BinaryNumber

/-! # Numbers as decimal text

A double is written with the fewest digits that read back as the same double and, among those, the ones
closest to its exact value; an exact tie goes upward. The point stands where it belongs: there is never
an exponent, no point without digits after it, and no zero at the end of the fraction. What is read is
digits with an optional fraction, rounded to the nearest double.

Every finite double is a whole number of units of 10^-1074, so all comparisons are made on natural
numbers. -/
namespace BlockScript.DecimalText
open BinaryNumber

/-- Places after the point that are enough for every double. -/
def places : Nat := 1074

/-- The number `10^k`. -/
def tenTo (k : Nat) : Nat := Nat.pow 10 k

/-- The number with the pattern `b`, in units of 10^-1074. -/
def exact (b : Nat) : Nat :=
  units b * Nat.pow 5 places

/-- Whether the decimal `n` (in units of 10^-1074) reads back as the pattern `b`: it lies between the
midpoints to the two neighbours, and the midpoints themselves belong to the even pattern. -/
def readsBack (b n : Nat) : Bool :=
  let low := exact (b - 1) + exact b
  let high := exact b + exact (b + 1)
  if b % 2 = 0 then low ≤ 2 * n && 2 * n ≤ high else low < 2 * n && 2 * n < high

/-- Of the two multiples of `10^j` around the number with the pattern `b`, the one that reads back. If both
do, it is the closer one, and the upper one on a tie. No other multiple can read back if neither does. -/
def gridPoint (b j : Nat) : Option Nat :=
  let step := tenTo j
  let n := exact b
  let lower := n / step * step
  let upper := lower + step
  match readsBack b lower, readsBack b upper with
  | true, true => if 2 * n < lower + upper then some lower else some upper
  | true, false => some lower
  | false, true => some upper
  | false, false => none

/-- The decimal on the coarsest of the grids `10^j, …, 10^1, 10^0` that has one reading back as `b`. -/
def shortestFrom (b : Nat) : Nat → Nat
  | 0 => exact b
  | j + 1 => (gridPoint b (j + 1)).getD (shortestFrom b j)

/-- The shortest decimal that reads back as `b`, in units of 10^-1074. As 30103 / 100000 is just above the
logarithm of 2, the steps of all grids coarser than the first are more than five times the number, and none
of their points is near it. -/
def shortest (b : Nat) : Nat :=
  shortestFrom b ((exact b).log2 * 30103 / 100000 + 1)

/-- The digits of `n / 10^k` after the point, for `n < 10^k`, without the zeros at the end. -/
def fractionDigits : Nat → Nat → List Char
  | 0, _ => []
  | k + 1, n => if n = 0 then [] else Nat.digitChar (n / tenTo k) :: fractionDigits k (n % tenTo k)

/-- The decimal `n` (in units of 10^-1074) in positional notation. -/
def positional (n : Nat) : List Char :=
  let whole := Nat.toDigits 10 (n / tenTo places)
  match fractionDigits places (n % tenTo places) with
  | [] => whole
  | fraction => whole ++ '.' :: fraction

/-- The text of a number. -/
def write (x : Float) : List Char :=
  let (negative, b) := ofFloat x
  if infinity < b then "NaN".toList
  else
    let magnitude := if b = infinity then "Infinity".toList else positional (shortest b)
    if negative then '-' :: magnitude else magnitude

/-- The double nearest to a decimal of the form `digits` or `digits.digits`. -/
def read (cs : List Char) : Float :=
  let whole := cs.takeWhile (· != '.')
  let fraction := (cs.dropWhile (· != '.')).drop 1
  toFloat (nearest (Nat.ofDigitChars 10 (whole ++ fraction) 0) (tenTo fraction.length))

end BlockScript.DecimalText
