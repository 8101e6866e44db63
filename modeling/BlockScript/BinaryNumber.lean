/-! # Doubles as natural numbers

A non-negative double is named by its bit pattern `b`, and stands for `units b` times 2^-1074. The
patterns are ordered like the numbers they stand for, so the neighbours of `b` are `b - 1` and `b + 1`,
and `floor n` is the last pattern whose number does not pass `n`. -/
namespace BlockScript.BinaryNumber

/-- The first pattern beyond the finite numbers. -/
def infinity : Nat := 2047 <<< 52

def signBit : Nat := 1 <<< 63

/-- The number that a pattern stands for, in units of 2^-1074. A pattern is a significand of 52 bits below
an exponent; below the first exponent numbers are spaced one unit apart, and each further exponent doubles
the step. -/
def units (b : Nat) : Nat :=
  let shift := b >>> 52 - 1
  (b - shift <<< 52) <<< shift

/-- The greatest pattern whose number of units is at most `n`. -/
def floor (n : Nat) : Nat :=
  let shift := n.log2 - 52
  shift <<< 52 + n >>> shift

/-- The pattern nearest to `num / den`: a half goes to the even pattern, and what is at least half a
step beyond the greatest finite number is infinite. -/
def nearest (num den : Nat) : Nat :=
  let scaled := num <<< 1074
  let below := floor (scaled / den)
  let twice := 2 * scaled
  let half := (units below + units (below + 1)) * den
  let chosen := if twice < half ∨ (twice = half ∧ below % 2 = 0) then below else below + 1
  min chosen infinity

/-- The double with the pattern `b`. -/
def toFloat (b : Nat) : Float :=
  Float.ofBits (UInt64.ofNat b)

/-- Whether the sign bit of `x` is set, and the pattern of its magnitude. -/
def ofFloat (x : Float) : Bool × Nat :=
  let b := x.toBits.toNat
  (signBit ≤ b, b % signBit)

end BlockScript.BinaryNumber
