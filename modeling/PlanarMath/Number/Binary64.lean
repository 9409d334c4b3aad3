/-!
# Binary floating point in 64 bits

The values of the 64-bit binary format, kept as sign, significand and exponent, so that reading and
printing them is exact arithmetic on natural numbers.

    finite s m q  stands for  ±m · 2^q      with  m < 2^53  and  -1074 ≤ q ≤ 971

`ofRatio` rounds a quotient of natural numbers to the nearest value, a tie to the even significand.
The significand has 53 bits unless the exponent is the least one, so equal numbers are equal values.
-/

namespace PlanarMath

/-- A value of the 64-bit binary floating-point format. -/
inductive Binary64 where
  | nan
  | infinite (negative : Bool)
  | finite (negative : Bool) (significand : Nat) (exponent : Int)
  deriving DecidableEq, Repr

namespace Binary64

/-- The least exponent of a significand counted in units. -/
def leastExponent : Int := -1074

/-- The greatest exponent of a significand counted in units. -/
def greatestExponent : Int := 971

/-- Zero, with a sign. -/
def zero (negative : Bool) : Binary64 := .finite negative 0 leastExponent

/-- The two factors by which a numerator and a denominator grow when a quotient is divided by `2^q`. -/
def scale (q : Int) : Nat × Nat := (Nat.pow 2 (-q).toNat, Nat.pow 2 q.toNat)

/-- The exponent at which the quotient `n / d` has a significand of 53 bits, or the least one. -/
def exponentFor (n d : Nat) : Int :=
  let q := max ((n.log2 : Int) - d.log2 - 53) leastExponent
  let (up, down) := scale q
  if n * up < Nat.pow 2 53 * (d * down) then q else q + 1

/-- The quotient rounded to the nearest natural number, a tie to the even one. -/
def roundDiv (n d : Nat) : Nat :=
  let whole := n / d
  let twice := 2 * (n % d)
  if twice < d ∨ (twice = d ∧ whole % 2 = 0) then whole else whole + 1

/-- The value of a significand of at most `2^53` at an exponent; beyond the format it is infinite. -/
def ofScaled (negative : Bool) (m : Nat) (q : Int) : Binary64 :=
  let (m, q) := if m = Nat.pow 2 53 then (Nat.pow 2 52, q + 1) else (m, q)
  if q ≤ greatestExponent then .finite negative m q else .infinite negative

/-- The value nearest to `n / d`, for a positive `d`. -/
def ofRatio (negative : Bool) (n d : Nat) : Binary64 :=
  if n = 0 then zero negative
  else
    let q := exponentFor n d
    let (up, down) := scale q
    ofScaled negative (roundDiv (n * up) (d * down)) q

/-- The value nearest to `m · 10^k`.  A power of ten far outside the format is not computed: from
`10^310` on all is infinite, and below `2^(-1199)` all is zero. -/
def ofDecimal (negative : Bool) (m : Nat) (k : Int) : Binary64 :=
  if m = 0 then zero negative
  else if 310 ≤ k then .infinite negative
  else if k < 0 ∧ (m.log2 : Int) + 3 * k < -1200 then zero negative
  else if 0 ≤ k then ofRatio negative (m * Nat.pow 10 k.toNat) 1
  else ofRatio negative m (Nat.pow 10 (-k).toNat)

/-- The value with the opposite sign. -/
def neg : Binary64 → Binary64
  | .nan => .nan
  | .infinite s => .infinite !s
  | .finite s m q => .finite (!s) m q

/-- Less than zero; a zero of either sign is not. -/
def isNegative : Binary64 → Bool
  | .nan => false
  | .infinite s => s
  | .finite s m _ => s && m != 0

/-- At least zero; a zero of either sign is, what is not a number is not. -/
def isNonnegative : Binary64 → Bool
  | .nan => false
  | .infinite s => !s
  | .finite s m _ => !s || m == 0

/-- The integer that the value is, when it is finite and has no fraction. -/
def toInt? : Binary64 → Option Int
  | .nan | .infinite _ => none
  | .finite s m q =>
    let (up, down) := (Nat.pow 2 q.toNat, Nat.pow 2 (-q).toNat)
    if m * up % down = 0 then
      let n : Int := m * up / down
      some (if s then -n else n)
    else none

/-- Whether the value is finite. -/
def isFinite : Binary64 → Bool
  | .finite .. => true
  | _ => false

/-- Minus one. -/
def minusOne : Binary64 := .finite true (Nat.pow 2 52) (-52)

end Binary64

end PlanarMath
