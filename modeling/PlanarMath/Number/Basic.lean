import PlanarMath.Number.Literal
import PlanarMath.Number.Shortest

/-!
# Numbers of a document

A number is an integer of any size or a binary floating-point value, and stays what it is: `5` and
`5.0` are different numbers with different texts.
-/

namespace PlanarMath

/-- The value of a numeric literal. -/
inductive Number where
  | int (n : Int)
  | real (x : Binary64)
  deriving DecidableEq, Repr

namespace Number

/-- The number with the opposite sign. -/
def neg : Number → Number
  | .int n => .int (-n)
  | .real x => .real x.neg

/-- Less than zero. -/
def isNegative : Number → Bool
  | .int n => n < 0
  | .real x => x.isNegative

/-- At least zero. -/
def isNonnegative : Number → Bool
  | .int n => 0 ≤ n
  | .real x => x.isNonnegative

/-- Equal to minus one, as an integer or as a real number. -/
def isMinusOne : Number → Bool
  | .int n => n == -1
  | .real x => x == Binary64.minusOne

/-- Integers in plain decimal, real numbers with the fewest digits that read back. -/
def text : Number → String
  | .int n => String.ofList (Text.signedDecimal n)
  | .real x => x.text

/-- The number that a literal stands for: a real number exactly when it has a point. -/
def ofText? (s : String) : Option Number :=
  if s.toList.contains '.' then (Literal.real? s).map .real else (Literal.integer? s).map .int

end Number

end PlanarMath
