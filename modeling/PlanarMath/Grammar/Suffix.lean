import PlanarMath.Expr.Combine

/-!
# Suffixes

How an expression can go on: by a product, a quotient, a relation, a sum, a difference, a power or a
factorial.  A suffix is read without regard to what it follows, and then applied to it.
-/

namespace PlanarMath.Grammar

/-- What can follow an operand, with the operands read and the ranges of the signs. -/
inductive Suffix where
  /-- A factor, after a sign or side by side. -/
  | product (right : Placed) (sign? : Option Range)
  | quotient (right : Placed) (sign : Range)
  | relation (op : BinaryOp) (right : Placed) (sign : Range)
  | sum (right : Placed) (sign : Range)
  | difference (right : Placed) (sign : Range)
  | power (exponent : Placed) (raised : Range)
  | factorial (sign : Range)
  deriving DecidableEq

namespace Suffix

/-- The expression that a suffix makes of the one before it. -/
def apply : Suffix → Placed → Placed
  | product right sign?, left => left.join .multiply right sign?
  | quotient right sign, left => left.pair .divide right sign
  | relation op right sign, left => left.pair op right sign
  | sum right sign, left => left.join .add right (some sign)
  | difference right sign, left => left.join .add (right.negate sign) (some sign)
  | power exponent raised, left => left.power exponent raised
  | factorial sign, left => left.factorial sign

/-- The same for an expression that may carry no range; only a power can do without. -/
def extend? (s : Suffix) (left : Expr) : Except Fault Expr :=
  match left.placed?, s with
  | some l, s => .ok (s.apply l).expr
  | none, power exponent raised =>
    .ok (.binary .exponent [left, exponent.expr] (some raised) none)
  | none, _ => .error .missingRange

end Suffix

end PlanarMath.Grammar
