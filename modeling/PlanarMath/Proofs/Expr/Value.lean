import Mathlib.Algebra.Algebra.Rat
import Mathlib.Algebra.BigOperators.Group.List.Basic
import Mathlib.Algebra.Field.Rat
import PlanarMath.Proofs.Expr.Walk

/-!
# Values of expressions

What an expression is worth in a commutative ring.  A sum, a product and a negation are worth what the ring
makes of their operands; a number and a name are worth what an interpretation says, opposite numbers opposite
values; all other operators are any functions of the values of their operands.

Taking over the operands of an operand under the same operator does not change a sum or a product, nor does
folding a sign into a number:

    value (join add l r) = value l + value r          value (negate e) = - value e
-/

namespace PlanarMath

universe u

/-! ## Exact values of numbers -/

/-- The exact value; what is not finite has none, and counts as zero. -/
def Binary64.rational : Binary64 → ℚ
  | .nan | .infinite _ => 0
  | .finite negative m q => (if negative then -1 else 1) * (m * 2 ^ q)

theorem Binary64.rational_neg (x : Binary64) : x.neg.rational = -x.rational := by
  cases x with
  | nan => simp [neg, rational]
  | infinite => simp [neg, rational]
  | finite negative m q => cases negative <;> simp [neg, rational]

/-- The exact value of a number. -/
def Number.rational : Number → ℚ
  | .int n => n
  | .real x => x.rational

theorem Number.rational_neg (v : Number) : v.neg.rational = -v.rational := by
  cases v with
  | int n => simp [neg, rational]
  | real x => exact x.rational_neg

/-! ## Interpretations -/

/-- What numbers, names and operators stand for in a commutative ring. -/
structure Interpretation (R : Type u) [CommRing R] where
  number : Number → R
  number_neg : ∀ v, number v.neg = -number v
  symbol : String → R
  /-- A quotient, a power or a relation, from the values of its operands. -/
  operation : BinaryOp → List R → R
  factorial : R → R
  inverse : R → R
  call : R → List R → R
  tuple : List R → R
  /-- A region that could not be read. -/
  unread : R

namespace Interpretation

variable {R : Type u} [CommRing R]

/-- The same interpretation, but for numbers, which stand for their exact values. -/
def exact [Algebra ℚ R] (ι : Interpretation R) : Interpretation R :=
  { ι with
    number := fun v => algebraMap ℚ R v.rational
    number_neg := fun v => by rw [v.rational_neg, map_neg] }

/-- All is worth zero. -/
instance : Inhabited (Interpretation R) :=
  ⟨⟨fun _ => 0, fun _ => neg_zero.symm, fun _ => 0, fun _ _ => 0, fun _ => 0, fun _ => 0, fun _ _ => 0,
    fun _ => 0, 0⟩⟩

/-- The value of an operator with one operand. -/
def unary (ι : Interpretation R) : UnaryOp → R → R
  | .negate, x => -x
  | .factorial, x => ι.factorial x
  | .inverse, x => ι.inverse x

/-- The value of an operator with several operands. -/
def binary (ι : Interpretation R) : BinaryOp → List R → R
  | .add, xs => xs.sum
  | .multiply, xs => xs.prod
  | op, xs => ι.operation op xs

variable (ι : Interpretation R) {op : BinaryOp}

/-- A sum or a product of one operand is the operand. -/
theorem binary_singleton (hop : op.isVariadic) (x : R) : ι.binary op [x] = x := by
  cases op with
  | add => exact List.sum_singleton
  | multiply => exact List.prod_singleton
  | _ => cases hop

/-- A sum or a product may be taken in two parts. -/
theorem binary_append (hop : op.isVariadic) (xs ys : List R) :
    ι.binary op (xs ++ ys) = ι.binary op [ι.binary op xs, ι.binary op ys] := by
  cases op with
  | add => simp [binary]
  | multiply => simp [binary]
  | _ => cases hop

/-- All other operators are as the interpretation says. -/
theorem binary_eq_operation (hop : op.isVariadic = false) (xs : List R) :
    ι.binary op xs = ι.operation op xs := by
  cases op with
  | add => cases hop
  | multiply => cases hop
  | _ => rfl

end Interpretation

/-! ## Expressions -/

namespace Expr

variable {R : Type u} [CommRing R]

mutual

/-- The value of an expression. -/
@[simp] def value (ι : Interpretation R) : Expr → R
  | number v _ => ι.number v
  | symbol s _ => ι.symbol s
  | unary op e _ _ => ι.unary op (value ι e)
  | binary op es _ _ => ι.binary op (values ι es)
  | tuple es _ => ι.tuple (values ι es)
  | call target es _ _ => ι.call (value ι target) (values ι es)
  | error _ => ι.unread

/-- The values of a list of expressions. -/
@[simp] def values (ι : Interpretation R) : List Expr → List R
  | [] => []
  | e :: es => value ι e :: values ι es

end

variable (ι : Interpretation R)

theorem values_append (es fs : List Expr) : values ι (es ++ fs) = values ι es ++ values ι fs := by
  induction es with
  | nil => rw [values, List.nil_append, List.nil_append]
  | cons e es ih => rw [List.cons_append, values, values, ih, List.cons_append]

theorem values_singleton (e : Expr) : values ι [e] = [value ι e] := by
  rw [values, values]

/-- The operands that an expression contributes to a sum or a product are together worth the expression. -/
theorem binary_values_operandsUnder {op : BinaryOp} (hop : op.isVariadic) (e : Expr) :
    ι.binary op (values ι (e.operandsUnder op)) = e.value ι := by
  rcases operandsUnder_cases op e with h | ⟨args, r, s, rfl, h⟩
  · rw [h, values_singleton, ι.binary_singleton hop]
  · rw [h, value]

theorem value_unary (op : UnaryOp) (e : Expr) (r s : Option Range) :
    (unary op e r s).value ι = ι.unary op (e.value ι) := by
  rw [value]

/-- **Folding** a sign into a number keeps the value of a negation. -/
theorem value_negation (whole minus : Range) (e : Expr) : (e.negation whole minus).value ι = -e.value ι := by
  cases e with
  | number v r =>
    rw [negation, value, value]
    exact ι.number_neg v
  | _ => exact value_unary ι .negate ..

end Expr

/-! ## Constructions -/

namespace Placed

open PlanarMath.Expr

variable {R : Type u} [CommRing R] (ι : Interpretation R)

/-- **Flattening** keeps the value of a sum and of a product. -/
theorem value_join {op : BinaryOp} (hop : op.isVariadic) (l r : Placed) (sign? : Option Range) :
    (l.join op r sign?).expr.value ι = ι.binary op [l.expr.value ι, r.expr.value ι] := by
  rw [join, value, values_append, ι.binary_append hop, binary_values_operandsUnder ι hop,
    binary_values_operandsUnder ι hop]

theorem value_sum (l r : Placed) (sign? : Option Range) :
    (l.join .add r sign?).expr.value ι = l.expr.value ι + r.expr.value ι := by
  rw [value_join ι rfl, Interpretation.binary, List.sum_pair]

theorem value_product (l r : Placed) (sign? : Option Range) :
    (l.join .multiply r sign?).expr.value ι = l.expr.value ι * r.expr.value ι := by
  rw [value_join ι rfl, Interpretation.binary, List.prod_pair]

theorem value_negate (e : Placed) (sign : Range) : (e.negate sign).expr.value ι = -e.expr.value ι :=
  value_negation ι _ sign e.expr

theorem value_difference (l r : Placed) (sign : Range) :
    (l.join .add (r.negate sign) (some sign)).expr.value ι = l.expr.value ι - r.expr.value ι := by
  rw [value_sum, value_negate, sub_eq_add_neg]

theorem value_pair {op : BinaryOp} (hop : op.isVariadic = false) (l r : Placed) (sign : Range) :
    (l.pair op r sign).expr.value ι = ι.operation op [l.expr.value ι, r.expr.value ι] := by
  rw [pair, value, values, values_singleton, ι.binary_eq_operation hop]

theorem value_power (base exponent : Placed) (raised : Range) :
    (base.power exponent raised).expr.value ι =
      ι.operation .exponent [base.expr.value ι, exponent.expr.value ι] := by
  rw [power, value, values, values_singleton, ι.binary_eq_operation rfl]

theorem value_factorial (e : Placed) (sign : Range) :
    (e.factorial sign).expr.value ι = ι.factorial (e.expr.value ι) := by
  rw [factorial, value_unary, Interpretation.unary]

theorem value_inverse (name : Placed) (named raised : Range) :
    (name.inverse named raised).expr.value ι = ι.inverse (name.expr.value ι) := by
  rw [inverse, value_unary, Interpretation.unary]

theorem value_apply (target args : Placed) :
    (target.apply args).expr.value ι =
      ι.call (target.expr.value ι) (values ι args.expr.arguments) := by
  rw [apply_expr, value]

end Placed

end PlanarMath
