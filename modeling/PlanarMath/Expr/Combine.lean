import PlanarMath.Fault
import PlanarMath.Token

/-!
# Putting expressions together

The two constructions that do more than add a node.  Negating a number literal folds the sign into the
literal; joining operands under an operator takes over the operands of those that are under the same
operator already.  Both cover the span of what they are made of.

    negate 5 = -5      negate x = (Neg x)      join (Add a b) c = (Add a b c)
-/

namespace PlanarMath

namespace Expr

/-- The operands that an expression contributes to an operator: its own where it is under the same
operator, and otherwise itself. -/
def operandsUnder (op : BinaryOp) : Expr → List Expr
  | e@(binary op' args _ _) => if op' = op then args else [e]
  | e => [e]

/-- The negation of an expression, whose range is then `whole`, by a sign in the range `minus`. -/
def negation (whole minus : Range) : Expr → Expr
  | number v _ => number v.neg (some whole)
  | e => unary .negate e (some whole) (some minus)

end Expr

namespace Placed

/-- The negation of an expression by a sign in the range `minus`. -/
def negate (minus : Range) (e : Placed) : Placed where
  expr := e.expr.negation (minus.span e.range) minus
  range := minus.span e.range
  range?_expr := by
    unfold Expr.negation
    split <;> rfl

/-- Two expressions under an operator whose sign, if there is one, has the range `sign?`. -/
def join (op : BinaryOp) (left right : Placed) (sign? : Option Range) : Placed where
  expr := .binary op (left.expr.operandsUnder op ++ right.expr.operandsUnder op)
    (some (left.range.span right.range)) sign?
  range := left.range.span right.range
  range?_expr := rfl

/-- Two expressions as the operands of an operator with a sign, taken as they are. -/
def pair (op : BinaryOp) (left right : Placed) (sign : Range) : Placed where
  expr := .binary op [left.expr, right.expr] (some (left.range.span right.range)) (some sign)
  range := left.range.span right.range
  range?_expr := rfl

/-- A power, which has the range of the raised exponent alone. -/
def power (base exponent : Placed) (raised : Range) : Placed where
  expr := .binary .exponent [base.expr, exponent.expr] (some raised) none
  range := raised
  range?_expr := rfl

/-- The factorial of an expression, by a sign after it. -/
def factorial (e : Placed) (sign : Range) : Placed where
  expr := .unary .factorial e.expr (some (e.range.span sign)) none
  range := e.range.span sign
  range?_expr := rfl

/-- The inverse of a function, named in one range and raised in another. -/
def inverse (name : Placed) (named raised : Range) : Placed where
  expr := .unary .inverse name.expr (some (named.span raised)) none
  range := named.span raised
  range?_expr := rfl

/-- A function applied to a group of arguments, or to a single argument. -/
def apply (target args : Placed) : Placed where
  expr := match args.expr with
    | .tuple items _ => .call target.expr items (some args.range) (some (target.range.span args.range))
    | e => .call target.expr [e] (some args.range) (some (target.range.span args.range))
  range := target.range.span args.range
  range?_expr := by split <;> rfl

/-- A region that could not be read. -/
def error (range : Range) : Placed := ⟨.error (some range), range, rfl⟩

end Placed

namespace Expr

/-- The expression with its range, which it has to carry. -/
def placed? (e : Expr) : Option Placed :=
  match h : e.range? with
  | some r => some ⟨e, r, h⟩
  | none => none

/-- The negation of an expression that carries a range. -/
def negate? (minus : Range) (e : Expr) : Except Fault Expr :=
  match e.placed? with
  | some e => .ok (e.negate minus).expr
  | none => .error .missingRange

/-- Two expressions that carry a range under an operator, which has to allow for their operands. -/
def join? (op : BinaryOp) (left right : Expr) (sign? : Option Range) : Except Fault Expr :=
  match left.placed?, right.placed? with
  | some l, some r =>
    if op.allows (left.operandsUnder op ++ right.operandsUnder op).length then
      .ok (l.join op r sign?).expr
    else .error (.invalid [⟨[], .broken (.operandCount op)⟩])
  | _, _ => .error .missingRange

end Expr

end PlanarMath
