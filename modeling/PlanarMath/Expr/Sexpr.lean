import PlanarMath.Expr.Basic

/-!
# S-expressions

The structure of an expression as one line of text, every operation in parentheses with its name first:

    2 x + 1     (Add (Mul 2 x) 1)
    sin⁻¹ x     (Call (Inv sin) x)
-/

namespace PlanarMath

/-- The head of an operation with one operand. -/
def UnaryOp.head : UnaryOp → String
  | .negate => "Neg"
  | .factorial => "Fact"
  | .inverse => "Inv"

/-- The head of an operation with several operands. -/
def BinaryOp.head : BinaryOp → String
  | .add => "Add"
  | .multiply => "Mul"
  | .divide => "Div"
  | .exponent => "Pow"
  | .equal => "Eq"
  | .lessThan => "Lt"
  | .greaterThan => "Gt"
  | .lessThanEqual => "Le"
  | .greaterThanEqual => "Ge"

namespace Expr

mutual

/-- The s-expression of an expression. -/
def sexpr : Expr → String
  | number v _ => v.text
  | symbol name _ => name
  | unary op arg _ _ => "(" ++ op.head ++ " " ++ sexpr arg ++ ")"
  | binary op args _ _ => "(" ++ op.head ++ " " ++ sexprs args ++ ")"
  | call target args _ _ => "(Call " ++ sexpr target ++ " " ++ sexprs args ++ ")"
  | tuple items _ => "(Tuple " ++ sexprs items ++ ")"
  | error _ => "?"

/-- The s-expressions of a list, with a space between two. -/
def sexprs : List Expr → String
  | [] => ""
  | [e] => sexpr e
  | e :: es => sexpr e ++ " " ++ sexprs es

end

end Expr

end PlanarMath
