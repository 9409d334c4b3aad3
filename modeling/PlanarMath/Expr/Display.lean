import PlanarMath.Expr.Basic

/-!
# Expressions as formulas

The text of an expression in the usual notation.  An operand is put in parentheses where its own
operation binds no tighter than the place it stands in: around all but atoms next to a power, a
fraction bar, a sign or a factorial, around sums and relations in a product, around relations in a sum.
A negative term after the first of a sum is written as subtracted.

    (Add x (Neg y))     x - y
    (Mul (Add x 1) 2)   (x + 1) * 2
-/

namespace PlanarMath

/-- The sign of a relation. -/
def BinaryOp.relationSign : BinaryOp → String
  | .lessThan => "<"
  | .greaterThan => ">"
  | .lessThanEqual => "≤"
  | .greaterThanEqual => "≥"
  | _ => "="

namespace Expr

/-- An expression that needs no parentheses anywhere. -/
def isAtomic : Expr → Bool
  | symbol .. | call .. | tuple .. | error .. => true
  | number v _ => v.isNonnegative
  | _ => false

/-- An expression whose outermost operation is a relation. -/
def isRelation : Expr → Bool
  | binary op .. => op.isRelation
  | _ => false

/-- An expression whose outermost operation is a sum. -/
def isSum : Expr → Bool
  | binary op .. => op == .add
  | _ => false

/-- A text in parentheses, when they are needed. -/
def parenthesised (needed : Bool) (s : String) : String := if needed then "(" ++ s ++ ")" else s

mutual

/-- The formula of an expression. -/
def display : Expr → String
  | number v _ => v.text
  | symbol name _ => name
  | error _ => "?"
  | tuple items _ => "(" ++ displayItems items ++ ")"
  | call target args _ _ => display target ++ "(" ++ displayItems args ++ ")"
  | unary .negate arg _ _ => "-" ++ parenthesised (!arg.isAtomic) (display arg)
  | unary .factorial arg _ _ => parenthesised (!arg.isAtomic) (display arg) ++ "!"
  | unary .inverse arg _ _ => parenthesised (!arg.isAtomic) (display arg) ++ "^-1"
  | binary .add args _ _ => displaySum args
  | binary .multiply args _ _ => displayFactors args
  | binary .divide args _ _ => displayPair true " / " args
  | binary .exponent args _ _ => displayPair true "^" args
  | binary op args _ _ => displayPair false (" " ++ op.relationSign ++ " ") args

/-- Expressions separated by commas. -/
def displayItems : List Expr → String
  | [] => ""
  | [e] => display e
  | e :: es => display e ++ ", " ++ displayItems es

/-- Factors separated by asterisks. -/
def displayFactors : List Expr → String
  | [] => ""
  | [e] => parenthesised (e.isSum || e.isRelation) (display e)
  | e :: es => parenthesised (e.isSum || e.isRelation) (display e) ++ " * " ++ displayFactors es

/-- The terms of a sum. -/
def displaySum : List Expr → String
  | [] => ""
  | e :: es => parenthesised e.isRelation (display e) ++ displayTerms es

/-- The terms of a sum after the first, each with its sign. -/
def displayTerms : List Expr → String
  | [] => ""
  | unary .negate arg _ _ :: es =>
    " - " ++ parenthesised (arg.isSum || arg.isRelation) (display arg) ++ displayTerms es
  | number v _ :: es =>
    (if v.isNegative then " - " ++ v.neg.text else " + " ++ v.text) ++ displayTerms es
  | e :: es => " + " ++ parenthesised e.isRelation (display e) ++ displayTerms es

/-- The first and the last of the operands around a sign, in parentheses if they are `tight`. -/
def displayPair (tight : Bool) (sign : String) : List Expr → String
  | [] => ""
  | e :: es => parenthesised (tight && !e.isAtomic) (display e) ++ sign ++ displayLast tight es

/-- The last of the operands. -/
def displayLast (tight : Bool) : List Expr → String
  | [] => ""
  | [e] => parenthesised (tight && !e.isAtomic) (display e)
  | _ :: es => displayLast tight es

end

end Expr

end PlanarMath
