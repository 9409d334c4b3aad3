import PlanarMath.Expr.Operator
import PlanarMath.Number.Basic
import PlanarMath.Range

/-!
# Expressions

The trees that layouts are read into.  Every node may carry the range of the layout that it came from,
and an operator the range of its own sign, a fraction that of its bar.

`walk` lists a tree parents first, in the order of the document; the arguments of a call are a tuple of
their own there.
-/

namespace PlanarMath

/-- An expression. -/
inductive Expr where
  | number (value : Number) (range? : Option Range)
  | symbol (name : String) (range? : Option Range)
  | unary (op : UnaryOp) (arg : Expr) (range? sign? : Option Range)
  | binary (op : BinaryOp) (args : List Expr) (range? sign? : Option Range)
  | tuple (items : List Expr) (range? : Option Range)
  | call (target : Expr) (args : List Expr) (argsRange? range? : Option Range)
  /-- A region that could not be read. -/
  | error (range? : Option Range)
  deriving Repr

namespace Expr

/-- The range of the layout that an expression came from. -/
def range? : Expr → Option Range
  | number _ r | symbol _ r | unary _ _ r _ | binary _ _ r _ | tuple _ r | call _ _ _ r | error r => r

/-- The name of the kind of an expression. -/
def tag : Expr → String
  | number .. => "Number"
  | symbol .. => "Symbol"
  | unary .. => "Unary"
  | binary .. => "Binary"
  | tuple .. => "Tuple"
  | call .. => "Call"
  | error .. => "Error"

/-- A parenthesised group. -/
def isTuple : Expr → Bool
  | tuple .. => true
  | _ => false

/-- The number minus one, which raises a function name to its inverse. -/
def isMinusOne : Expr → Bool
  | number v _ => v.isMinusOne
  | _ => false

mutual

/-- The expression and all below it, parents first. -/
def walk : Expr → List Expr
  | e@(number ..) | e@(symbol ..) | e@(error ..) => [e]
  | e@(unary _ arg _ _) => e :: walk arg
  | e@(binary _ args _ _) => e :: walkAll args
  | e@(tuple items _) => e :: walkAll items
  | e@(call target args argsRange _) => e :: walk target ++ tuple args argsRange :: walkAll args

/-- The expressions of a list and all below them. -/
def walkAll : List Expr → List Expr
  | [] => []
  | e :: es => walk e ++ walkAll es

end

/-! ## Equality -/

mutual

/-- Equality of expressions is decided part by part. -/
def decEq : (a b : Expr) → Decidable (a = b)
  | number v r, number w s => decidable_of_iff (v = w ∧ r = s) (by simp)
  | symbol v r, symbol w s => decidable_of_iff (v = w ∧ r = s) (by simp)
  | error r, error s => decidable_of_iff (r = s) (by simp)
  | unary o a r i, unary p b s j =>
    match decEq a b with
    | .isTrue h => decidable_of_iff (o = p ∧ r = s ∧ i = j) (by simp [h])
    | .isFalse h => .isFalse (by simp [h])
  | binary o a r i, binary p b s j =>
    match decEqAll a b with
    | .isTrue h => decidable_of_iff (o = p ∧ r = s ∧ i = j) (by simp [h])
    | .isFalse h => .isFalse (by simp [h])
  | tuple a r, tuple b s =>
    match decEqAll a b with
    | .isTrue h => decidable_of_iff (r = s) (by simp [h])
    | .isFalse h => .isFalse (by simp [h])
  | call t a i r, call u b j s =>
    match decEq t u, decEqAll a b with
    | .isTrue h, .isTrue k => decidable_of_iff (i = j ∧ r = s) (by simp [h, k])
    | .isFalse h, _ => .isFalse (by simp [h])
    | _, .isFalse k => .isFalse (by simp [k])
  | number .., symbol .. | number .., unary .. | number .., binary .. | number .., tuple ..
  | number .., call .. | number .., error .. | symbol .., number .. | symbol .., unary ..
  | symbol .., binary .. | symbol .., tuple .. | symbol .., call .. | symbol .., error ..
  | unary .., number .. | unary .., symbol .. | unary .., binary .. | unary .., tuple ..
  | unary .., call .. | unary .., error .. | binary .., number .. | binary .., symbol ..
  | binary .., unary .. | binary .., tuple .. | binary .., call .. | binary .., error ..
  | tuple .., number .. | tuple .., symbol .. | tuple .., unary .. | tuple .., binary ..
  | tuple .., call .. | tuple .., error .. | call .., number .. | call .., symbol ..
  | call .., unary .. | call .., binary .. | call .., tuple .. | call .., error ..
  | error .., number .. | error .., symbol .. | error .., unary .. | error .., binary ..
  | error .., tuple .. | error .., call .. => .isFalse nofun

/-- Equality of lists of expressions is decided item by item. -/
def decEqAll : (a b : List Expr) → Decidable (a = b)
  | [], [] => .isTrue rfl
  | x :: xs, y :: ys =>
    match decEq x y, decEqAll xs ys with
    | .isTrue h, .isTrue k => .isTrue (h ▸ k ▸ rfl)
    | .isFalse h, _ => .isFalse fun e => h (List.cons.inj e).1
    | _, .isFalse k => .isFalse fun e => k (List.cons.inj e).2
  | [], _ :: _ | _ :: _, [] => .isFalse nofun

end

instance : DecidableEq Expr := decEq

end Expr

end PlanarMath
