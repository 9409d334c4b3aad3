/-!
# Operators

The operators of expressions with one operand and with several.  Sums and products take any number of
operands from two on, every other operator exactly two; the five relations are operators as well.
-/

namespace PlanarMath

/-- An operator with one operand. -/
inductive UnaryOp where
  | negate
  | factorial
  | inverse
  deriving DecidableEq, Repr

/-- An operator with two or more operands. -/
inductive BinaryOp where
  | add
  | multiply
  | divide
  | exponent
  | equal
  | lessThan
  | greaterThan
  | lessThanEqual
  | greaterThanEqual
  deriving DecidableEq, Repr

namespace UnaryOp

/-- Every operator with one operand. -/
def all : List UnaryOp := [.negate, .factorial, .inverse]

/-- The name of an operator in records. -/
def text : UnaryOp → String
  | .negate => "negate"
  | .factorial => "factorial"
  | .inverse => "inverse"

/-- The operator of a name. -/
def ofText? (s : String) : Option UnaryOp := all.find? (·.text == s)

theorem ofText?_text (op : UnaryOp) : ofText? op.text = some op := by
  cases op <;> rfl

end UnaryOp

namespace BinaryOp

/-- Every operator with two or more operands. -/
def all : List BinaryOp :=
  [.add, .multiply, .divide, .exponent, .equal, .lessThan, .greaterThan, .lessThanEqual,
   .greaterThanEqual]

/-- The name of an operator in records. -/
def text : BinaryOp → String
  | .add => "add"
  | .multiply => "multiply"
  | .divide => "divide"
  | .exponent => "exponent"
  | .equal => "equal"
  | .lessThan => "less_than"
  | .greaterThan => "greater_than"
  | .lessThanEqual => "less_than_equal"
  | .greaterThanEqual => "greater_than_equal"

/-- The operator of a name. -/
def ofText? (s : String) : Option BinaryOp := all.find? (·.text == s)

/-- The operators that take any number of operands from two on. -/
def isVariadic : BinaryOp → Bool
  | .add | .multiply => true
  | _ => false

/-- The operators that state a relation. -/
def isRelation : BinaryOp → Bool
  | .equal | .lessThan | .greaterThan | .lessThanEqual | .greaterThanEqual => true
  | _ => false

/-- Whether an operator may have so many operands. -/
def allows (op : BinaryOp) (count : Nat) : Bool := 2 ≤ count && (op.isVariadic || count == 2)

theorem ofText?_text (op : BinaryOp) : ofText? op.text = some op := by
  cases op <;> rfl

end BinaryOp

end PlanarMath
