import PlanarMath.Token

/-!
# Binding levels

What a glyph means to the grammar, and how tightly what it starts binds to the operand before it.  An
expression is read at a level; it goes on with the next token as long as that token binds tighter.

    relations 1  <  sums 2  <  products 3  <  signs 4  <  powers and factorials 5
-/

namespace PlanarMath.Grammar

/-- What a glyph means to the grammar. -/
inductive Role where
  | plus
  | minus
  | times
  | divide
  | factorial
  | comma
  | relation (op : BinaryOp)
  /-- No meaning of its own. -/
  | plain
  deriving DecidableEq, Repr

/-- The role of a glyph. -/
def roleOf : Char → Role
  | '+' => .plus
  | '-' | '−' => .minus
  | '*' | '×' | '·' => .times
  | '÷' | '/' => .divide
  | '!' => .factorial
  | ',' => .comma
  | '=' => .relation .equal
  | '<' => .relation .lessThan
  | '>' => .relation .greaterThan
  | '≤' => .relation .lessThanEqual
  | '≥' => .relation .greaterThanEqual
  | _ => .plain

/-- The level of a whole expression. -/
def lowest : Int := 0

/-- The level at which relations bind. -/
def relationLevel : Int := 1

/-- The level at which sums bind. -/
def sumLevel : Int := 2

/-- The level at which products bind, also those without a sign. -/
def productLevel : Int := 3

/-- The level at which the operand of a sign in front is read. -/
def signLevel : Int := 4

/-- The level at which powers and factorials bind. -/
def suffixLevel : Int := 5

/-- The level at which a glyph binds to the operand before it. -/
def Role.binding? : Role → Option Int
  | .relation _ => some relationLevel
  | .plus | .minus => some sumLevel
  | .times | .divide => some productLevel
  | .factorial => some suffixLevel
  | .comma | .plain => none

/-- The level at which a token binds to the operand before it. -/
def binding? : Token → Option Int
  | .glyph c _ => (roleOf c).binding?
  | .operand .. => some productLevel
  | .superscript .. | .subscript .. => some suffixLevel

/-- Whether an expression that is read at a level goes on with a token. -/
def goesOn (level : Int) (t : Token) : Bool := (binding? t).any (level < ·)

/-- The same for the tokens that are left; nothing goes on past the last of them. -/
def goesOnWith (level : Int) : List Token → Bool
  | [] => false
  | t :: _ => goesOn level t

/-- An expression that goes on at a level goes on at every lower one. -/
theorem goesOn_mono {low high : Int} (h : low ≤ high) {t : Token} (ht : goesOn high t) :
    goesOn low t := by
  cases hb : binding? t with
  | none => simp [goesOn, hb] at ht
  | some b =>
    simp only [goesOn, hb, Option.any_some, decide_eq_true_eq] at ht ⊢
    omega

end PlanarMath.Grammar
