import PlanarMath.Proofs.Expr.Value
import PlanarMath.Proofs.Grammar.Phrases

/-!
# Plain readings

What tokens say, word for word.  A plain expression has a node for every sign that is written, with the one
or two operands of the sign: sums and products are of two, a difference is a difference, and a minus in front
is a negation, of a number as of anything else.

    a + b − 5      difference (sum a b) 5             − 5      negative 5

Plain expressions are read by the grammar of rows (`Plain.Derives`), from tokens whose operands are plain
themselves.
-/

namespace PlanarMath

universe u

/-- An expression as it is written. -/
inductive Plain where
  | number (v : Number)
  | symbol (name : String)
  | negative (x : Plain)
  | sum (x y : Plain)
  | difference (x y : Plain)
  | product (x y : Plain)
  | quotient (x y : Plain)
  | power (x exponent : Plain)
  | relation (op : BinaryOp) (x y : Plain)
  | factorial (x : Plain)
  | inverse (x : Plain)
  | tuple (items : List Plain)
  | call (target : Plain) (args : List Plain)

namespace Plain

section
variable {R : Type u} [CommRing R]

mutual

/-- The value of a plain expression. -/
@[simp] def value (ι : Interpretation R) : Plain → R
  | number v => ι.number v
  | symbol s => ι.symbol s
  | negative x => -value ι x
  | sum x y => value ι x + value ι y
  | difference x y => value ι x - value ι y
  | product x y => value ι x * value ι y
  | quotient x y => ι.operation .divide [value ι x, value ι y]
  | power x y => ι.operation .exponent [value ι x, value ι y]
  | relation op x y => ι.operation op [value ι x, value ι y]
  | factorial x => ι.factorial (value ι x)
  | inverse x => ι.inverse (value ι x)
  | tuple xs => ι.tuple (values ι xs)
  | call target xs => ι.call (value ι target) (values ι xs)

/-- The values of a list of plain expressions. -/
@[simp] def values (ι : Interpretation R) : List Plain → List R
  | [] => []
  | x :: xs => value ι x :: values ι xs

end

end

/-- A parenthesised group. -/
def isTuple : Plain → Bool
  | tuple _ => true
  | _ => false

/-- The arguments that an expression stands for behind a function. -/
def arguments : Plain → List Plain
  | tuple items => items
  | x => [x]

/-- The number that a numeral stands for with the signs in front of it. -/
def literal? : Plain → Option Number
  | number v => some v
  | negative x => x.literal?.map Number.neg
  | _ => none

/-- Minus one, which raises a function name to its inverse. -/
def isMinusOne (x : Plain) : Bool := x.literal?.any Number.isMinusOne

end Plain

/-! ## Reading -/

/-- A token whose content is plain. -/
inductive Atom where
  | glyph (c : Char)
  | operand (x : Plain) (function : Bool)
  | superscript (x : Plain)
  | subscript (x : Plain)

namespace Atom

/-- An operand, whether or not it is the name of a function. -/
def isOperand : Atom → Bool
  | operand .. => true
  | _ => false

/-- An operand that is not the name of a function. -/
def isPlainOperand : Atom → Bool
  | operand _ function => !function
  | _ => false

/-- An operand that is a parenthesised group. -/
def isGroup : Atom → Bool
  | operand x _ => x.isTuple
  | _ => false

/-- The first atom, if there is one, is of a class. -/
def startsWith (P : Atom → Bool) (as : List Atom) : Bool := as.head?.any P

end Atom

namespace Plain

open Grammar Atom

/-- The function that a name and what is raised after it call. -/
inductive Target (name : Plain) : List Atom → List Atom → Plain → Prop
  | itself (as : List Atom) : Target name as as name
  | inverse {exponent : Plain} (as : List Atom) :
      exponent.isMinusOne → Target name (.superscript exponent :: as) as (.inverse name)

/-- Plain phrases: the atoms start with a phrase of a kind, and go on with others. -/
inductive Derives : Phrase → List Atom → List Atom → Plain → Prop
  | ofSum {as bs x} : Derives .sum as bs x → Derives .relation as bs x
  | relation {as bs cs x y c op} :
      Derives .sum as (.glyph c :: bs) x → roleOf c = .relation op → Derives .relation bs cs y →
      Derives .relation as cs (.relation op x y)
  | ofProduct {as bs x} : Derives .product as bs x → Derives .sum as bs x
  | addition {as bs cs x y c} :
      Derives .sum as (.glyph c :: bs) x → roleOf c = .plus → Derives .product bs cs y →
      Derives .sum as cs (.sum x y)
  | subtraction {as bs cs x y c} :
      Derives .sum as (.glyph c :: bs) x → roleOf c = .minus → Derives .product bs cs y →
      Derives .sum as cs (.difference x y)
  | ofFactor {as bs x} : Derives .factor as bs x → Derives .product as bs x
  | multiplication {as bs cs x y c} :
      Derives .product as (.glyph c :: bs) x → roleOf c = .times → Derives .factor bs cs y →
      Derives .product as cs (.product x y)
  | division {as bs cs x y c} :
      Derives .product as (.glyph c :: bs) x → roleOf c = .divide → Derives .factor bs cs y →
      Derives .product as cs (.quotient x y)
  | juxtaposition {as bs cs x y} :
      Derives .product as bs x → startsWith isOperand bs → Derives .factor bs cs y →
      Derives .product as cs (.product x y)
  | ofAtom {as bs x} : Derives .atom as bs x → Derives .factor as bs x
  | positive {as bs x c} :
      roleOf c = .plus → Derives .factor as bs x → Derives .factor (.glyph c :: as) bs x
  | negative {as bs x c} :
      roleOf c = .minus → Derives .factor as bs x → Derives .factor (.glyph c :: as) bs (.negative x)
  | call {as bs cs name t args} :
      Target name as bs t → startsWith isGroup bs = false → Derives .argument bs cs args →
      startsWith isPlainOperand cs = false →
      Derives .factor (.operand name true :: as) cs (.call t args.arguments)
  | ofFirst {as bs x} : Derives .factor as bs x → Derives .argument as bs x
  | absorption {as bs cs x y} :
      Derives .argument as bs x → startsWith isPlainOperand bs → Derives .factor bs cs y →
      Derives .argument as cs (.product x y)
  | operand {x as} : Derives .atom (.operand x false :: as) as x
  | groupCall {as bs name t args function} :
      Target name as (.operand args function :: bs) t → args.isTuple →
      Derives .atom (.operand name true :: as) bs (.call t args.arguments)
  | factorial {as bs x c} :
      Derives .atom as (.glyph c :: bs) x → roleOf c = .factorial → Derives .atom as bs (.factorial x)
  | power {as bs x exponent} :
      Derives .atom as (.superscript exponent :: bs) x → Derives .atom as bs (.power x exponent)

/-- Plain relations with commas between them that take up all atoms. -/
inductive Lists : List Atom → List Plain → Prop
  | last {as x} : Derives .relation as [] x → Lists as [x]
  | more {as bs x xs c} :
      Derives .relation as (.glyph c :: bs) x → roleOf c = .comma → Lists bs xs → Lists as (x :: xs)

end Plain

end PlanarMath
