import PlanarMath.Expr.Basic

/-!
# Tokens

What a row is read as: a flat list of tokens.  A token is a glyph, an operand that was read already, or
a superscript or subscript with its content; an operand may be marked as the name of a function.  Nodes
of tokens carry a range (`Placed`).

A `Mark` is what a reader can be said to stand at: a token, or the end of the input.
-/

namespace PlanarMath

/-- An expression together with its range. -/
structure Placed where
  expr : Expr
  range : Range
  range?_expr : expr.range? = some range
  deriving DecidableEq

/-- An atom of a row. -/
inductive Token where
  | glyph (c : Char) (range : Range)
  | operand (node : Placed) (function : Bool) (range : Range)
  | superscript (node : Placed) (range : Range)
  | subscript (node : Placed) (range : Range)
  deriving DecidableEq

namespace Token

/-- The range of the layout that a token covers. -/
def range : Token → Range
  | glyph _ r | operand _ _ r | superscript _ r | subscript _ r => r

/-- An operand that is not the name of a function. -/
def isPlainOperand : Token → Bool
  | operand _ function _ => !function
  | _ => false

/-- The token of an operand that covers its own range. -/
def ofNode (node : Placed) : Token := .operand node false node.range

end Token

/-- What stands at a place: a glyph, a kind of token, or the end. -/
inductive Mark.Kind where
  | codePoint (text : String)
  | operand (function : Bool)
  | superscript
  | subscript
  | endOfInput
  deriving DecidableEq, Repr

/-- A place of the input: what stands there, its range, and its node if it has one. -/
structure Mark where
  kind : Mark.Kind
  range : Range
  node? : Option Expr
  deriving DecidableEq, Repr

namespace Mark.Kind

/-- The name of a kind in records. -/
def text : Kind → String
  | .codePoint _ => "code_point"
  | .operand _ => "operand"
  | .superscript => "over"
  | .subscript => "under"
  | .endOfInput => "end_of_input"

/-- The glyph, where one stands. -/
def codePoint? : Kind → Option String
  | .codePoint s => some s
  | _ => none

/-- A kind as messages speak of it. -/
def describe : Kind → String
  | .codePoint s => "'" ++ s ++ "'"
  | .operand true => "function name"
  | .operand false => "operand"
  | .superscript => "over"
  | .subscript => "under"
  | .endOfInput => "end of input"

end Mark.Kind

/-- The place of a token. -/
def Token.mark : Token → Mark
  | .glyph c r => ⟨.codePoint c.toString, r, none⟩
  | .operand node function r => ⟨.operand function, r, some node.expr⟩
  | .superscript node r => ⟨.superscript, r, some node.expr⟩
  | .subscript node r => ⟨.subscript, r, some node.expr⟩

/-- The place after the last token. -/
def Mark.stop (r : Range) : Mark := ⟨.endOfInput, r, none⟩

/-- The place at which a list of tokens starts, when the input ends at `stop`. -/
def Mark.first (stop : Range) : List Token → Mark
  | [] => Mark.stop stop
  | t :: _ => t.mark

/-- All places of a list of tokens, the end included. -/
def Mark.all (stop : Range) (ts : List Token) : List Mark := ts.map Token.mark ++ [Mark.stop stop]

end PlanarMath
