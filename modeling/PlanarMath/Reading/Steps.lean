import PlanarMath.Reading

/-!
# Reading a row in part

A row can be read as far as one expression at a level goes, or, after an operand that is given, as far
as one suffix goes.  Either way it matters how many tokens were taken, also when the reader stopped.
-/

namespace PlanarMath.Reading

open Layout

/-- How far a reader came: what it read, if anything, and how many tokens it took. -/
structure Progress where
  expr? : Option Expr
  taken : Nat
  deriving DecidableEq, Repr

/-- The progress of a reader that stopped among the tokens it was given. -/
def halted (ts : List Token) (h : Grammar.Halt) : Report Progress :=
  ⟨[h.diagnostic], .ok ⟨none, ts.length - h.rest.length⟩⟩

/-- One expression at a level. -/
def expressionStep (o : Options) (level : Int) (r : Row) : Report Progress :=
  (tokens o 0 r).andThen fun ts =>
    match Grammar.expression (endOf (regionOf 0 r)) level ts with
    | .error h => halted ts h
    | .ok p => .ok ⟨some p.value.expr, ts.length - p.rest.length⟩

/-- One suffix after a given operand; there has to be a token to go on with. -/
def suffixStep (o : Options) (left : Expr) (r : Row) : Report Progress :=
  (tokens o 0 r).andThen fun ts =>
    if ts.isEmpty then .ofExcept (.error (.broken .stepBeforeEnd))
    else match Grammar.suffix (endOf (regionOf 0 r)) ts with
      | .error h => halted ts h
      | .ok p => .ofExcept ((p.value.extend? left).map fun e => ⟨some e, ts.length - p.rest.length⟩)

/-- Where an expression of each level goes on: for each place of a row, the levels at which it does. -/
def continuations (o : Options) (levels : List Int) (r : Row) : Report (List (List Bool)) :=
  (tokens o 0 r).map fun ts =>
    (List.range (ts.length + 1)).map fun n =>
      levels.map fun level => Grammar.goesOnWith level (ts.drop n)

end PlanarMath.Reading
