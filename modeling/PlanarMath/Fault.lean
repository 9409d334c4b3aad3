import PlanarMath.Schema

/-!
# Faults

What stops an operation altogether, other than a complaint about a layout: a record that would break
its rules, a range that is missing where it is needed, a call that makes no sense, or a complaint that
cannot be put down.
-/

namespace PlanarMath

/-- A condition that every caller has to keep. -/
inductive Condition where
  /-- A list of marks ends in an end of input. -/
  | endsInEnd
  /-- An operand carries a range. -/
  | operandHasRange
  /-- A step that goes on from an operand needs something to go on with. -/
  | stepBeforeEnd
  deriving DecidableEq, Repr

/-- What is said when a condition is broken. -/
def Condition.message : Condition → String
  | .endsInEnd => ""
  | .operandHasRange => "operand node must carry a range"
  | .stepBeforeEnd => "end of input has no infix rule"

/-- Why an operation has no result. -/
inductive Fault where
  /-- A record would break its rules. -/
  | invalid (issues : List Schema.Issue)
  /-- A range is needed of an expression that carries none. -/
  | missingRange
  /-- A caller broke a condition. -/
  | broken (condition : Condition)
  /-- A number has more digits than can be written. -/
  | tooManyDigits
  /-- A trace that is closed was to take an event. -/
  | closedTrace
  deriving DecidableEq, Repr

end PlanarMath
