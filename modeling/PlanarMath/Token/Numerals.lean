import PlanarMath.Diagnostic
import PlanarMath.Text.Digit
import PlanarMath.Token.Words

/-!
# Numerals

Digits side by side are read as numbers.  A numeral is the longest run of digits with at most one point;
a point alone is no numeral.  What a numeral is worth is up to the reader of literals that is in use: a
numeral that it rejects becomes an error in its place, with a complaint.
-/

namespace PlanarMath.Token

/-- The digits that a list of tokens starts with, with at most one point unless there was one. -/
def numeralRun (pointed : Bool) : List Token → List (Char × Range)
  | .glyph c r :: ts =>
    if Text.isAsciiDigit c then (c, r) :: numeralRun pointed ts
    else if c = '.' ∧ !pointed then (c, r) :: numeralRun true ts
    else []
  | _ => []

/-- The operand of a numeral, with a complaint when it has no value. -/
def ofNumeral (value : String → Option Number) (text : List Char) (range : Range) :
    List Diagnostic × Token :=
  match value (String.ofList text) with
  | some v => ([], .ofNode ⟨.number v (some range), range, rfl⟩)
  | none => ([⟨.invalidNumber text.length, range⟩], .ofNode (.error range))

/-- The tokens with all numerals read as numbers, and the complaints about them. -/
def mergeNumerals (value : String → Option Number) (ts : List Token) :
    List Diagnostic × List Token :=
  match ts with
  | [] => ([], [])
  | t :: rest =>
    match numeralRun false (t :: rest) with
    | [] =>
      let (found, ts) := mergeNumerals value rest
      (found, t :: ts)
    | (c, r) :: others =>
      if c = '.' ∧ others = [] then
        let (found, ts) := mergeNumerals value rest
        (found, t :: ts)
      else
        let (complaints, numeral) := ofNumeral value (c :: others.map (·.1)) (spanOf r others)
        let (found, ts) := mergeNumerals value (rest.drop others.length)
        (complaints ++ found, numeral :: ts)
termination_by ts.length
decreasing_by
  · exact Nat.lt_succ_self _
  · exact Nat.lt_succ_self _
  · simp only [List.length_drop, List.length_cons]; omega

end PlanarMath.Token
