import PlanarMath.Expr.Combine
import PlanarMath.FunctionTable.Basic
import PlanarMath.Text.Letter

/-!
# Words

Letters side by side are read as names.  At each place the longest word of the function table wins and
becomes the name of that function; where no word of the table starts, the first letter alone is a
symbol.  So `sinx` is the function `sin` and the symbol `x`, and `xyz` are three symbols.
-/

namespace PlanarMath.Token

/-- The letters that a list of tokens starts with, with their ranges. -/
def letterRun : List Token → List (Char × Range)
  | .glyph c r :: ts => if Text.isLetter c then (c, r) :: letterRun ts else []
  | _ => []

/-- The span of the first range and the last of the others. -/
def spanOf (first : Range) (others : List (Char × Range)) : Range :=
  first.span ((others.getLast?.map (·.2)).getD first)

/-- A name at the start of a run of letters. -/
structure Word where
  length : Nat
  name : String
  function : Bool
  deriving DecidableEq, Repr

/-- The first name of a run: the longest word of the table, or else the first letter. -/
def Word.first (table : FunctionTable) (letter : Char) (others : List Char) : Word :=
  match table.longestWord? (letter :: others) with
  | some (length, name) => ⟨length, name, true⟩
  | none => ⟨1, letter.toString, false⟩

/-- The operand of a name, which may not be empty. -/
def ofName (w : Word) (range : Range) : Except Fault Token :=
  if w.name = "" then .error (.invalid [⟨[.key "name"], .emptyText⟩])
  else .ok (.operand ⟨.symbol w.name (some range), range, rfl⟩ w.function range)

/-- The tokens with all runs of letters read as names. -/
def mergeWords (table : FunctionTable) (ts : List Token) : Except Fault (List Token) :=
  match ts with
  | [] => .ok []
  | t :: rest =>
    match letterRun (t :: rest) with
    | [] => (mergeWords table rest).map (t :: ·)
    | (c, r) :: others =>
      let w := Word.first table c (others.map (·.1))
      match ofName w (spanOf r (others.take (w.length - 1))) with
      | .error f => .error f
      | .ok name => (mergeWords table (rest.drop (w.length - 1))).map (name :: ·)
termination_by ts.length
decreasing_by
  · exact Nat.lt_succ_self _
  · simp only [List.length_drop, List.length_cons]; omega

end PlanarMath.Token
