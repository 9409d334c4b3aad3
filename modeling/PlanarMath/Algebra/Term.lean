import PlanarMath.Number.Binary64

/-!
# Terms for computer algebra

Terms as an algebra system builds them: atoms, and operations applied to arguments.  Nothing is
simplified; a term records which construction was asked for.
-/

namespace PlanarMath.Algebra

/-- A term of an algebra system. -/
inductive Term where
  | symbol (name : String)
  | integer (n : Int)
  | float (x : Binary64)
  /-- An operation of the system by its name there; `neg` and `div` are its minus sign and its
  division sign. -/
  | apply (head : String) (args : List Term)
  deriving Repr

/-- The symbols that are known, with their terms, in the order in which they became known. -/
abbrev Environment := List (String × Term)

namespace Environment

/-- The term of a symbol. -/
def termOf? (env : Environment) (name : String) : Option Term := env.lookup name

/-- The term of a symbol, which becomes known if it is not yet. -/
def intern (env : Environment) (name : String) : Term × Environment :=
  match env.termOf? name with
  | some t => (t, env)
  | none => (.symbol name, env ++ [(name, .symbol name)])

end Environment

/-- The operations of the system that the functions of expressions become. -/
def operations : List (String × String) :=
  [("sin", "sin"), ("cos", "cos"), ("tan", "tan"), ("sec", "sec"), ("csc", "csc"), ("cot", "cot"),
   ("asin", "asin"), ("acos", "acos"), ("atan", "atan"), ("asec", "asec"), ("acsc", "acsc"),
   ("acot", "acot"), ("sinh", "sinh"), ("cosh", "cosh"), ("tanh", "tanh"), ("asinh", "asinh"),
   ("acosh", "acosh"), ("atanh", "atanh"), ("ln", "log"), ("log", "log"), ("exp", "exp"),
   ("sqrt", "sqrt"), ("abs", "Abs"), ("ceil", "ceiling"), ("floor", "floor"), ("max", "Max"),
   ("min", "Min"), ("gcd", "gcd"), ("lcm", "lcm")]

/-- The operation of a function. -/
def operation? (name : String) : Option String := operations.lookup name

end PlanarMath.Algebra
