import PlanarMath.Algebra.Term
import PlanarMath.Expr.Basic
import PlanarMath.FunctionTable.Basic

/-!
# Expressions as algebra terms

The conversion of expressions into terms of an algebra system.  It goes through an expression in the
order of the document and stops at the first part that has no counterpart.  What becomes of a part is a
term or none, and a list of warnings; the warnings of parts are put one behind the other.  The symbols
met until a conversion stops stay known.  A group of one expression is that expression.
-/

namespace PlanarMath.Algebra

/-- Why an expression has no term. -/
inductive Warning where
  /-- The algebra system is not there. -/
  | noSystem
  /-- A function has no operation. -/
  | unknownFunction (name : String)
  /-- A function has no inverse with an operation. -/
  | noInverse (name : String)
  /-- Something is called that is no function; its tag is given. -/
  | notCallable (tag : String)
  /-- A region that could not be read. -/
  | unread
  /-- The inverse of a function that is not called. -/
  | bareInverse
  deriving DecidableEq, Repr

/-- The wording of a warning. -/
def Warning.message : Warning → String
  | .noSystem => "sympy not installed"
  | .unknownFunction name => "unsupported Call target=" ++ name
  | .noInverse name => "no inverse for " ++ name
  | .notCallable tag => "unsupported Call target node=" ++ tag
  | .unread => "cannot convert Error node"
  | .bareInverse => "bare function inverse outside a call"

/-- What becomes of something: what it is converted to, if it is, and the warnings about it. -/
abbrev Outcome (α : Type) := Option α × List Warning

/-- No result, with one warning. -/
def Outcome.fail {α : Type} (w : Warning) : Outcome α := (none, [w])

/-- The outcome of something that is made of another; the warnings stay. -/
def Outcome.map {α β : Type} (f : α → β) (x : Outcome α) : Outcome β := (x.1.map f, x.2)

/-- The operation that a call of a target becomes. -/
def operationOf (functions : FunctionTable) : Expr → Outcome String
  | .symbol name _ => match operation? name with
    | some op => (some op, [])
    | none => .fail (.unknownFunction name)
  | .unary .inverse (.symbol name _) _ _ =>
    match (functions.inverse name).bind operation? with
    | some op => (some op, [])
    | none => .fail (.noInverse name)
  | e => .fail (.notCallable e.tag)

/-- The operation of the system for an operator with one operand. -/
def unaryOperation : UnaryOp → String
  | .negate => "neg"
  | _ => "factorial"

/-- The operation of the system for an operator with several operands. -/
def binaryOperation : BinaryOp → String
  | .add => "Add"
  | .multiply => "Mul"
  | .divide => "div"
  | .exponent => "Pow"
  | .equal => "Eq"
  | .lessThan => "Lt"
  | .greaterThan => "Gt"
  | .lessThanEqual => "Le"
  | .greaterThanEqual => "Ge"

/-- The term of a group. -/
def groupTerm : List Term → Term
  | [a] => a
  | args => .apply "Tuple" args

mutual

/-- The term of an expression, with the symbols known after it. -/
def convert (functions : FunctionTable) (env : Environment) : Expr → Outcome Term × Environment
  | .number (.int n) _ => ((some (.integer n), []), env)
  | .number (.real x) _ => ((some (.float x), []), env)
  | .symbol name _ =>
    let (t, env) := env.intern name
    ((some t, []), env)
  | .error _ => (.fail .unread, env)
  | .tuple items _ =>
    let (args, env) := convertAll functions env items
    (args.map groupTerm, env)
  | .unary .inverse _ _ _ => (.fail .bareInverse, env)
  | .unary op arg _ _ =>
    let (a, env) := convert functions env arg
    (a.map fun a => .apply (unaryOperation op) [a], env)
  | .binary op args _ _ =>
    let (args, env) := convertAll functions env args
    (args.map (.apply (binaryOperation op)), env)
  | .call target args _ _ =>
    match operationOf functions target with
    | (none, warnings) => ((none, warnings), env)
    | (some op, warnings) =>
      let ((args?, more), env) := convertAll functions env args
      ((args?.map (.apply op), warnings ++ more), env)

/-- The terms of a list of expressions, up to the first that has none. -/
def convertAll (functions : FunctionTable) (env : Environment) :
    List Expr → Outcome (List Term) × Environment
  | [] => ((some [], []), env)
  | e :: es =>
    match convert functions env e with
    | ((none, warnings), env) => ((none, warnings), env)
    | ((some t, warnings), env) =>
      let ((ts?, more), env) := convertAll functions env es
      ((ts?.map (t :: ·), warnings ++ more), env)

end

/-- The term of an expression, when there is an algebra system to build it with, the warnings, and the
symbols known after it. -/
def convertWith (present : Bool) (functions : FunctionTable) (env : Environment) (e : Expr) :
    Option Term × List Warning × Environment :=
  if present then
    let ((term?, warnings), env) := convert functions env e
    (term?, warnings, env)
  else (none, [.noSystem], env)

end PlanarMath.Algebra
