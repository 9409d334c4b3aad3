import PlanarMath.Expr.Operator
import PlanarMath.Json.Basic
import PlanarMath.Layout.Kind

/-!
# Checking records

What is read from JSON into a record is checked field by field.  Every fault is reported, with the path
to the place where it is and its cause; the faults of a record come in the order of its fields, those
of a list in the order of its items.  A rule about a record as a whole is looked at only when all its
fields are sound.

    both a b   reports the faults of `a` and then those of `b`
    inside k a reports the faults of `a` one step further from the root
-/

namespace PlanarMath

/-- One step from a value to a part of it. -/
inductive Step where
  | key (name : String)
  | index (i : Nat)
  deriving DecidableEq, Repr

namespace Schema

/-- A rule about a record as a whole. -/
inductive Rule where
  /-- A range ends before it starts. -/
  | backwards
  /-- A construct owns the wrong number of containers. -/
  | containerCount (kind : Layout.Kind) (count : Nat)
  /-- An operator has the wrong number of operands. -/
  | operandCount (op : BinaryOp)
  deriving DecidableEq, Repr

/-- Why a value does not fit its place. -/
inductive Cause where
  | missing
  | notText
  | emptyText
  | longText
  | notList
  | shortList
  | notRecord
  | notTagged
  | noTag
  | unknownTag
  | wrongTag
  | unknownName
  | notInteger
  | malformedInteger
  | longInteger
  | fractional
  | notFinite
  | negative
  | notReal
  | malformedReal
  | broken (rule : Rule)
  deriving DecidableEq, Repr

/-- The short name of a cause. -/
def Cause.code : Cause → String
  | .missing => "missing"
  | .notText => "string_type"
  | .emptyText => "string_too_short"
  | .longText => "string_too_long"
  | .notList => "list_type"
  | .shortList => "too_short"
  | .notRecord => "model_type"
  | .notTagged => "model_attributes_type"
  | .noTag => "union_tag_not_found"
  | .unknownTag => "union_tag_invalid"
  | .wrongTag => "literal_error"
  | .unknownName => "enum"
  | .notInteger => "int_type"
  | .malformedInteger => "int_parsing"
  | .longInteger => "int_parsing_size"
  | .fractional => "int_from_float"
  | .notFinite => "finite_number"
  | .negative => "greater_than_equal"
  | .notReal => "float_type"
  | .malformedReal => "float_parsing"
  | .broken _ => "value_error"

/-- What a broken rule says. -/
def Rule.message : Rule → String
  | .backwards => "SourceRange.end must be >= SourceRange.start"
  | .containerCount kind count =>
    kind.text ++ " requires " ++ String.ofList (Text.decimal kind.containerCount) ++
      " container(s), got " ++ String.ofList (Text.decimal count)
  | .operandCount op => "Binary " ++ op.text ++ " requires exactly two operands"

/-- A fault of a value: the path from the root to the place, and the cause. -/
structure Issue where
  path : List Step
  cause : Cause
  deriving DecidableEq, Repr

/-- The outcome of a check: a value, or the faults found in document order. -/
abbrev Checked (α : Type) := Except (List Issue) α

/-! ## Combining checks -/

/-- One fault at this place. -/
def fault {α : Type} (cause : Cause) : Checked α := .error [⟨[], cause⟩]

/-- The check of a part, its faults seen from the whole. -/
def inside {α : Type} (step : Step) : Checked α → Checked α
  | .ok a => .ok a
  | .error issues => .error (issues.map fun i => ⟨step :: i.path, i.cause⟩)

/-- Both values, or the faults of both. -/
def both {α β : Type} : Checked α → Checked β → Checked (α × β)
  | .ok a, .ok b => .ok (a, b)
  | .ok _, .error ib => .error ib
  | .error ia, .ok _ => .error ia
  | .error ia, .error ib => .error (ia ++ ib)

/-- The member of a record at `key`, which has to be there, as `read` takes it. -/
def field {α : Type} (key : String) (read : Json → Checked α) (ms : List (String × Json)) :
    Checked α :=
  inside (.key key) (match Json.member? key ms with
    | some v => read v
    | none => fault .missing)

/-- A member that may be missing or null. -/
def optionalField {α : Type} (key : String) (read : Json → Checked α)
    (ms : List (String × Json)) : Checked (Option α) :=
  match Json.member? key ms with
  | none | some .null => .ok none
  | some v => inside (.key key) ((read v).map some)

/-! ## Single values -/

/-- Any text. -/
def text : Json → Checked String
  | .text s => .ok s
  | _ => fault .notText

/-- Text that is not empty. -/
def fullText (v : Json) : Checked String := do
  let s ← text v
  if s.isEmpty then fault .emptyText else .ok s

/-- Text of exactly one character. -/
def character (v : Json) : Checked Char := do
  match (← text v).toList with
  | [] => fault .emptyText
  | [c] => .ok c
  | _ => fault .longText

/-- One of a list of named values. -/
def oneOf {α : Type} (ofText? : String → Option α) : Json → Checked α
  | .text s => match ofText? s with
    | some a => .ok a
    | none => fault .unknownName
  | _ => fault .unknownName

/-- An integer that is given as text. -/
def integerText (s : String) : Checked Int :=
  match Literal.fieldInteger s with
  | .ok n => .ok n
  | .error .malformed => fault .malformedInteger
  | .error .tooLong => fault .longInteger

/-- The least size of a real number that is too large for an integer field. -/
def realLimit : Nat := Nat.pow 2 63

/-- An integer, a truth value as zero or one, a real number below `realLimit` in size and without
fraction, or text. -/
def integer : Json → Checked Int
  | .int n => .ok n
  | .bool b => .ok (if b then 1 else 0)
  | .real x => match x.toInt? with
    | some n => if n.natAbs < realLimit then .ok n else fault .longInteger
    | none => fault (if x.isFinite then .fractional else .notFinite)
  | .text s => integerText s
  | _ => fault .notInteger

/-- An integer that is not negative. -/
def natural (v : Json) : Checked Nat := do
  match ← integer v with
  | .ofNat n => .ok n
  | .negSucc _ => fault .negative

/-- The faults of a value that is neither an integer nor a real number. -/
def neither {α : Type} (asInt asReal : Cause) : Checked α :=
  .error [⟨[.key "int"], asInt⟩, ⟨[.key "float"], asReal⟩]

/-- A number: an integer or a real number as it is, a truth value as an integer, or text. -/
def number : Json → Checked Number
  | .int n => .ok (.int n)
  | .real x => .ok (.real x)
  | .bool b => .ok (.int (if b then 1 else 0))
  | .text s => match Literal.fieldInteger s, Literal.fieldReal? s with
    | .ok n, _ => .ok (.int n)
    | .error _, some x => .ok (.real x)
    | .error .malformed, none => neither .malformedInteger .malformedReal
    | .error .tooLong, none => neither .longInteger .malformedReal
  | _ => neither .notInteger .notReal

end Schema

end PlanarMath
