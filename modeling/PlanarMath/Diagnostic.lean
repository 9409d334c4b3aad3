import PlanarMath.Token

/-!
# Diagnostics

What reading a layout has to complain about.  A diagnostic has a cause and the range of the layout that
it is about; code, message and details are read off the cause.
-/

namespace PlanarMath

/-- Why a part of a layout cannot be read. -/
inductive Complaint where
  /-- No rule goes on with what stands here. -/
  | unexpected (found : Mark.Kind)
  /-- A function name is raised to something other than minus one. -/
  | ambiguousExponent
  /-- A construct is nested deeper than the limit. -/
  | tooDeep (limit : Int)
  /-- A run of digits, so many characters long, has no value. -/
  | invalidNumber (length : Int)
  deriving DecidableEq, Repr

namespace Complaint

/-- The short name of a complaint. -/
def code : Complaint → String
  | .unexpected _ => "unexpected_token"
  | .ambiguousExponent => "ambiguous_function_exponent"
  | .tooDeep _ => "nesting_too_deep"
  | .invalidNumber _ => "invalid_number"

/-- The wording of a complaint, if it can be worded. -/
def message : Complaint → String
  | .unexpected found => "unexpected " ++ found.describe
  | .ambiguousExponent => "function exponentiation is ambiguous; only -1 (inverse) is allowed"
  | .tooDeep limit => "layout nesting exceeds the limit of " ++ (Number.int limit).text
  | .invalidNumber length =>
    "number literal of " ++ (Number.int length).text ++ " characters cannot be converted"

/-- Whether the number of a complaint, if there is one, can be worded. -/
def isWordable : Complaint → Bool
  | .tooDeep n | .invalidNumber n => Literal.isShort n
  | .unexpected _ | .ambiguousExponent => true

/-- What else there is to say, as a record. -/
def details? : Complaint → Option Json
  | .unexpected found =>
    some (.object [("kind", .text found.text), ("code_point", .ofOption .text found.codePoint?)])
  | .ambiguousExponent => none
  | .tooDeep limit => some (.object [("limit", .int limit)])
  | .invalidNumber length => some (.object [("length", .int length)])

end Complaint

/-- A complaint about a range of a layout. -/
structure Diagnostic where
  complaint : Complaint
  range : Range
  deriving DecidableEq, Repr

namespace Diagnostic

/-- What stands here cannot be read on. -/
def unexpected (m : Mark) : Diagnostic := ⟨.unexpected m.kind, m.range⟩

/-- The record of a diagnostic. -/
def toJson (d : Diagnostic) : Json :=
  .object [("code", .text d.complaint.code), ("message", .text d.complaint.message),
    ("range", d.range.toJson), ("details", .ofOption id d.complaint.details?)]

/-- A diagnostic as one line of text. -/
def line (d : Diagnostic) : String :=
  d.complaint.code ++ " [" ++ String.ofList (Text.decimal d.range.start) ++ ":" ++
    String.ofList (Text.decimal d.range.stop) ++ "]: " ++ d.complaint.message

end Diagnostic

end PlanarMath
