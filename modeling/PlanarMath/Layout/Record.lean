import PlanarMath.Json.Reader
import PlanarMath.Json.Writer
import PlanarMath.Layout.Basic

/-!
# Layouts as JSON

A row is a record with its `children`; an element carries the tag `element`, which is `char` for a
glyph and `special` for a construct.  Reading checks every place and reports every fault; members that
are not asked for are ignored, and a row without `children` is empty.
-/

namespace PlanarMath.Layout

open Schema

/-! ## Writing -/

mutual

/-- The record of an element. -/
def Element.toJson : Element → Json
  | .glyph c => .object [("element", .text "char"), ("code_point", .text c.toString)]
  | .fraction numerator denominator =>
    .object [("element", .text "special"), ("kind", .text Kind.fraction.text),
      ("containers", .array [.object [("children", .array (Row.childrenToJson numerator))],
        .object [("children", .array (Row.childrenToJson denominator))]])]
  | .framed frame body =>
    .object [("element", .text "special"), ("kind", .text frame.kind.text),
      ("containers", .array [.object [("children", .array (Row.childrenToJson body))]])]

/-- The records of the elements of a row. -/
def Row.childrenToJson : List Element → List Json
  | [] => []
  | e :: es => e.toJson :: Row.childrenToJson es

end

/-- The record of a row. -/
def Row.toJson (r : Row) : Json := .object [("children", .array (Row.childrenToJson r))]

/-- The content of a layout file. -/
def Row.toText (r : Row) : String := Json.toText Json.indented r.toJson

/-! ## Reading -/

/-- A glyph from the members of its record. -/
def glyphOfMembers (ms : List (String × Json)) : Checked Element :=
  (field "code_point" character ms).map .glyph

/-- A construct from its kind and its containers, once both are sound. -/
def constructOf (kind : Checked Kind) (containers : Checked (List Row)) : Checked Element :=
  (both kind containers).bind fun (k, rows) => Element.ofContainers k rows

mutual

/-- The row of a record. -/
def Row.ofJson : Json → Checked Row
  | .object ms => rowOfMembers ms
  | _ => fault .notRecord

/-- The row of the first member named `children`. -/
def rowOfMembers : List (String × Json) → Checked Row
  | [] => .ok []
  | (k, v) :: ms => if k = "children" then inside (.key k) (childrenOfJson v) else rowOfMembers ms

/-- The elements of a list. -/
def childrenOfJson : Json → Checked (List Element)
  | .array items => elementsOfJson 0 items
  | _ => fault .notList

/-- The elements of the items from a position on. -/
def elementsOfJson (i : Nat) : List Json → Checked (List Element)
  | [] => .ok []
  | v :: vs =>
    (both (inside (.index i) (Element.ofJson v)) (elementsOfJson (i + 1) vs)).map fun (e, es) =>
      e :: es

/-- The element of a tagged record. -/
def Element.ofJson : Json → Checked Element
  | .object ms =>
    match Json.member? "element" ms with
    | none => fault .noTag
    | some (.text "char") => inside (.key "char") (glyphOfMembers ms)
    | some (.text "special") =>
      inside (.key "special") (constructOf (field "kind" (oneOf Kind.ofText?) ms)
        (inside (.key "containers") (containersOfMembers ms)))
    | some _ => fault .unknownTag
  | _ => fault .notTagged

/-- The containers of the first member named `containers`, which has to be there. -/
def containersOfMembers : List (String × Json) → Checked (List Row)
  | [] => fault .missing
  | (k, v) :: ms => if k = "containers" then containersOfJson v else containersOfMembers ms

/-- The containers of a list. -/
def containersOfJson : Json → Checked (List Row)
  | .array items => rowsOfJson 0 items
  | _ => fault .notList

/-- The containers of the items from a position on. -/
def rowsOfJson (i : Nat) : List Json → Checked (List Row)
  | [] => .ok []
  | v :: vs =>
    (both (inside (.index i) (Row.ofJson v)) (rowsOfJson (i + 1) vs)).map fun (r, rs) => r :: rs

end

/-! ## Files -/

/-- Why a layout file cannot be used. -/
inductive FileError where
  /-- Its text is not JSON. -/
  | unreadable (e : Json.ReadError)
  /-- Its content is no layout. -/
  | invalid (issues : List Issue)
  deriving DecidableEq, Repr

/-- The layout of a file's content. -/
def Row.ofText (s : String) : Except FileError Row :=
  match Json.ofText s with
  | .error e => .error (.unreadable e)
  | .ok v =>
    match Row.ofJson v with
    | .error issues => .error (.invalid issues)
    | .ok r => .ok r

end PlanarMath.Layout
