import PlanarMath.Json.Basic
import PlanarMath.Text.Points

/-!
# Values as they are written

What a text tells of a value: the members of an object as they are written, also those under a key that is
written again, texts of code points, and integers of any length.

    {"a": 1, "a": "\ud800"}      two members under one key, the second a text with a half

As a value (`Raw.toJson`) an object has each key once, with what is written last.  A text with a half fits
no field: as a value it is `null`, and as a key it is not seen.
-/

namespace PlanarMath.Json

open Text

/-- A value as it is written. -/
inductive Raw where
  | null
  | bool (b : Bool)
  | int (n : Int)
  | real (x : Binary64)
  | text (s : Points)
  | array (items : List Raw)
  | object (members : List (Points × Raw))
  deriving Inhabited

namespace Raw

mutual

/-- Whether every integer of a value has no more digits than can be read. -/
def isShort : Raw → Bool
  | .int n => Literal.isShort n
  | .array items => areShort items
  | .object members => membersAreShort members
  | _ => true

/-- Whether all items of a list are such values. -/
def areShort : List Raw → Bool
  | [] => true
  | v :: vs => v.isShort && areShort vs

/-- Whether the values of all members are such values. -/
def membersAreShort : List (Points × Raw) → Bool
  | [] => true
  | (_, v) :: ms => v.isShort && membersAreShort ms

end

mutual

/-- The value that is written. -/
def toJson : Raw → Json
  | .null => .null
  | .bool b => .bool b
  | .int n => .int n
  | .real x => .real x
  | .text s => ofOption .text s.toString?
  | .array items => .array (itemsToJson items)
  | .object members => .object (membersToJson [] members)

/-- The values of a list. -/
def itemsToJson : List Raw → List Json
  | [] => []
  | v :: vs => v.toJson :: itemsToJson vs

/-- The members of an object after those that are known. -/
def membersToJson (known : List (String × Json)) : List (Points × Raw) → List (String × Json)
  | [] => known
  | (k, v) :: ms => match k.toString? with
    | some key => membersToJson (put key v.toJson known) ms
    | none => membersToJson known ms

end

end Raw

end PlanarMath.Json
