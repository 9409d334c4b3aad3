import PlanarMath.Json.Basic
import PlanarMath.Text.Quoted

/-!
# Writing JSON

Three layouts of the same text: compact, on one line with spaces, and indented by two spaces a level
with one item a line.  Only the double quote, the backslash and the control characters below U+0020 are
escaped, so text of every script is written as it is and no written text holds a raw line break of its
own.
-/

namespace PlanarMath.Json

/-! ## Strings -/

/-- One character inside a JSON string. -/
def escapedChar (c : Char) : List Char :=
  if c = '"' then ['\\', '"']
  else if c = '\\' then ['\\', '\\']
  else if c = '\n' then ['\\', 'n']
  else if c = '\r' then ['\\', 'r']
  else if c = '\t' then ['\\', 't']
  else if c = '\x08' then ['\\', 'b']
  else if c = '\x0c' then ['\\', 'f']
  else if c.toNat < 0x20 then '\\' :: 'u' :: Text.hexDigits 4 c.toNat
  else [c]

/-- A string between double quotes. -/
def writeText (s : String) : List Char := '"' :: s.toList.flatMap escapedChar ++ ['"']

/-! ## Values -/

/-- A real number; the values without a numeral of their own are written by name. -/
def writeReal (x : Binary64) : List Char :=
  match x with
  | .nan => "NaN".toList
  | .infinite false => "Infinity".toList
  | .infinite true => "-Infinity".toList
  | x => x.text.toList

/-- How the parts of a value are set off. -/
structure Style where
  /-- What stands between a key and its value. -/
  colon : List Char
  /-- What stands after the bracket that opens a value at a level. -/
  first : Nat → List Char
  /-- What stands between two items of a value at a level. -/
  next : Nat → List Char
  /-- What stands before the bracket that closes a value at a level. -/
  last : Nat → List Char

/-- A line break and the indentation of a level. -/
def newline (level : Nat) : List Char := '\n' :: List.replicate (2 * level) ' '

/-- No blanks at all. -/
def compact : Style := ⟨[':'], fun _ => [], fun _ => [','], fun _ => []⟩

/-- One line with a space after every comma and colon. -/
def spaced : Style := ⟨[':', ' '], fun _ => [], fun _ => [',', ' '], fun _ => []⟩

/-- One item a line, indented by two spaces a level. -/
def indented : Style :=
  ⟨[':', ' '], fun level => newline (level + 1), fun level => ',' :: newline (level + 1), newline⟩

mutual

/-- The text of a value that stands at a level, in front of `tail`. -/
def write (style : Style) (level : Nat) (v : Json) (tail : List Char) : List Char :=
  match v with
  | .null => "null".toList ++ tail
  | .bool b => (if b then "true".toList else "false".toList) ++ tail
  | .int n => Text.signedDecimal n ++ tail
  | .real x => writeReal x ++ tail
  | .text s => writeText s ++ tail
  | .array [] => '[' :: ']' :: tail
  | .array (v :: vs) =>
    '[' :: style.first level ++ write style (level + 1) v
      (writeItems style level vs (style.last level ++ ']' :: tail))
  | .object [] => '{' :: '}' :: tail
  | .object ((k, v) :: ms) =>
    '{' :: style.first level ++ writeText k ++ style.colon ++ write style (level + 1) v
      (writeMembers style level ms (style.last level ++ '}' :: tail))

/-- The text of the items of an array after the first. -/
def writeItems (style : Style) (level : Nat) (vs : List Json) (tail : List Char) : List Char :=
  match vs with
  | [] => tail
  | v :: vs => style.next level ++ write style (level + 1) v (writeItems style level vs tail)

/-- The text of the members of an object after the first. -/
def writeMembers (style : Style) (level : Nat) (ms : List (String × Json)) (tail : List Char) :
    List Char :=
  match ms with
  | [] => tail
  | (k, v) :: ms =>
    style.next level ++ writeText k ++ style.colon ++ write style (level + 1) v
      (writeMembers style level ms tail)

end

/-- The text of a value in a style. -/
def toText (style : Style) (v : Json) : String := String.ofList (write style 0 v [])

/-- The text of a value in a style, if no integer in it is too long to be written. -/
def toText? (style : Style) (v : Json) : Option String := if v.isShort then some (toText style v) else none

end PlanarMath.Json
