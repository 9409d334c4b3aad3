import PlanarMath.Json.Reader

/-!
# The grammar of JSON

Which texts are written as which values, said without the reader: what a text looks like, how long its integers
are and what halves its strings hold does not matter here.

    value     a name | a numeral | " string " | [ blanks ] | [ items ] | { blanks } | { members }
    numeral   sign? whole fraction? exponent?           whole: no zero in front of another digit
    string    plain characters, short escapes, and units of four hexadecimal digits
    items     values with blanks around them and commas between them
    members   "key" : value, likewise

Numbers and strings are taken part by part: a numeral is an integer if it has neither fraction nor exponent, and
halves that stand side by side in a string are joined.
-/

namespace PlanarMath.Json

open Text

/-! ## Blanks and digits -/

/-- Nothing but blanks. -/
def AreBlank (cs : List Char) : Prop := ∀ c ∈ cs, isBlank c

/-- Nothing but digits, one at least. -/
def AreDigits (cs : List Char) : Prop := cs ≠ [] ∧ ∀ c ∈ cs, isAsciiDigit c

/-! ## Numerals -/

/-- A point with digits, or nothing. -/
def IsFraction (cs : List Char) : Prop := cs = [] ∨ ∃ ds, cs = '.' :: ds ∧ AreDigits ds

/-- An exponent mark with a sign or none and digits, or nothing. -/
def IsExponent (cs : List Char) : Prop :=
  cs = [] ∨ ∃ e sign ds, cs = e :: (sign ++ ds) ∧ (e = 'e' ∨ e = 'E') ∧
    (sign = [] ∨ sign = ['+'] ∨ sign = ['-']) ∧ AreDigits ds

namespace Numeral

/-- A numeral with its parts in order; the first of its digits is no zero unless it is the only one. -/
structure IsWritten (n : Numeral) : Prop where
  whole : AreDigits n.whole
  zero : n.whole.head? = some '0' → n.whole = ['0']
  fraction : IsFraction n.fraction
  exponent : IsExponent n.exponent

/-- A numeral without fraction and exponent. -/
def IsInteger (n : Numeral) : Prop := n.fraction = [] ∧ n.exponent = []

/-- The integer that the digits and the sign of a numeral stand for. -/
def integer (n : Numeral) : Int := Literal.ofSign n.negative (ofDigits (n.whole.filterMap asciiDigit?))

end Numeral

/-! ## Strings -/

/-- What stands between the quotes of a string, and its code points, one for each character or escape. -/
inductive IsString : List Char → Points → Prop
  | nil : IsString [] []
  | plain {c cs ps} : c ≠ '"' → c ≠ '\\' → 0x20 ≤ c.toNat → IsString cs ps →
      IsString (c :: cs) (.ofChar c :: ps)
  | escape {e c cs ps} : escape? e = some c → IsString cs ps → IsString ('\\' :: e :: cs) (.ofChar c :: ps)
  | unit {a b c d point cs ps} : unit? [a, b, c, d] = some point → IsString cs ps →
      IsString ('\\' :: 'u' :: a :: b :: c :: d :: cs) (point :: ps)

/-! ## Values -/

mutual

/-- A text is written as a value, without blanks around it. -/
inductive IsValue : List Char → Raw → Prop
  | name {cs v} : (cs, v) ∈ names → IsValue cs v
  | int {n : Numeral} : n.IsWritten → n.IsInteger → IsValue n.chars (.int n.integer)
  | real {n : Numeral} {x} : n.IsWritten → ¬n.IsInteger → Literal.binary64? n.chars = some x →
      IsValue n.chars (.real x)
  | text {cs ps} : IsString cs ps → IsValue ('"' :: (cs ++ ['"'])) (.text ps.pair)
  | noItems {blanks} : AreBlank blanks → IsValue ('[' :: (blanks ++ [']'])) (.array [])
  | items {cs vs} : AreItems cs vs → IsValue ('[' :: (cs ++ [']'])) (.array vs)
  | noMembers {blanks} : AreBlank blanks → IsValue ('{' :: (blanks ++ ['}'])) (.object [])
  | members {cs ms} : AreMembers cs ms → IsValue ('{' :: (cs ++ ['}'])) (.object ms)

/-- A text is written as the items of an array, one at least. -/
inductive AreItems : List Char → List Raw → Prop
  | last {before cs after v} : AreBlank before → IsValue cs v → AreBlank after →
      AreItems (before ++ (cs ++ after)) [v]
  | more {before cs after rest v vs} : AreBlank before → IsValue cs v → AreBlank after → AreItems rest vs →
      AreItems (before ++ (cs ++ (after ++ ',' :: rest))) (v :: vs)

/-- A text is written as the members of an object, one at least. -/
inductive AreMembers : List Char → List (Points × Raw) → Prop
  | last {before key colon value cs after ps v} : AreBlank before → IsString key ps → AreBlank colon →
      AreBlank value → IsValue cs v → AreBlank after →
      AreMembers (before ++ '"' :: (key ++ '"' :: (colon ++ ':' :: (value ++ (cs ++ after))))) [(ps.pair, v)]
  | more {before key colon value cs after rest ps v ms} : AreBlank before → IsString key ps → AreBlank colon →
      AreBlank value → IsValue cs v → AreBlank after → AreMembers rest ms →
      AreMembers (before ++ '"' :: (key ++ '"' :: (colon ++ ':' :: (value ++ (cs ++ (after ++ ',' :: rest))))))
        ((ps.pair, v) :: ms)

end

/-- A text is written as a value, with blanks around it. -/
def Denotes (s : String) (v : Raw) : Prop :=
  ∃ before cs after, s.toList = before ++ (cs ++ after) ∧ AreBlank before ∧ IsValue cs v ∧ AreBlank after

end PlanarMath.Json
