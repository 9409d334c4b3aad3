import PlanarMath.Number.Binary64
import PlanarMath.Text.Blank
import PlanarMath.Text.Digit

/-!
# Numbers in text

Two notations for numbers.  A *literal* is what a document holds: digits of any script, blanks around
it, single underscores between digits.  A *field* is a number given as text where a record wants a
number: ASCII digits only, with looser rules for underscores, and for a minus sign after zeros.

    integer? " -1_000 " = some (-1000)        real? "1_0.5" = some 10.5
    fieldInteger "5.00" = ok 5                fieldReal? "1_.5" = some 1.5
    fieldInteger "0__5" = ok 5                fieldInteger "00-5" = ok (-5)
-/

namespace PlanarMath.Literal

open Text

/-! ## Parts of a number -/

/-- The sign in front of a text, true for minus, and what follows it. -/
def signed : List Char → Bool × List Char
  | '-' :: rest => (true, rest)
  | '+' :: rest => (false, rest)
  | cs => (false, cs)

/-- The digits of a text that holds at least one and nothing else. -/
def digits? (cs : List Char) : Option (List Nat) :=
  if cs.isEmpty then none else cs.mapM asciiDigit?

/-- The text without its underscores, each of which has to stand between two digits; `afterDigit`
tells whether the text follows one. -/
def ungrouped? (afterDigit : Bool) : List Char → Option (List Char)
  | [] => some []
  | '_' :: rest =>
    if afterDigit && rest.head?.any isAsciiDigit then ungrouped? false rest else none
  | c :: rest => (ungrouped? (isAsciiDigit c) rest).map (c :: ·)

/-- An integer with the given sign. -/
def ofSign (negative : Bool) (n : Nat) : Int := if negative then -n else n

/-- The power of ten after the exponent mark, zero when the text is empty. -/
def exponent? : List Char → Option Int
  | [] => some 0
  | c :: rest =>
    if c = 'e' ∨ c = 'E' then
      let (negative, cs) := signed rest
      (digits? cs).map fun ds => ofSign negative (ofDigits ds)
    else none

/-- The digits in front of a text as numbers. -/
def leadingDigits (cs : List Char) : List Nat := (cs.takeWhile isAsciiDigit).filterMap asciiDigit?

/-- The magnitude `m · 10^k` of a decimal with an optional point and exponent, as `(m, k)`. -/
def decimal? (cs : List Char) : Option (Nat × Int) :=
  let whole := leadingDigits cs
  let rest := cs.dropWhile isAsciiDigit
  let (fraction, rest) := match rest with
    | '.' :: rest => (leadingDigits rest, rest.dropWhile isAsciiDigit)
    | _ => ([], rest)
  if whole.isEmpty && fraction.isEmpty then none
  else (exponent? rest).map fun k => (ofDigits (whole ++ fraction), k - fraction.length)

/-- A decimal with a sign, or a name of an infinity or of what is not a number in any case. -/
def binary64? (cs : List Char) : Option Binary64 :=
  let (negative, body) := signed cs
  let name := body.map Char.toLower
  if name = "inf".toList ∨ name = "infinity".toList then some (.infinite negative)
  else if name = "nan".toList then some .nan
  else (decimal? body).map fun (m, k) => Binary64.ofDecimal negative m k

/-! ## Literals of a document -/

/-- A character as literals see it: digits of every script are ASCII digits, and a blank beyond ASCII
is a space. -/
def plainChar (c : Char) : Char :=
  if c.toNat < 128 then c
  else if isBlank c then ' '
  else match decimalDigit? c with
    | some d => digitChar d
    | none => c

/-- The text of a literal, without the blanks around it. -/
def plain (s : String) : List Char := trim isAsciiBlank (s.toList.map plainChar)

/-- The most digits that an integer in text may have. -/
def digitLimit : Nat := 4300

/-- Whether an integer has no more digits than can be read or written. -/
def isShort (n : Int) : Bool := (decimal n.natAbs).length ≤ digitLimit

/-- An integer literal of at most `digitLimit` digits, leading zeros included. -/
def integer? (s : String) : Option Int := do
  let (negative, body) := signed (plain s)
  let ds ← digits? (← ungrouped? false body)
  if ds.length ≤ digitLimit then some (ofSign negative (ofDigits ds)) else none

/-- A literal with a point, an exponent or the name of a special value. -/
def real? (s : String) : Option Binary64 := do
  binary64? (← ungrouped? false (plain s))

/-! ## Fields of a record -/

/-- Why a text is no integer for a field. -/
inductive FieldFault where
  | malformed
  | tooLong
  deriving DecidableEq, Repr

/-- Whether two underscores stand side by side. -/
def hasDoubleUnderscore : List Char → Bool
  | '_' :: '_' :: _ => true
  | _ :: rest => hasDoubleUnderscore rest
  | [] => false

/-- The text without underscores, none of which stands at an end or beside another. -/
def looselyUngrouped? (cs : List Char) : Option (List Char) :=
  if cs.head? = some '_' ∨ cs.getLast? = some '_' ∨ hasDoubleUnderscore cs then none
  else some (cs.filter (· != '_'))

/-- An integer in plain form: a minus sign or none, and at most `digitLimit` digits, of which the first
is no zero unless it is the only one.  Too many digits are a fault whatever comes after them. -/
def plainInteger (cs : List Char) : Except FieldFault Int :=
  let (negative, body) := match cs with
    | '-' :: rest => (true, rest)
    | cs => (false, cs)
  let ds := leadingDigits body
  if body.head? = some '0' then
    if body = ['0'] then .ok 0 else .error .malformed
  else if digitLimit < ds.length then .error .tooLong
  else if ds.isEmpty ∨ ds.length < body.length then .error .malformed
  else .ok (ofSign negative (ofDigits ds))

/-- The text without a fraction that has only zeros, but at least one. -/
def withoutFraction (cs : List Char) : List Char :=
  match cs.dropWhile (· != '.') with
  | '.' :: '0' :: rest => if rest.all (· == '0') then cs.takeWhile (· != '.') else cs
  | _ => cs

/-- The text without the zeros in front and the underscores among them, if a digit or a minus sign
comes next.  Of zeros and underscores alone the last one stays. -/
def withoutZeros? : List Char → Option (List Char)
  | [] => none
  | c :: rest =>
    if '1' ≤ c ∧ c ≤ '9' then some (c :: rest)
    else if c = '0' then
      match rest.dropWhile (fun d => d = '0' ∨ d = '_') with
      | [] => some [rest.getLast?.getD c]
      | d :: rest => if isAsciiDigit d ∨ d = '-' then some (d :: rest) else none
    else none

/-- A loosely written integer in plain form: trimmed, without plus sign, fraction and zeros in front,
and then without underscores. -/
def tidied? (cs : List Char) : Option (List Char) :=
  match withoutFraction (trim isWhiteSpace cs) with
  | '-' :: rest => (withoutZeros? rest).bind fun body => looselyUngrouped? ('-' :: body)
  | '+' :: rest => (withoutZeros? rest).bind looselyUngrouped?
  | cs => (withoutZeros? cs).bind looselyUngrouped?

/-- An integer for a field: in plain form, or else loosely written.  Only the text as it is given can
be too long. -/
def fieldInteger (s : String) : Except FieldFault Int :=
  match plainInteger s.toList with
  | .error .malformed => match (tidied? s.toList).map plainInteger with
    | some (.ok n) => .ok n
    | _ => .error .malformed
  | r => r

/-- A real number for a field: trimmed, or else with underscores anywhere inside. -/
def fieldReal? (s : String) : Option Binary64 :=
  match binary64? (trim isWhiteSpace s.toList) with
  | some x => some x
  | none => (looselyUngrouped? s.toList).bind binary64?

end PlanarMath.Literal
