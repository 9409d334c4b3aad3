import PlanarMath.Number.Binary64
import PlanarMath.Text.Digit

/-!
# Shortest decimal text of a binary value

The text of a finite value has the fewest digits that read back as the value.  The reals that round to
`m · 2^q` form an interval around it, which holds its ends exactly when `m` is even.  The digits are
those of the multiple of a power of ten in that interval, for the greatest power that has one; of two
such multiples the nearer one is taken, and of two equally near ones the even one.

The text is positional when the decimal exponent is at least `-4` and below `16`, and then always has a
point; otherwise it is scientific, with a signed exponent of at least two digits.
-/

namespace PlanarMath.Binary64

/-! ## Digits -/

/-- The numbers that round to one value, in units of `2^unit`: the value is `middle`, the ends are
`low` and `high`, and `closed` tells whether the ends belong. -/
structure Interval where
  low : Nat
  middle : Nat
  high : Nat
  unit : Int
  closed : Bool

/-- The interval of `m · 2^q`: half a step to each side, and a quarter below a power of two, where the
step below is half as wide. -/
def interval (m : Nat) (q : Int) : Interval :=
  let below := if m = Nat.pow 2 52 ∧ leastExponent < q then 1 else 2
  ⟨4 * m - below, 4 * m, 4 * m + 2, q - 2, m % 2 == 0⟩

/-- Whether `a` is below `b`, or equal to it where the interval holds its ends. -/
def Interval.admits (i : Interval) (a b : Nat) : Bool := a < b || (i.closed && a == b)

/-- The multiple of `10^power` in the interval that lies nearest to the middle, the even one of two,
as the factor of the power. -/
def Interval.multiple? (i : Interval) (power : Int) : Option Nat :=
  let step := Nat.pow 10 power.toNat * Nat.pow 2 (-i.unit).toNat
  let unit := Nat.pow 2 i.unit.toNat * Nat.pow 10 (-power).toNat
  let below := i.middle * unit / step
  let above := below + 1
  let belowFits := i.admits (i.low * unit) (below * step)
  let aboveFits := i.admits (above * step) (i.high * unit)
  let toBelow := i.middle * unit - below * step
  let toAbove := above * step - i.middle * unit
  if belowFits && (!aboveFits || toBelow < toAbove || (toBelow == toAbove && below % 2 == 0)) then
    some below
  else if aboveFits then some above
  else none

/-- The first of `count` powers of ten, going down from `power`, that has a multiple in the interval,
with the factor. -/
def Interval.coarsest (i : Interval) : (count : Nat) → (power : Int) → Nat × Int
  | 0, power => (0, power)
  | count + 1, power =>
    match i.multiple? power with
    | some factor => (factor, power)
    | none => i.coarsest count (power - 1)

/-- The decimal `(c, g)`, standing for `c · 10^g`, with the fewest digits that reads back as `m · 2^q`.
The search starts above the value, and seventeen digits always suffice. -/
def shortest (m : Nat) (q : Int) : Nat × Int :=
  (interval m q).coarsest 24 (((m.log2 : Int) + q) * 30103 / 100000 + 2)

/-! ## Text -/

/-- A decimal written with a point: `digits` with the point after the first `place` of them. -/
def positional (digits : List Char) (place : Int) : List Char :=
  if place ≤ 0 then '0' :: '.' :: List.replicate (-place).toNat '0' ++ digits
  else if digits.length ≤ place.toNat then
    digits ++ List.replicate (place.toNat - digits.length) '0' ++ ['.', '0']
  else digits.take place.toNat ++ '.' :: digits.drop place.toNat

/-- A decimal written as one digit before the point and a power of ten. -/
def scientific (digits : List Char) (exponent : Int) : List Char :=
  let size := Text.decimal exponent.natAbs
  digits.take 1 ++ (if digits.length ≤ 1 then [] else '.' :: digits.drop 1) ++
    'e' :: (if exponent < 0 then '-' else '+') :: (if size.length < 2 then '0' :: size else size)

/-- The text of a finite magnitude. -/
def magnitude (m : Nat) (q : Int) : List Char :=
  if m = 0 then ['0', '.', '0']
  else
    let (factor, power) := shortest m q
    let digits := Text.decimal factor
    let exponent := digits.length + power - 1
    if -4 ≤ exponent ∧ exponent < 16 then positional digits (exponent + 1)
    else scientific digits exponent

/-- The shortest text that reads back as the value. -/
def text : Binary64 → String
  | .nan => "nan"
  | .infinite s => if s then "-inf" else "inf"
  | .finite s m q => String.ofList (if s then '-' :: magnitude m q else magnitude m q)

end PlanarMath.Binary64
