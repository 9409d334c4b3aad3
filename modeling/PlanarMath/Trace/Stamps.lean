import PlanarMath.Text.Quoted
import PlanarMath.Text.Digit
import PlanarMath.Trace

/-!
# Stamps of events

Identities are random numbers of 128 bits, written as 32 hexadecimal digits with the version and the
variant of a random identity in their places.  Times are those of the Gregorian calendar in universal
time, with microseconds unless there are none.
-/

namespace PlanarMath.Trace

/-- A number in decimal, with leading zeros up to a width. -/
def padded (width n : Nat) : List Char :=
  let ds := Text.decimal n
  List.replicate (width - ds.length) '0' ++ ds

/-- The year, month and day that lie a number of days after 1970-01-01.  Years are counted from March
on, in eras of 400 years. -/
def civilDate (days : Int) : Int × Nat × Nat :=
  let shifted := days + 719468
  let era := shifted.fdiv 146097
  let day := (shifted.fmod 146097).toNat
  let year := (day - day / 1460 + day / 36524 - day / 146096) / 365
  let dayOfYear := day - (365 * year + year / 4 - year / 100)
  let month := (5 * dayOfYear + 2) / 153
  let date := dayOfYear - (153 * month + 2) / 5 + 1
  let month := if month < 10 then month + 3 else month - 9
  (year + era * 400 + (if month ≤ 2 then 1 else 0), month, date)

/-- The time that lies a number of microseconds after the start of 1970, in universal time. -/
def timeText (microseconds : Int) : String :=
  let seconds := microseconds.fdiv 1000000
  let fraction := (microseconds.fmod 1000000).toNat
  let (year, month, day) := civilDate (seconds.fdiv 86400)
  let second := (seconds.fmod 86400).toNat
  String.ofList (padded 4 year.toNat ++ '-' :: padded 2 month ++ '-' :: padded 2 day ++
    'T' :: padded 2 (second / 3600) ++ ':' :: padded 2 (second / 60 % 60) ++
    ':' :: padded 2 (second % 60) ++
    (if fraction = 0 then [] else '.' :: padded 6 fraction) ++ ['Z'])

/-- The identity made of a number of 128 bits. -/
def idText (n : Nat) : String :=
  let ds := Text.hexDigits 32 n
  let variant := Text.hexDigit (8 + n / Nat.pow 2 60 % 4)
  String.ofList (ds.take 12 ++ '4' :: (ds.drop 13).take 3 ++ variant :: ds.drop 17)

/-- The stamps of the events of one run: one time, and identities that count up from a random one. -/
def stamps (seed : Nat) (microseconds : Int) (i : Nat) : Stamp :=
  ⟨idText (seed + i), timeText microseconds⟩

end PlanarMath.Trace
