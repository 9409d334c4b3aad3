/-!
# Decimal digits

The characters that stand for a digit in positional decimal notation, in every script.  They come in
rows of ten consecutive characters, so a row is known by its zero.
-/

namespace PlanarMath.Text

/-- The zeros of the rows of decimal digits. -/
def digitZeros : List Nat :=
  [0x30, 0x660, 0x6F0, 0x7C0, 0x966, 0x9E6, 0xA66, 0xAE6, 0xB66, 0xBE6, 0xC66, 0xCE6, 0xD66,
   0xDE6, 0xE50, 0xED0, 0xF20, 0x1040, 0x1090, 0x17E0, 0x1810, 0x1946, 0x19D0, 0x1A80, 0x1A90,
   0x1B50, 0x1BB0, 0x1C40, 0x1C50, 0xA620, 0xA8D0, 0xA900, 0xA9D0, 0xA9F0, 0xAA50, 0xABF0,
   0xFF10, 0x104A0, 0x10D30, 0x11066, 0x110F0, 0x11136, 0x111D0, 0x112F0, 0x11450, 0x114D0,
   0x11650, 0x116C0, 0x11730, 0x118E0, 0x11950, 0x11C50, 0x11D50, 0x11DA0, 0x16A60, 0x16AC0,
   0x16B50, 0x1D7CE, 0x1D7D8, 0x1D7E2, 0x1D7EC, 0x1D7F6, 0x1E140, 0x1E2F0, 0x1E950, 0x1FBF0]

/-- The digit that a character stands for in its script. -/
def decimalDigit? (c : Char) : Option Nat :=
  (digitZeros.find? fun low => low ≤ c.toNat && c.toNat ≤ low + 9).map (c.toNat - ·)

/-- The value of one of the ten ASCII digits. -/
def asciiDigit? (c : Char) : Option Nat :=
  if '0' ≤ c ∧ c ≤ '9' then some (c.toNat - '0'.toNat) else none

/-- Whether the character is one of the ten ASCII digits. -/
def isAsciiDigit (c : Char) : Bool := '0' ≤ c && c ≤ '9'

/-- The ASCII digit of a value below ten. -/
def digitChar (n : Nat) : Char := Char.ofNat ('0'.toNat + n)

/-- The number that a list of digits stands for, the most significant digit first. -/
def ofDigits (ds : List Nat) : Nat := ds.foldl (fun n d => 10 * n + d) 0

/-- The decimal digits of a number in front of `tail`, the most significant first. -/
def digitsOnto (n : Nat) (tail : List Nat) : List Nat :=
  if n < 10 then n :: tail else digitsOnto (n / 10) (n % 10 :: tail)
termination_by n
decreasing_by omega

/-- The decimal digits of a number, the most significant first; zero has the one digit `0`. -/
def toDigits (n : Nat) : List Nat := digitsOnto n []

/-- A number in plain decimal. -/
def decimal (n : Nat) : List Char := (toDigits n).map digitChar

/-- An integer in plain decimal, with a minus sign when it is negative. -/
def signedDecimal : Int → List Char
  | .ofNat n => decimal n
  | .negSucc n => '-' :: decimal (n + 1)

/-! ## Lemmas -/

theorem digitsOnto_append (n : Nat) (xs ys : List Nat) :
    digitsOnto n (xs ++ ys) = digitsOnto n xs ++ ys := by
  fun_induction digitsOnto n xs with
  | case1 n xs h => rw [digitsOnto, if_pos h]; rfl
  | case2 n xs h ih => rw [digitsOnto, if_neg h, ← List.cons_append, ih]

theorem toDigits_of_lt {n : Nat} (h : n < 10) : toDigits n = [n] := by
  rw [toDigits, digitsOnto, if_pos h]

theorem toDigits_of_le {n : Nat} (h : 10 ≤ n) : toDigits n = toDigits (n / 10) ++ [n % 10] := by
  rw [toDigits, digitsOnto, if_neg (by omega)]
  exact digitsOnto_append (n / 10) [] [n % 10]

/-- Writing a number in decimal digits loses nothing. -/
theorem ofDigits_toDigits (n : Nat) : ofDigits (toDigits n) = n := by
  induction n using Nat.strongRecOn with
  | ind n ih =>
    by_cases h : n < 10
    · simp [toDigits_of_lt h, ofDigits]
    · have := ih (n / 10) (by omega)
      rw [toDigits_of_le (by omega)]
      simp only [ofDigits, List.foldl_append, List.foldl_cons, List.foldl_nil] at this ⊢
      omega

end PlanarMath.Text
