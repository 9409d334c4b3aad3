import PlanarMath.Number.Literal
import PlanarMath.Proofs.Number.Shortest
import PlanarMath.Proofs.Number.Text

/-!
# Decimals with a point or an exponent

The text of a finite value is a decimal of three parts: digits, digits behind a point, and a power of ten.  A
decimal is read part by part, so its digits and its power of ten come back, and the value with them.

    12345 · 10^-2        "123.45"           whole [1,2,3]   fraction [4,5]
    1 · 10^3             "1000.0"           whole [1,0,0,0] fraction [0]
    15 · 10^-11          "1.5e-10"          whole [1]       fraction [5]      exponent -10
-/

namespace PlanarMath

namespace Text

/-! ## Digits -/

theorem ofDigits_append_single (ds : List Nat) (d : Nat) : ofDigits (ds ++ [d]) = 10 * ofDigits ds + d :=
  List.foldl_append

theorem ofDigits_append (xs ys : List Nat) : ofDigits (xs ++ ys) = ofDigits xs * 10 ^ ys.length + ofDigits ys := by
  induction ys using List.reverseRecOn with
  | nil => simp [ofDigits]
  | append_singleton ys y ih =>
    rw [← List.append_assoc, ofDigits_append_single, ofDigits_append_single, ih, List.length_append,
      List.length_singleton, pow_succ]
    ring

theorem ofDigits_replicate_zero (n : Nat) : ofDigits (List.replicate n 0) = 0 := by
  induction n with
  | zero => rfl
  | succ n ih => rw [List.replicate_succ', ofDigits_append_single, ih]

theorem ofDigits_lt {ds : List Nat} (h : ∀ d ∈ ds, d < 10) : ofDigits ds < 10 ^ ds.length := by
  induction ds using List.reverseRecOn with
  | nil => decide
  | append_singleton ds d ih =>
    obtain ⟨hds, hd⟩ := List.forall_mem_append.1 h
    have hlast := hd d List.mem_cons_self
    have hfirst := ih hds
    rw [ofDigits_append_single, List.length_append, List.length_singleton, pow_succ]
    omega

theorem asciiDigit?_digitChar {d : Nat} (h : d < 10) : asciiDigit? (digitChar d) = some d := by
  have all : ∀ d < 10, asciiDigit? (digitChar d) = some d := by decide
  exact all d h

/-- Digits as they are written. -/
def digitChars (ds : List Nat) : List Char := ds.map digitChar

theorem length_digitChars (ds : List Nat) : (digitChars ds).length = ds.length := List.length_map _

theorem isAsciiDigit_digitChars {ds : List Nat} (h : ∀ d ∈ ds, d < 10) : ∀ c ∈ digitChars ds, isAsciiDigit c := by
  intro c hc
  obtain ⟨d, hd, rfl⟩ := List.mem_map.1 hc
  exact isAsciiDigit_digitChar (h d hd)

theorem exists_digitChar {c : Char} (h : isAsciiDigit c) : ∃ d < 10, digitChar d = c := by
  simp only [isAsciiDigit, Bool.and_eq_true, decide_eq_true_eq, Char.le_def] at h
  have hlow : 48 ≤ c.toNat := h.1
  have hhigh : c.toNat ≤ 57 := h.2
  have hsum : '0'.toNat + (c.toNat - 48) = c.toNat := by
    rw [show '0'.toNat = 48 from rfl]
    omega
  exact ⟨c.toNat - 48, by omega, by rw [digitChar, hsum, Char.ofNat_toNat]⟩

theorem lt_of_asciiDigit? {c : Char} {d : Nat} (h : asciiDigit? c = some d) : d < 10 := by
  obtain ⟨hc, -⟩ := Option.ite_none_right_eq_some.1 h
  obtain ⟨e, he, rfl⟩ := exists_digitChar (c := c) (by simpa [isAsciiDigit] using hc)
  cases h.symm.trans (asciiDigit?_digitChar he)
  exact he

theorem lt_of_mapM_asciiDigit? {cs : List Char} {ds : List Nat} (h : cs.mapM asciiDigit? = some ds) :
    ∀ d ∈ ds, d < 10 := by
  induction cs generalizing ds with
  | nil =>
    cases h
    exact List.forall_mem_nil _
  | cons c cs ih =>
    rw [List.mapM_cons] at h
    obtain ⟨d, hd, h⟩ := Option.bind_eq_some_iff.1 h
    obtain ⟨es, hes, ⟨⟩⟩ := Option.bind_eq_some_iff.1 h
    exact List.forall_mem_cons.2 ⟨lt_of_asciiDigit? hd, ih hes⟩

/-- ASCII digits are the digits of some numbers. -/
theorem exists_digitChars {cs : List Char} (h : ∀ c ∈ cs, isAsciiDigit c) :
    ∃ ds, digitChars ds = cs ∧ ∀ d ∈ ds, d < 10 := by
  induction cs with
  | nil => exact ⟨[], rfl, List.forall_mem_nil _⟩
  | cons c cs ih =>
    obtain ⟨hc, hcs⟩ := List.forall_mem_cons.1 h
    obtain ⟨ds, rfl, hds⟩ := ih hcs
    obtain ⟨d, hd, rfl⟩ := exists_digitChar hc
    exact ⟨d :: ds, rfl, List.forall_mem_cons.2 ⟨hd, hds⟩⟩

/-- Digits without a zero in front are the digits of the number that they stand for. -/
theorem toDigits_ofDigits {d : Nat} {ds : List Nat} (hd : d ≠ 0) (hlt : ∀ n ∈ d :: ds, n < 10) :
    toDigits (ofDigits (d :: ds)) = d :: ds := by
  induction ds using List.reverseRecOn with
  | nil =>
    have hone : ofDigits [d] = d := by simp [ofDigits]
    rw [hone, toDigits_of_lt (hlt d List.mem_cons_self)]
  | append_singleton ds e ih =>
    have hrest : toDigits (ofDigits (d :: ds)) = d :: ds :=
      ih fun n hn => hlt n (List.mem_append_left [e] hn)
    have he : e < 10 := hlt e (List.mem_append_right (d :: ds) List.mem_cons_self)
    have hpos : ofDigits (d :: ds) ≠ 0 := by
      intro hzero
      rw [hzero, toDigits_of_lt (by decide)] at hrest
      exact hd (List.cons.inj hrest).1.symm
    have hsum : ofDigits (d :: (ds ++ [e])) = 10 * ofDigits (d :: ds) + e := ofDigits_append_single (d :: ds) e
    rw [hsum, toDigits_of_le (by omega), show (10 * ofDigits (d :: ds) + e) / 10 = ofDigits (d :: ds) by omega,
      show (10 * ofDigits (d :: ds) + e) % 10 = e by omega, hrest]
    rfl

/-- The numbers of at most so many digits. -/
theorem length_decimal_le_iff {n k : Nat} (hk : 0 < k) : (decimal n).length ≤ k ↔ n < 10 ^ k := by
  rw [decimal, List.length_map]
  induction k using Nat.strongRecOn generalizing n with
  | ind k ih =>
    obtain hn | hn := Nat.lt_or_ge n 10
    · rw [toDigits_of_lt hn]
      exact iff_of_true hk (hn.trans_le (Nat.le_self_pow hk.ne' 10))
    · rw [toDigits_of_le hn, List.length_append, List.length_singleton]
      obtain rfl | hlt := Nat.eq_or_lt_of_le hk
      · have hpos := List.length_pos_iff.2 (toDigits_ne_nil (n / 10))
        omega
      · obtain ⟨k, rfl⟩ : ∃ j, k = j + 1 := ⟨k - 1, by omega⟩
        rw [Nat.add_le_add_iff_right, ih k (Nat.lt_succ_self k) (by omega), pow_succ,
          Nat.div_lt_iff_lt_mul (by decide)]

/-- A rest that digits do not go on in. -/
def StopsDigits (cs : List Char) : Prop := ∀ c ∈ cs.head?, isAsciiDigit c = false

theorem stopsDigits_nil : StopsDigits [] := by
  rintro c ⟨⟩

theorem takeWhile_digits {ds cs : List Char} (hd : ∀ c ∈ ds, isAsciiDigit c) (hcs : StopsDigits cs) :
    (ds ++ cs).takeWhile isAsciiDigit = ds := by
  rw [List.takeWhile_append_of_pos hd]
  cases cs with
  | nil => simp
  | cons c cs => simp [hcs c rfl]

theorem dropWhile_digits {ds cs : List Char} (hd : ∀ c ∈ ds, isAsciiDigit c) (hcs : StopsDigits cs) :
    (ds ++ cs).dropWhile isAsciiDigit = cs := by
  rw [List.dropWhile_append_of_pos hd]
  cases cs with
  | nil => rfl
  | cons c cs => simp [hcs c rfl]

end Text

namespace Literal

open Text

/-- Digits that are written are the leading digits of the text. -/
theorem leadingDigits_digitChars {ds : List Nat} (hd : ∀ d ∈ ds, d < 10) {cs : List Char} (hcs : StopsDigits cs) :
    leadingDigits (digitChars ds ++ cs) = ds := by
  rw [leadingDigits, takeWhile_digits (isAsciiDigit_digitChars hd) hcs]
  induction ds with
  | nil => rfl
  | cons d ds ih =>
    obtain ⟨hd, hds⟩ := List.forall_mem_cons.1 hd
    rw [digitChars, List.map_cons, List.filterMap_cons_some (asciiDigit?_digitChar hd)]
    exact congrArg (d :: ·) (ih hds)

theorem digits?_digitChars {ds : List Nat} (hne : ds ≠ []) (hd : ∀ d ∈ ds, d < 10) :
    digits? (digitChars ds) = some ds := by
  have hmap : ∀ {ds : List Nat}, (∀ d ∈ ds, d < 10) → (digitChars ds).mapM asciiDigit? = some ds := by
    intro ds hd
    induction ds with
    | nil => rfl
    | cons d ds ih =>
      obtain ⟨hd, hds⟩ := List.forall_mem_cons.1 hd
      rw [digitChars, List.map_cons, List.mapM_cons, asciiDigit?_digitChar hd]
      simp only [Option.bind_eq_bind, Option.bind_some]
      rw [show ds.map digitChar = digitChars ds from rfl, ih hds]
      rfl
  unfold digits?
  rw [if_neg, hmap hd]
  simpa [digitChars] using hne

theorem isShort_iff {n : Int} : isShort n ↔ n.natAbs < 10 ^ digitLimit := by
  rw [isShort, decide_eq_true_eq, length_decimal_le_iff (by decide)]

theorem isShort_of_le {m n : Int} (h : m.natAbs ≤ n.natAbs) (hn : isShort n) : isShort m :=
  isShort_iff.2 (Nat.lt_of_le_of_lt h (isShort_iff.1 hn))

/-- The least integer that is too long. -/
theorem isShort_power : isShort ((10 ^ digitLimit : Nat) : Int) = false := by
  rw [Bool.eq_false_iff, ne_eq, isShort_iff, Int.natAbs_natCast]
  exact Nat.lt_irrefl _

theorem natAbs_ofSign (negative : Bool) (n : Nat) : (ofSign negative n).natAbs = n := by
  cases negative <;> simp [ofSign]

/-- A literal that is read is no integer that is too long. -/
theorem isShort_of_integer? {s : String} {n : Int} (h : integer? s = some n) : isShort n := by
  obtain ⟨body, -, h⟩ := Option.bind_eq_some_iff.1 h
  obtain ⟨ds, hds, h⟩ := Option.bind_eq_some_iff.1 h
  obtain ⟨hlength, ⟨⟩⟩ := Option.ite_none_right_eq_some.1 h
  obtain ⟨-, hdigits⟩ := Option.ite_none_left_eq_some.1 hds
  have hlt := lt_of_mapM_asciiDigit? hdigits
  rw [isShort_iff, natAbs_ofSign]
  exact (ofDigits_lt hlt).trans_le (Nat.pow_le_pow_right (by decide) hlength)

theorem isShort_neg (n : Int) : isShort (-n) = isShort n := by rw [isShort, isShort, Int.natAbs_neg]

theorem ofSign_natAbs (n : Int) : ofSign (decide (n < 0)) n.natAbs = n := by
  unfold ofSign
  split
  · next h =>
    rw [decide_eq_true_eq] at h
    omega
  · next h =>
    rw [decide_eq_true_eq] at h
    omega

end Literal

open Text Literal

/-! ## The parts of a decimal -/

/-- A decimal: digits, digits behind a point, and the power of ten behind an exponent mark. -/
structure Decimal where
  whole : List Nat
  fraction : List Nat
  exponent? : Option Int

namespace Decimal

/-- The digits of an exponent, two at least. -/
def exponentDigits (e : Int) : List Nat :=
  let ds := toDigits e.natAbs
  if ds.length < 2 then 0 :: ds else ds

/-- The fraction as it is written: behind a point, unless there is none. -/
def fractionChars (d : Decimal) : List Char := if d.fraction = [] then [] else '.' :: digitChars d.fraction

/-- The exponent as it is written: behind a mark, with a sign. -/
def exponentChars (d : Decimal) : List Char :=
  match d.exponent? with
  | none => []
  | some e => 'e' :: (if e < 0 then '-' else '+') :: digitChars (exponentDigits e)

/-- The text of a decimal. -/
def chars (d : Decimal) : List Char := digitChars d.whole ++ (d.fractionChars ++ d.exponentChars)

/-- All digits as one number. -/
def digits (d : Decimal) : Nat := ofDigits (d.whole ++ d.fraction)

/-- The power of ten that the digits count. -/
def power (d : Decimal) : Int := d.exponent?.getD 0 - d.fraction.length

/-- A decimal as numbers are written, with no zeros in front. -/
structure IsWritten (d : Decimal) : Prop where
  whole_lt : ∀ n ∈ d.whole, n < 10
  fraction_lt : ∀ n ∈ d.fraction, n < 10
  whole_start : d.whole = [0] ∨ ∃ n ns, d.whole = n :: ns ∧ n ≠ 0

/-- A decimal with a point or an exponent, which makes it a real number. -/
def IsReal (d : Decimal) : Prop := d.fraction ≠ [] ∨ d.exponent? ≠ none

variable {d : Decimal}

theorem IsWritten.whole_ne_nil (h : d.IsWritten) : d.whole ≠ [] := by
  obtain h | ⟨n, ns, h, -⟩ := h.whole_start
  · simp [h]
  · simp [h]

theorem exponentDigits_lt (e : Int) : ∀ n ∈ exponentDigits e, n < 10 := by
  unfold exponentDigits
  simp only
  split
  · exact List.forall_mem_cons.2 ⟨by decide, toDigits_lt _⟩
  · exact toDigits_lt _

theorem exponentDigits_ne_nil (e : Int) : exponentDigits e ≠ [] := by
  unfold exponentDigits
  simp only
  split
  · exact List.cons_ne_nil _ _
  · exact toDigits_ne_nil _

theorem ofDigits_exponentDigits (e : Int) : ofDigits (exponentDigits e) = e.natAbs := by
  unfold exponentDigits
  simp only
  split
  · exact ofDigits_toDigits _
  · exact ofDigits_toDigits _

theorem stopsDigits_exponentChars (d : Decimal) : StopsDigits d.exponentChars := by
  unfold exponentChars
  split
  · exact stopsDigits_nil
  · rintro c ⟨⟩
    decide

theorem stopsDigits_rest (d : Decimal) : StopsDigits (d.fractionChars ++ d.exponentChars) := by
  unfold fractionChars
  split
  · exact stopsDigits_exponentChars d
  · rintro c ⟨⟩
    decide

/-- The exponent is read back. -/
theorem exponent?_exponentChars (d : Decimal) : Literal.exponent? d.exponentChars = some (d.exponent?.getD 0) := by
  unfold exponentChars
  cases d.exponent? with
  | none => rfl
  | some e =>
    have hsigned : signed ((if e < 0 then '-' else '+') :: digitChars (exponentDigits e)) =
        (decide (e < 0), digitChars (exponentDigits e)) := by
      split
      · next h => simp [signed, h]
      · next h => simp [signed, h]
    have hexponent : ∀ rest, Literal.exponent? ('e' :: rest) =
        (digits? (signed rest).2).map fun ds => ofSign (signed rest).1 (ofDigits ds) := by
      simp [Literal.exponent?]
    simp only
    rw [hexponent, hsigned]
    simp only
    rw [digits?_digitChars (exponentDigits_ne_nil e) (exponentDigits_lt e), Option.map_some,
      ofDigits_exponentDigits, ofSign_natAbs]
    rfl

/-- **Parts.**  A decimal is read as its digits and their power of ten. -/
theorem decimal?_chars (h : d.IsWritten) : decimal? d.chars = some (d.digits, d.power) := by
  have hwhole := leadingDigits_digitChars h.whole_lt d.stopsDigits_rest
  have hrest := dropWhile_digits (isAsciiDigit_digitChars h.whole_lt) d.stopsDigits_rest
  have hne : d.whole.isEmpty = false := by simpa using h.whole_ne_nil
  unfold decimal? chars
  simp only [hwhole, hrest, hne, Bool.false_and, Bool.false_eq_true, if_false]
  by_cases hf : d.fraction = []
  · have hchars : d.fractionChars = [] := if_pos hf
    rw [hchars, List.nil_append]
    split
    · next rest heq =>
      have hno : d.exponentChars.head? ≠ some '.' := by
        unfold exponentChars
        cases d.exponent? with
        | none => exact nofun
        | some e => exact fun h => absurd (Option.some.inj h) (by decide)
      rw [heq] at hno
      exact absurd rfl hno
    · rw [exponent?_exponentChars, digits, power, hf]
      rfl
  · have hchars : d.fractionChars = '.' :: digitChars d.fraction := if_neg hf
    have hfraction := leadingDigits_digitChars h.fraction_lt d.stopsDigits_exponentChars
    have hexponent := dropWhile_digits (isAsciiDigit_digitChars h.fraction_lt) d.stopsDigits_exponentChars
    rw [hchars, List.cons_append]
    simp only [hfraction, hexponent, exponent?_exponentChars, Option.map_some]
    rfl

/-- No decimal is one of the names of special values, which start with a letter. -/
theorem map_toLower_chars (h : d.IsWritten) {name : List Char} (hname : name.head? = some 'i' ∨ name.head? = some 'n') :
    d.chars.map Char.toLower ≠ name := by
  obtain ⟨n, ns, hn⟩ := List.exists_cons_of_ne_nil h.whole_ne_nil
  have hlt : n < 10 := h.whole_lt n (by rw [hn]; exact List.mem_cons_self)
  have all : ∀ n < 10, (digitChar n).toLower ≠ 'i' ∧ (digitChar n).toLower ≠ 'n' := by decide
  obtain ⟨hi, hn'⟩ := all n hlt
  rintro rfl
  rw [chars, hn, digitChars, List.map_cons, List.cons_append, List.map_cons, List.head?_cons,
    Option.some.injEq, Option.some.injEq] at hname
  exact hname.elim hi hn'

/-- A decimal with a sign, or none, is read as the value next to it. -/
theorem binary64?_chars (h : d.IsWritten) (negative : Bool) :
    binary64? ((if negative then ['-'] else []) ++ d.chars) =
      some (Binary64.ofDecimal negative d.digits d.power) := by
  have hsigned : signed ((if negative then ['-'] else []) ++ d.chars) = (negative, d.chars) := by
    obtain ⟨n, ns, hn⟩ := List.exists_cons_of_ne_nil h.whole_ne_nil
    have hlt : n < 10 := h.whole_lt n (by rw [hn]; exact List.mem_cons_self)
    cases negative with
    | true => rfl
    | false =>
      have all : ∀ n < 10, digitChar n ≠ '-' ∧ digitChar n ≠ '+' := by decide
      obtain ⟨hminus, hplus⟩ := all n hlt
      simp [chars, hn, digitChars, signed, hminus, hplus]
  unfold binary64?
  rw [hsigned]
  simp only
  rw [if_neg (not_or.2 ⟨map_toLower_chars h (.inl rfl), map_toLower_chars h (.inl rfl)⟩),
    if_neg (map_toLower_chars h (.inr rfl)), decimal?_chars h]
  rfl

end Decimal

namespace Binary64

/-! ## The text of a magnitude -/

/-- The decimal whose digits, with no zeros in front, count a power of ten. -/
def decimalOf (digits : List Nat) (power : Int) : Decimal :=
  let exponent := digits.length + power - 1
  if -4 ≤ exponent ∧ exponent < 16 then
    let place := exponent + 1
    if place ≤ 0 then ⟨[0], List.replicate (-place).toNat 0 ++ digits, none⟩
    else if digits.length ≤ place.toNat then
      ⟨digits ++ List.replicate (place.toNat - digits.length) 0, [0], none⟩
    else ⟨digits.take place.toNat, digits.drop place.toNat, none⟩
  else ⟨digits.take 1, digits.drop 1, some exponent⟩

section
variable {digits : List Nat} (hne : digits ≠ [])
include hne

theorem chars_decimalOf (power : Int) : (decimalOf digits power).chars =
    if -4 ≤ (digits.length : Int) + power - 1 ∧ (digits.length : Int) + power - 1 < 16 then
      positional (digitChars digits) (digits.length + power - 1 + 1)
    else scientific (digitChars digits) (digits.length + power - 1) := by
  have hzero : ∀ n, digitChars (List.replicate n 0) = List.replicate n '0' := fun n => List.map_replicate
  have happend : ∀ xs ys, digitChars (xs ++ ys) = digitChars xs ++ digitChars ys := fun xs ys => List.map_append
  unfold decimalOf
  generalize (digits.length : Int) + power - 1 = exponent
  simp only
  by_cases hplain : -4 ≤ exponent ∧ exponent < 16
  · rw [if_pos hplain, if_pos hplain]
    unfold positional
    rw [length_digitChars]
    split_ifs with hsmall hwhole
    · simp [Decimal.chars, Decimal.fractionChars, Decimal.exponentChars, hne, happend, hzero]
      rfl
    · simp [Decimal.chars, Decimal.fractionChars, Decimal.exponentChars, happend, hzero]
      rfl
    · have hdrop : digits.drop (exponent + 1).toNat ≠ [] := by
        rw [Ne, List.drop_eq_nil_iff]
        exact hwhole
      simp [Decimal.chars, Decimal.fractionChars, Decimal.exponentChars, digitChars, hdrop, List.map_take,
        List.map_drop]
  · rw [if_neg hplain, if_neg hplain]
    have hsize : digitChars (Decimal.exponentDigits exponent) =
        if (decimal exponent.natAbs).length < 2 then '0' :: decimal exponent.natAbs
        else decimal exponent.natAbs := by
      have hdecimal : (decimal exponent.natAbs).length = (toDigits exponent.natAbs).length := length_digitChars _
      unfold Decimal.exponentDigits
      simp only
      rw [hdecimal]
      split <;> rfl
    have hfraction : (if digits.drop 1 = [] then [] else '.' :: digitChars (digits.drop 1)) =
        if digits.length ≤ 1 then [] else '.' :: (digitChars digits).drop 1 := by
      simp only [List.drop_eq_nil_iff, digitChars, List.map_drop]
    have htake : digitChars (digits.take 1) = (digitChars digits).take 1 := List.map_take
    change digitChars (digits.take 1) ++ ((if digits.drop 1 = [] then [] else '.' :: digitChars (digits.drop 1)) ++
      'e' :: (if exponent < 0 then '-' else '+') :: digitChars (Decimal.exponentDigits exponent)) = _
    rw [hsize, hfraction, htake]
    simp only [scientific, length_digitChars, List.append_assoc]

theorem isWritten_decimalOf (hlt : ∀ d ∈ digits, d < 10) (hfirst : digits.head? ≠ some 0) (power : Int) :
    (decimalOf digits power).IsWritten := by
  obtain ⟨first, rest, rfl⟩ := List.exists_cons_of_ne_nil hne
  have hzero : first ≠ 0 := fun h => hfirst (by rw [h]; rfl)
  have hzeros : ∀ n, ∀ d ∈ List.replicate n 0, d < 10 := by
    intro n d hd
    rw [List.eq_of_mem_replicate hd]
    decide
  unfold decimalOf
  simp only
  split_ifs with hplain hsmall hwhole
  · exact ⟨by simp, List.forall_mem_append.2 ⟨hzeros _, hlt⟩, .inl rfl⟩
  · exact ⟨List.forall_mem_append.2 ⟨hlt, hzeros _⟩, by simp, .inr ⟨first, _, rfl, hzero⟩⟩
  · refine ⟨fun d hd => hlt d (List.mem_of_mem_take hd), fun d hd => hlt d (List.mem_of_mem_drop hd), .inr ?_⟩
    obtain ⟨n, hn⟩ : ∃ n, (((first :: rest).length : Int) + power - 1 + 1).toNat = n + 1 :=
      ⟨_, (Nat.succ_pred_eq_of_pos (by omega)).symm⟩
    rw [hn]
    exact ⟨first, rest.take n, rfl, hzero⟩
  · exact ⟨fun d hd => hlt d (List.mem_of_mem_take hd), fun d hd => hlt d (List.mem_of_mem_drop hd),
      .inr ⟨first, [], rfl, hzero⟩⟩

theorem isReal_decimalOf (power : Int) : (decimalOf digits power).IsReal := by
  unfold decimalOf Decimal.IsReal
  simp only
  split_ifs with hplain hsmall hwhole
  · simp [hne]
  · simp
  · exact .inl (by rw [Ne, List.drop_eq_nil_iff]; exact hwhole)
  · simp

theorem value_decimalOf (power : Int) :
    ((decimalOf digits power).digits * 10 ^ (decimalOf digits power).power : ℚ) = ofDigits digits * 10 ^ power := by
  have hpos := List.length_pos_iff.2 hne
  -- apart from the zeros behind them, the digits and their power come back as they are
  have same : ∀ {d : Decimal}, d.digits = ofDigits digits → d.power = power →
      (d.digits * 10 ^ d.power : ℚ) = ofDigits digits * 10 ^ power := by
    intro d hd hp
    rw [hd, hp]
  unfold decimalOf
  simp only
  split_ifs with hplain hsmall hwhole
  · refine same ?_ ?_
    · unfold Decimal.digits
      rw [← List.append_assoc, ofDigits_append]
      have hzeros : ofDigits ([0] ++ List.replicate (-((digits.length : Int) + power - 1 + 1)).toNat 0) = 0 :=
        ofDigits_replicate_zero (_ + 1)
      rw [hzeros, Nat.zero_mul, Nat.zero_add]
    · simp only [Decimal.power, Option.getD_none, List.length_append, List.length_replicate]
      omega
  · obtain ⟨n, hn⟩ : ∃ n : Nat, power = n := ⟨power.toNat, by omega⟩
    have hzeros : ((digits.length : Int) + power - 1 + 1).toNat - digits.length = n := by omega
    rw [hzeros, hn]
    simp only [Decimal.digits, Decimal.power, ofDigits_append, ofDigits_replicate_zero, Option.getD_none,
      List.length_singleton, List.length_replicate]
    have hone : ofDigits [0] = 0 := rfl
    have hpower : (0 : Int) - (1 : Nat) = -1 := rfl
    rw [hone, hpower, zpow_neg_one, zpow_natCast]
    push_cast
    ring
  · refine same ?_ ?_
    · exact congrArg ofDigits (List.take_append_drop _ _)
    · simp only [Decimal.power, Option.getD_none, List.length_drop]
      omega
  · refine same ?_ ?_
    · exact congrArg ofDigits (List.take_append_drop _ _)
    · simp only [Decimal.power, Option.getD_some, List.length_drop]
      omega

end

/-- **Texts of magnitudes.**  The text of a magnitude is a decimal that is read as the magnitude. -/
theorem exists_decimal {m : Nat} {q : Int} (hmq : IsNormal m q) :
    ∃ d : Decimal, d.IsWritten ∧ d.IsReal ∧ magnitude m q = d.chars ∧
      ∀ negative, ofDecimal negative d.digits d.power = .finite negative m q := by
  rcases Nat.eq_zero_or_pos m with rfl | hm
  · have hq : q = -1074 := by
      by_contra hne
      exact absurd (hmq.full hne) (by norm_num)
    exact ⟨⟨[0], [0], none⟩, ⟨by simp, by simp, .inl rfl⟩, .inl (by simp), rfl, fun negative => by rw [hq]; rfl⟩
  · have hholds := shortest_holds hm hmq
    obtain ⟨hlow, -⟩ := hholds.bounds hm hmq
    have hpos : 0 < (shortest m q).1 := by
      rw [Nat.pos_iff_ne_zero]
      intro hzero
      rw [hzero, Nat.cast_zero, zero_mul] at hlow
      exact absurd hlow (not_le.2 (two_zpow_pos _))
    obtain ⟨first, rest, hdigits, hfirst⟩ := head_toDigits hpos
    have hne := toDigits_ne_nil (shortest m q).1
    refine ⟨decimalOf (toDigits (shortest m q).1) (shortest m q).2,
      isWritten_decimalOf hne (toDigits_lt _) (by rw [hdigits]; simpa using hfirst) _, isReal_decimalOf hne _, ?_,
      fun negative => ofDecimal_eq negative hm hmq ?_⟩
    · have hlength : (decimal (shortest m q).1).length = (toDigits (shortest m q).1).length := length_digitChars _
      rw [chars_decimalOf hne]
      unfold magnitude
      rw [if_neg hm.ne']
      simp only [hlength]
      rfl
    · rw [value_decimalOf hne, ofDigits_toDigits]
      exact hholds

end Binary64

end PlanarMath
