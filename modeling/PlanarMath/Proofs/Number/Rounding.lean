import Mathlib
import PlanarMath.Number.Shortest

/-!
# Rounding to the binary format

A quotient that lies in the interval of a value of the format is rounded to that value.  The exponent that
rounding chooses is the only one at which the quotient has a significand of at most 53 bits and, above the least
exponent, of no fewer.

        (2^52 - 1/4) · 2^q          2^52 · 2^q          (2^52 + 1/2) · 2^q
    ────────────┼─────────────────────┼────────────────────────┼──────────
     exponent q - 1                   |  exponent q

Just below a power of two the exponent is one less, and there the significand is rounded up to `2^53`.
-/

namespace PlanarMath.Binary64

/-! ## Values in their only form -/

/-- Whether a significand and an exponent are those of the format: 53 bits, unless the exponent is the least. -/
structure IsNormal (m : Nat) (q : Int) : Prop where
  lt : m < 2 ^ 53
  least_le : -1074 ≤ q
  le_greatest : q ≤ 971
  full : q ≠ -1074 → 2 ^ 52 ≤ m

/-- A value in its only form. -/
def IsCanonical : Binary64 → Prop
  | .finite _ m q => IsNormal m q
  | .nan | .infinite _ => True

/-- The numbers of an interval: between its ends, and the ends where they belong. -/
structure Interval.Holds (i : Interval) (v : ℚ) : Prop where
  low_le : i.low * 2 ^ i.unit ≤ v
  le_high : v ≤ i.high * 2 ^ i.unit
  ends : i.closed = false → i.low * 2 ^ i.unit ≠ v ∧ v ≠ i.high * 2 ^ i.unit

/-! ## Powers of two -/

theorem two_zpow_pos (e : Int) : (0 : ℚ) < 2 ^ e := zpow_pos two_pos e

theorem natCast_pow_toNat (b : Nat) {e : Int} (h : 0 ≤ e) : ((b ^ e.toNat : Nat) : ℚ) = (b : ℚ) ^ e := by
  rw [Nat.cast_pow, ← zpow_natCast, Int.toNat_of_nonneg h]

/-- Two factors that make up a power with an exponent of either sign. -/
theorem pow_toNat_div (b : Nat) (e : Int) :
    ((b ^ e.toNat : Nat) : ℚ) / ((b ^ (-e).toNat : Nat) : ℚ) = (b : ℚ) ^ e := by
  rcases le_total 0 e with h | h
  · rw [natCast_pow_toNat b h, Int.toNat_of_nonpos (Int.neg_nonpos_of_nonneg h), pow_zero, Nat.cast_one, div_one]
  · rw [natCast_pow_toNat b (Int.neg_nonneg_of_nonpos h), Int.toNat_of_nonpos h, pow_zero, Nat.cast_one,
      zpow_neg, one_div, inv_inv]

/-- Scaling by a power of two divides the quotient by it. -/
theorem scale_div (n d : Nat) (q : Int) :
    ((n * (scale q).1 : Nat) : ℚ) / ((d * (scale q).2 : Nat) : ℚ) = n / d / 2 ^ q := by
  have h := pow_toNat_div 2 (-q)
  rw [Int.neg_neg, Nat.cast_ofNat, zpow_neg] at h
  rw [div_eq_mul_inv _ ((2 : ℚ) ^ q), ← h, Nat.cast_mul, Nat.cast_mul, mul_div_mul_comm]
  rfl

theorem scale_pos (q : Int) : 0 < (scale q).2 := Nat.pow_pos two_pos

theorem pow_log2_le {n : Nat} (h : 0 < n) : (2 : ℚ) ^ (n.log2 : Int) ≤ n := by
  have := Nat.log2_self_le h.ne'
  rw [zpow_natCast]
  exact_mod_cast this

theorem lt_pow_log2 (n : Nat) : (n : ℚ) < 2 ^ ((n.log2 : Int) + 1) := by
  have : n < 2 ^ (n.log2 + 1) := Nat.lt_log2_self
  have hcast : ((n.log2 : Int) + 1) = ((n.log2 + 1 : Nat) : Int) := by push_cast; rfl
  rw [hcast, zpow_natCast]
  exact_mod_cast this

/-! ## The exponent -/

/-- The exponent at which a number has a significand of the format. -/
structure IsExponent (v : ℚ) (e : Int) : Prop where
  least_le : -1074 ≤ e
  lt : v < 2 ^ (53 + e)
  full : e ≠ -1074 → 2 ^ (52 + e) ≤ v

theorem IsExponent.unique {v : ℚ} {e f : Int} (he : IsExponent v e) (hf : IsExponent v f) : e = f := by
  have le : ∀ {e f : Int}, IsExponent v e → IsExponent v f → f ≤ e := by
    intro e f he hf
    by_contra hlt
    have hpow : (2 : ℚ) ^ (53 + e) ≤ 2 ^ (52 + f) := zpow_le_zpow_right₀ one_le_two (by omega)
    have hleast := he.least_le
    exact absurd (hf.full (by omega)) (not_le.2 (he.lt.trans_le hpow))
  exact le_antisymm (le hf he) (le he hf)

variable {n d : Nat}

theorem isExponent_exponentFor (hn : 0 < n) (hd : 0 < d) : IsExponent (n / d) (exponentFor n d) := by
  have hdq : (0 : ℚ) < d := Nat.cast_pos.2 hd
  have hlow : (2 : ℚ) ^ ((n.log2 : Int) - d.log2 - 1) < n / d := by
    rw [lt_div_iff₀ hdq]
    calc (2 : ℚ) ^ ((n.log2 : Int) - d.log2 - 1) * d
        < 2 ^ ((n.log2 : Int) - d.log2 - 1) * 2 ^ ((d.log2 : Int) + 1) :=
          mul_lt_mul_of_pos_left (lt_pow_log2 d) (two_zpow_pos _)
      _ = 2 ^ (n.log2 : Int) := by rw [← zpow_add₀ two_ne_zero]; congr 1; ring
      _ ≤ n := pow_log2_le hn
  have hhigh : (n / d : ℚ) < 2 ^ ((n.log2 : Int) - d.log2 + 1) := by
    rw [div_lt_iff₀ hdq]
    calc (n : ℚ) < 2 ^ ((n.log2 : Int) + 1) := lt_pow_log2 n
      _ = 2 ^ ((n.log2 : Int) - d.log2 + 1) * 2 ^ (d.log2 : Int) := by
          rw [← zpow_add₀ two_ne_zero]; congr 1; ring
      _ ≤ _ := mul_le_mul_of_nonneg_left (pow_log2_le hd) (two_zpow_pos _).le
  obtain ⟨q, hq⟩ : ∃ q, q = max ((n.log2 : Int) - d.log2 - 53) (-1074) := ⟨_, rfl⟩
  have hdef : exponentFor n d =
      if n * (scale q).1 < Nat.pow 2 53 * (d * (scale q).2) then q else q + 1 := by
    rw [hq]
    rfl
  -- the test compares the quotient with the least number of 54 bits at this exponent
  have htest : n * (scale q).1 < Nat.pow 2 53 * (d * (scale q).2) ↔ (n / d : ℚ) < 2 ^ (53 + q) := by
    have hden : (0 : ℚ) < ((d * (scale q).2 : Nat) : ℚ) := Nat.cast_pos.2 (Nat.mul_pos hd (scale_pos q))
    rw [← Nat.cast_lt (α := ℚ), Nat.cast_mul (Nat.pow 2 53), ← div_lt_iff₀ hden, scale_div,
      div_lt_iff₀ (two_zpow_pos q), zpow_add₀ two_ne_zero]
    norm_num
  rw [hdef]
  split
  · next h =>
    refine ⟨by omega, htest.1 h, fun hne => ?_⟩
    exact le_trans (zpow_le_zpow_right₀ one_le_two (by omega)) hlow.le
  · next h =>
    have hle : (2 : ℚ) ^ (53 + q) ≤ n / d := not_lt.1 fun hlt => h (htest.2 hlt)
    refine ⟨by omega, lt_of_lt_of_le hhigh (zpow_le_zpow_right₀ one_le_two (by omega)), fun _ => ?_⟩
    rwa [show 52 + (q + 1) = 53 + q by ring]

/-! ## The significand -/

/-- A quotient within half a unit of a number is rounded to it, at the ends when it is even. -/
theorem roundDiv_eq {m : Nat} (hd : 0 < d) (hlow : 2 * (m * d) ≤ 2 * n + d) (hhigh : 2 * n ≤ 2 * (m * d) + d)
    (hodd : m % 2 = 1 → 2 * (m * d) ≠ 2 * n + d ∧ 2 * n ≠ 2 * (m * d) + d) : roundDiv n d = m := by
  have key : d * (n / d) + n % d = n := Nat.div_add_mod n d
  have hmod := Nat.mod_lt n hd
  have hdef : roundDiv n d =
      if 2 * (n % d) < d ∨ (2 * (n % d) = d ∧ n / d % 2 = 0) then n / d else n / d + 1 := rfl
  rw [hdef]
  generalize n / d = whole at key
  generalize n % d = rest at key hmod
  have hle : whole ≤ m := by
    by_contra hlt
    have hmul : d * (m + 1) ≤ d * whole := Nat.mul_le_mul_left d (by omega)
    rw [Nat.mul_add, Nat.mul_comm d m] at hmul
    omega
  have hge : m ≤ whole + 1 := by
    by_contra hlt
    have hmul : d * (whole + 2) ≤ d * m := Nat.mul_le_mul_left d (by omega)
    rw [Nat.mul_add, Nat.mul_comm d m] at hmul
    omega
  obtain rfl | rfl : m = whole ∨ m = whole + 1 := by omega
  · rw [Nat.mul_comm m d] at hlow hhigh hodd
    rw [if_pos]
    omega
  · rw [Nat.add_mul, Nat.mul_comm whole d] at hlow hhigh hodd
    rw [if_neg]
    omega

/-- A quotient as near to a number as to be rounded to it. -/
structure IsNear (v : ℚ) (m : Nat) : Prop where
  low : (m : ℚ) - 1 / 2 ≤ v
  high : v ≤ m + 1 / 2
  odd : m % 2 = 1 → (m : ℚ) - 1 / 2 ≠ v ∧ v ≠ m + 1 / 2

theorem IsNear.roundDiv_eq {m : Nat} (hd : 0 < d) (h : IsNear (n / d) m) : roundDiv n d = m := by
  have hdq : (0 : ℚ) < d := Nat.cast_pos.2 hd
  have hv : (n / d : ℚ) * d = n := div_mul_cancel₀ _ hdq.ne'
  have hlow := mul_le_mul_of_nonneg_right h.low hdq.le
  have hhigh := mul_le_mul_of_nonneg_right h.high hdq.le
  rw [hv] at hlow hhigh
  refine Binary64.roundDiv_eq hd ?_ ?_ fun hodd => ⟨fun heq => (h.odd hodd).1 ?_, fun heq => (h.odd hodd).2 ?_⟩
  · have : (2 * (m * d) : ℚ) ≤ 2 * n + d := by linarith
    exact_mod_cast this
  · have : (2 * n : ℚ) ≤ 2 * (m * d) + d := by linarith
    exact_mod_cast this
  · have : (2 * (m * d) : ℚ) = 2 * n + d := by exact_mod_cast heq
    rw [eq_div_iff hdq.ne']
    linarith
  · have : (2 * n : ℚ) = 2 * (m * d) + d := by exact_mod_cast heq
    rw [div_eq_iff hdq.ne']
    linarith

/-! ## Rounding in an interval -/

/-- Rounding takes the significand at the exponent of the quotient. -/
theorem ofRatio_of_isNear (negative : Bool) {m : Nat} {e : Int} (hn : 0 < n) (hd : 0 < d)
    (he : IsExponent (n / d) e) (hm : IsNear (n / d / 2 ^ e) m) :
    ofRatio negative n d = ofScaled negative m e := by
  have hexponent : exponentFor n d = e := (isExponent_exponentFor hn hd).unique he
  have hround : roundDiv (n * (scale e).1) (d * (scale e).2) = m := by
    refine IsNear.roundDiv_eq (Nat.mul_pos hd (scale_pos e)) ?_
    rwa [scale_div]
  unfold ofRatio
  rw [if_neg hn.ne', hexponent]
  simp only [hround]

theorem ofScaled_of_isNormal (negative : Bool) {m : Nat} {q : Int} (h : IsNormal m q) :
    ofScaled negative m q = .finite negative m q := by
  have hlt := h.lt
  have hne : m ≠ Nat.pow 2 53 := hlt.ne
  unfold ofScaled
  simp only [if_neg hne]
  exact if_pos h.le_greatest

/-- A significand that was rounded up to one bit more is halved. -/
theorem ofScaled_two_pow (negative : Bool) {q : Int} (h : q + 1 ≤ 971) :
    ofScaled negative (2 ^ 53) q = .finite negative (2 ^ 52) (q + 1) := by
  unfold ofScaled
  exact if_pos h

/-- A power of two above the least exponent, which has a narrower interval below it. -/
def IsStep (m : Nat) (q : Int) : Prop := m = 2 ^ 52 ∧ -1074 < q

section
variable {m : Nat} {q : Int} {v : ℚ}

theorem interval_of_isStep (h : IsStep m q) : interval m q = ⟨4 * m - 1, 4 * m, 4 * m + 2, q - 2, m % 2 == 0⟩ := by
  have hstep : m = Nat.pow 2 52 ∧ leastExponent < q := h
  unfold interval
  simp only [if_pos hstep]

theorem interval_of_not_isStep (h : ¬IsStep m q) :
    interval m q = ⟨4 * m - 2, 4 * m, 4 * m + 2, q - 2, m % 2 == 0⟩ := by
  have hstep : ¬(m = Nat.pow 2 52 ∧ leastExponent < q) := h
  unfold interval
  simp only [if_neg hstep]

/-- In units of the value, an interval holds what is rounded to the significand, and below a power of two only
half of that. -/
theorem Interval.Holds.isNear (hm : 0 < m) (h : (interval m q).Holds v) :
    IsNear (v / 2 ^ q) m ∧ (IsStep m q → (m : ℚ) - 1 / 4 ≤ v / 2 ^ q) := by
  have hu := two_zpow_pos (q - 2)
  have hq : (2 : ℚ) ^ q = 4 * 2 ^ (q - 2) := by
    have hfour : (4 : ℚ) = 2 ^ (2 : Int) := by norm_num
    rw [hfour, ← zpow_add₀ two_ne_zero, add_sub_cancel]
  obtain ⟨x, rfl⟩ : ∃ x, v = x * 2 ^ q := ⟨v / 2 ^ q, (div_mul_cancel₀ _ (two_zpow_pos q).ne').symm⟩
  rw [mul_div_cancel_right₀ x (two_zpow_pos q).ne']
  rw [hq] at h
  -- the unit of the interval is a quarter of that of the value
  have scaled : ∀ {below : Nat}, below ≤ 2 →
      Interval.Holds ⟨4 * m - below, 4 * m, 4 * m + 2, q - 2, m % 2 == 0⟩ (x * (4 * 2 ^ (q - 2))) →
      (4 * m - below : ℚ) ≤ 4 * x ∧ 4 * x ≤ 4 * m + 2 ∧
        (m % 2 = 1 → (4 * m - below : ℚ) ≠ 4 * x ∧ 4 * x ≠ 4 * m + 2) := by
    intro below hbelow h
    have hlow : ((4 * m - below : Nat) : ℚ) = 4 * m - below := by
      rw [Nat.cast_sub (by omega)]
      push_cast
      rfl
    have hx : x * (4 * 2 ^ (q - 2)) = 4 * x * 2 ^ (q - 2) := by ring
    obtain ⟨h₁, h₂, h₃⟩ := h
    simp only [hlow, hx, Nat.cast_add, Nat.cast_mul, Nat.cast_ofNat, mul_le_mul_iff_left₀ hu, ne_eq,
      mul_left_inj' hu.ne'] at h₁ h₂ h₃
    exact ⟨h₁, h₂, fun hodd => h₃ (by simp [hodd])⟩
  by_cases hstep : IsStep m q
  · rw [interval_of_isStep hstep] at h
    obtain ⟨h₁, h₂, h₃⟩ := scaled one_le_two h
    rw [Nat.cast_one] at h₁
    exact ⟨⟨by linarith, by linarith, fun hodd => ⟨fun heq => by linarith, fun heq => (h₃ hodd).2 (by linarith)⟩⟩,
      fun _ => by linarith⟩
  · rw [interval_of_not_isStep hstep] at h
    obtain ⟨h₁, h₂, h₃⟩ := scaled le_rfl h
    rw [Nat.cast_two] at h₁ h₃
    exact ⟨⟨by linarith, by linarith, fun hodd => ⟨fun heq => (h₃ hodd).1 (by linarith),
      fun heq => (h₃ hodd).2 (by linarith)⟩⟩, fun h => absurd h hstep⟩

/-- A quotient that is rounded to a value of the format has its exponent, unless it lies below the power of two
that the value is. -/
theorem isExponent_of_isNear (hmq : IsNormal m q) (hnear : IsNear (v / 2 ^ q) m)
    (hpower : q ≠ -1074 → 2 ^ (52 + q) ≤ v) : IsExponent v q where
  least_le := hmq.least_le
  lt := by
    have hle : (m : ℚ) + 1 ≤ 9007199254740992 := by exact_mod_cast hmq.lt
    have hhigh := hnear.high
    have htwo : (2 : ℚ) ^ (53 : Int) = 9007199254740992 := by norm_num
    rw [zpow_add₀ two_ne_zero, htwo, ← div_lt_iff₀ (two_zpow_pos q)]
    linarith
  full := hpower

/-- The only value with such quotients below it is a power of two, and they are rounded up to it. -/
theorem isNear_below_step (hm : IsNormal m q) (hnear : IsNear (v / 2 ^ q) m)
    (hstep : IsStep m q → (m : ℚ) - 1 / 4 ≤ v / 2 ^ q) (hne : q ≠ -1074) (hlt : v < 2 ^ (52 + q)) :
    m = 2 ^ 52 ∧ IsExponent v (q - 1) ∧ IsNear (v / 2 ^ (q - 1)) (2 ^ 53) := by
  have hq := two_zpow_pos q
  have hleast := hm.least_le
  have htwo : (2 : ℚ) ^ (52 : Int) = 4503599627370496 := by norm_num
  rw [zpow_add₀ two_ne_zero, htwo, ← div_lt_iff₀ hq] at hlt
  have hhalf : v / 2 ^ (q - 1) = 2 * (v / 2 ^ q) := by
    rw [zpow_sub_one₀ two_ne_zero]
    field_simp
  have hm52 : m = 2 ^ 52 := by
    have hfull := hm.full hne
    have hlow := hnear.low
    have hlt' : (m : ℚ) < 4503599627370497 := by linarith
    have : m < 4503599627370497 := by exact_mod_cast hlt'
    omega
  have hquarter := hstep ⟨hm52, by omega⟩
  have hcast : (m : ℚ) = 4503599627370496 := by rw [hm52]; norm_num
  rw [hcast] at hquarter
  refine ⟨hm52, ⟨by omega, ?_, fun _ => ?_⟩, ⟨?_, ?_, fun hodd => absurd hodd (by norm_num)⟩⟩
  · rw [show 53 + (q - 1) = 52 + q by ring, zpow_add₀ two_ne_zero, htwo, ← div_lt_iff₀ hq]
    exact hlt
  · have hbelow : (2 : ℚ) ^ (51 : Int) = 2251799813685248 := by norm_num
    rw [show 52 + (q - 1) = 51 + q by ring, zpow_add₀ two_ne_zero, hbelow, ← le_div_iff₀ hq]
    linarith
  · rw [hhalf]
    norm_num
    linarith
  · rw [hhalf]
    norm_num
    linarith

/-- **Rounding.**  A quotient in the interval of a value is rounded to the value. -/
theorem ofRatio_eq (negative : Bool) (hm : 0 < m) (hmq : IsNormal m q) (hd : 0 < d)
    (h : (interval m q).Holds (n / d)) : ofRatio negative n d = .finite negative m q := by
  obtain ⟨hnear, hstep⟩ := h.isNear hm
  have hn : 0 < n := by
    rw [Nat.pos_iff_ne_zero]
    rintro rfl
    have hlow := hnear.low
    have hmone : (1 : ℚ) ≤ m := Nat.one_le_cast.2 hm
    rw [Nat.cast_zero, zero_div, zero_div] at hlow
    linarith
  by_cases hpower : q ≠ -1074 → (2 : ℚ) ^ (52 + q) ≤ n / d
  · have he := isExponent_of_isNear hmq hnear hpower
    rw [ofRatio_of_isNear negative hn hd he hnear, ofScaled_of_isNormal negative hmq]
  · obtain ⟨hne, hlt⟩ := Classical.not_imp.1 hpower
    obtain ⟨rfl, he, hround⟩ := isNear_below_step hmq hnear hstep hne (not_le.1 hlt)
    have hgreatest := hmq.le_greatest
    rw [ofRatio_of_isNear negative hn hd he hround, ofScaled_two_pow negative (by omega), sub_add_cancel]

end

end PlanarMath.Binary64
