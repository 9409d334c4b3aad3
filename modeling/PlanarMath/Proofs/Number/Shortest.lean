import PlanarMath.Proofs.Number.Rounding

/-!
# The shortest decimal reads back

The search for the shortest decimal of a value ends, since a power of ten below the width of the interval has a
multiple in it, and what it finds lies in the interval.  So it is rounded to the value again, whether it is
written as it was found or with zeros behind it.

    value  ──interval──>  c · 10^g  ──ofDecimal──>  value
-/

namespace PlanarMath.Binary64

/-! ## Powers of ten and two -/

theorem ten_zpow_pos (e : Int) : (0 : ℚ) < 10 ^ e := zpow_pos (by norm_num) e

/-- Powers of ten against powers of two, by `10^59 < 2^196` and `2^93 < 10^28`. -/
theorem ten_zpow_le_two_zpow {p k : Int} (hup : 196 * p ≤ 59 * k) (hdown : 93 * p ≤ 28 * k) :
    (10 : ℚ) ^ p ≤ 2 ^ k := by
  rcases le_total 0 p with hp | hp
  · obtain ⟨a, rfl⟩ := Int.eq_ofNat_of_zero_le hp
    obtain ⟨b, rfl⟩ := Int.eq_ofNat_of_zero_le (show 0 ≤ k by omega)
    have hab : 196 * a ≤ b * 59 := by omega
    have hpow : (10 ^ a) ^ 59 ≤ (2 ^ b) ^ 59 := by
      calc (10 ^ a) ^ 59 = (10 ^ 59) ^ a := by rw [← pow_mul, ← pow_mul, mul_comm]
        _ ≤ (2 ^ 196) ^ a := Nat.pow_le_pow_left (by norm_num) a
        _ = 2 ^ (196 * a) := (pow_mul 2 196 a).symm
        _ ≤ 2 ^ (b * 59) := Nat.pow_le_pow_right two_pos hab
        _ = (2 ^ b) ^ 59 := pow_mul 2 b 59
    have hle : 10 ^ a ≤ 2 ^ b := (Nat.pow_le_pow_iff_left (by norm_num)).1 hpow
    rw [zpow_natCast, zpow_natCast]
    exact_mod_cast hle
  · rcases le_total 0 k with hk | hk
    · exact (zpow_le_one_of_nonpos₀ (by norm_num) hp).trans (one_le_zpow₀ one_le_two hk)
    · obtain ⟨a, ha⟩ := Int.eq_ofNat_of_zero_le (show 0 ≤ -p by omega)
      obtain ⟨b, hb⟩ := Int.eq_ofNat_of_zero_le (show 0 ≤ -k by omega)
      obtain rfl : p = -a := by omega
      obtain rfl : k = -b := by omega
      have hab : b * 28 ≤ 93 * a := by omega
      have hpow : (2 ^ b) ^ 28 ≤ (10 ^ a) ^ 28 := by
        calc (2 ^ b) ^ 28 = 2 ^ (b * 28) := (pow_mul 2 b 28).symm
          _ ≤ 2 ^ (93 * a) := Nat.pow_le_pow_right two_pos hab
          _ = (2 ^ 93) ^ a := pow_mul 2 93 a
          _ ≤ (10 ^ 28) ^ a := Nat.pow_le_pow_left (by norm_num) a
          _ = (10 ^ a) ^ 28 := by rw [← pow_mul, ← pow_mul, mul_comm]
      have hle : 2 ^ b ≤ 10 ^ a := (Nat.pow_le_pow_iff_left (by norm_num)).1 hpow
      rw [zpow_neg, zpow_neg, zpow_natCast, zpow_natCast]
      refine inv_anti₀ (by positivity) ?_
      exact_mod_cast hle

/-! ## Multiples in an interval -/

namespace Interval

variable {i : Interval} {power : Int}

/-- The factor of the power of ten in the comparisons of the search. -/
def step (i : Interval) (power : Int) : Nat := Nat.pow 10 power.toNat * Nat.pow 2 (-i.unit).toNat

/-- The factor of the unit in the comparisons of the search. -/
def scaledUnit (i : Interval) (power : Int) : Nat := Nat.pow 2 i.unit.toNat * Nat.pow 10 (-power).toNat

theorem step_pos : 0 < i.step power :=
  Nat.mul_pos (Nat.pow_pos (by decide)) (Nat.pow_pos two_pos)

/-- The two factors make up the unit of the interval and the power of ten, by one scale. -/
theorem exists_scale (i : Interval) (power : Int) : ∃ c : ℚ, 0 < c ∧
    (i.scaledUnit power : ℚ) * c = 2 ^ i.unit ∧ (i.step power : ℚ) * c = 10 ^ power := by
  have htwo := pow_toNat_div 2 i.unit
  have hten := pow_toNat_div 10 power
  have hu : (0 : ℚ) < ((2 ^ (-i.unit).toNat : Nat) : ℚ) := Nat.cast_pos.2 (Nat.pow_pos two_pos)
  have hp : (0 : ℚ) < ((10 ^ (-power).toNat : Nat) : ℚ) := Nat.cast_pos.2 (Nat.pow_pos (by norm_num))
  rw [Nat.cast_ofNat] at htwo hten
  refine ⟨(((2 ^ (-i.unit).toNat : Nat) : ℚ) * ((10 ^ (-power).toNat : Nat) : ℚ))⁻¹, by positivity, ?_, ?_⟩
  · rw [← htwo, scaledUnit, Nat.cast_mul]
    simp only [Nat.pow_eq]
    field_simp
  · rw [← hten, step, Nat.cast_mul]
    simp only [Nat.pow_eq]
    field_simp

theorem admits_iff {a b : Nat} : i.admits a b ↔ a ≤ b ∧ (i.closed = false → a ≠ b) := by
  unfold admits
  cases i.closed
  · simp [Nat.lt_iff_le_and_ne]
  · simp [Nat.le_iff_lt_or_eq]

/-- A multiple that the comparisons of the search admit at both ends. -/
theorem holds_of_admits {k : Nat} (hlow : i.admits (i.low * i.scaledUnit power) (k * i.step power))
    (hhigh : i.admits (k * i.step power) (i.high * i.scaledUnit power)) : i.Holds (k * 10 ^ power) := by
  obtain ⟨c, hc, hunit, hstep⟩ := i.exists_scale power
  obtain ⟨hlow, hnotLow⟩ := admits_iff.1 hlow
  obtain ⟨hhigh, hnotHigh⟩ := admits_iff.1 hhigh
  have hunit : ∀ a : Nat, (a * 2 ^ i.unit : ℚ) = ((a * i.scaledUnit power : Nat) : ℚ) * c := by
    intro a
    rw [← hunit, Nat.cast_mul, mul_assoc]
  have hstep : (k * 10 ^ power : ℚ) = ((k * i.step power : Nat) : ℚ) * c := by
    rw [← hstep, Nat.cast_mul, mul_assoc]
  refine ⟨?_, ?_, fun hclosed => ⟨fun heq => hnotLow hclosed ?_, fun heq => hnotHigh hclosed ?_⟩⟩
  · rw [hunit, hstep]
    exact mul_le_mul_of_nonneg_right (Nat.cast_le.2 hlow) hc.le
  · rw [hunit, hstep]
    exact mul_le_mul_of_nonneg_right (Nat.cast_le.2 hhigh) hc.le
  · rw [hunit, hstep] at heq
    exact Nat.cast_injective (mul_right_cancel₀ hc.ne' heq)
  · rw [hunit, hstep] at heq
    exact Nat.cast_injective (mul_right_cancel₀ hc.ne' heq)

theorem admits_of_lt {a b : Nat} (h : a < b) : i.admits a b := admits_iff.2 ⟨h.le, fun _ => h.ne⟩

/-- The search weighs the multiples next to the middle, below and above. -/
theorem multiple?_eq (i : Interval) (power : Int) : ∃ below : Nat,
    below * i.step power ≤ i.middle * i.scaledUnit power ∧
    i.middle * i.scaledUnit power < (below + 1) * i.step power ∧
    (i.multiple? power = some below ∧ i.admits (i.low * i.scaledUnit power) (below * i.step power) ∨
      i.multiple? power = some (below + 1) ∧
        i.admits ((below + 1) * i.step power) (i.high * i.scaledUnit power) ∨
      i.multiple? power = none ∧ ¬i.admits ((below + 1) * i.step power) (i.high * i.scaledUnit power)) := by
  refine ⟨i.middle * i.scaledUnit power / i.step power, Nat.div_mul_le_self _ _, ?_, ?_⟩
  · rw [Nat.add_mul, Nat.one_mul]
    exact Nat.lt_div_mul_add step_pos
  · have hdef : i.multiple? power = if i.admits (i.low * i.scaledUnit power)
        (i.middle * i.scaledUnit power / i.step power * i.step power) && _ then _ else _ := rfl
    rw [hdef]
    split
    · next h => exact .inl ⟨rfl, (Bool.and_eq_true_iff.1 h).1⟩
    · split
      · next h => exact .inr (.inl ⟨rfl, h⟩)
      · next h => exact .inr (.inr ⟨rfl, h⟩)

/-- What the search takes lies in the interval. -/
theorem holds_of_multiple? {k : Nat} (hlow : i.low < i.middle) (hhigh : i.middle < i.high)
    (h : i.multiple? power = some k) : i.Holds (k * 10 ^ power) := by
  obtain ⟨below, hbelow, habove, hcases⟩ := i.multiple?_eq power
  have hunit : 0 < i.scaledUnit power := Nat.mul_pos (Nat.pow_pos two_pos) (Nat.pow_pos (by decide))
  obtain ⟨hk, hfits⟩ | ⟨hk, hfits⟩ | ⟨hk, -⟩ := hcases
  · cases hk.symm.trans h
    exact holds_of_admits hfits (admits_of_lt (hbelow.trans_lt (Nat.mul_lt_mul_of_pos_right hhigh hunit)))
  · cases hk.symm.trans h
    exact holds_of_admits (admits_of_lt ((Nat.mul_lt_mul_of_pos_right hlow hunit).trans habove)) hfits
  · cases hk.symm.trans h

/-- A power of ten that is shorter than the upper half of the interval has a multiple in it. -/
theorem multiple?_isSome (hhigh : i.high = i.middle + 2) (h : (10 : ℚ) ^ power < 2 * 2 ^ i.unit) :
    (i.multiple? power).isSome := by
  obtain ⟨below, hbelow, -, hcases⟩ := i.multiple?_eq power
  have hstep : i.step power < 2 * i.scaledUnit power := by
    obtain ⟨c, hc, hunit, hstep⟩ := i.exists_scale power
    rw [← hunit, ← hstep, ← mul_assoc, mul_lt_mul_iff_left₀ hc] at h
    exact_mod_cast h
  have hfits : i.admits ((below + 1) * i.step power) (i.high * i.scaledUnit power) := by
    refine admits_of_lt ?_
    rw [hhigh, Nat.add_mul, Nat.add_mul]
    omega
  obtain ⟨hk, -⟩ | ⟨hk, -⟩ | ⟨-, hnot⟩ := hcases
  · rw [hk]
    rfl
  · rw [hk]
    rfl
  · exact absurd hfits hnot

/-- The search ends at the first power that has a multiple. -/
theorem coarsest_eq {count j : Nat} (hj : j < count) (h : (i.multiple? (power - j)).isSome) :
    ∃ k p, i.coarsest count power = (k, p) ∧ i.multiple? p = some k := by
  induction count generalizing power j with
  | zero => exact absurd hj (Nat.not_lt_zero j)
  | succ count ih =>
    rw [coarsest]
    cases hk : i.multiple? power with
    | some k => exact ⟨k, power, rfl, hk⟩
    | none =>
      cases j with
      | zero =>
        rw [Nat.cast_zero, sub_zero, hk] at h
        cases h
      | succ j =>
        refine ih (Nat.lt_of_succ_lt_succ hj) ?_
        rwa [sub_sub, add_comm, ← Nat.cast_succ]

end Interval

/-! ## The shortest decimal -/

section
variable {m : Nat} {q : Int}

/-- **The search** for the shortest decimal of a value finds one that is rounded to the value. -/
theorem shortest_holds (hm : 0 < m) (hmq : IsNormal m q) :
    (interval m q).Holds ((shortest m q).1 * 10 ^ (shortest m q).2) := by
  have hlog : m.log2 ≤ 52 := Nat.lt_succ_iff.1 ((Nat.log2_lt hm.ne').2 hmq.lt)
  have hleast := hmq.least_le
  have hgreatest := hmq.le_greatest
  obtain ⟨start, hstart⟩ : ∃ start, start = ((m.log2 : Int) + q) * 30103 / 100000 := ⟨_, rfl⟩
  have hwidth : (10 : ℚ) ^ (start + 2 - (23 : Nat)) < 2 * 2 ^ (interval m q).unit := by
    have hle : (10 : ℚ) ^ (start + 2 - (23 : Nat)) ≤ 2 ^ (q - 2) := by
      apply ten_zpow_le_two_zpow
      · omega
      · omega
    have hpos := two_zpow_pos (q - 2)
    exact hle.trans_lt (by change (2 : ℚ) ^ (q - 2) < 2 * 2 ^ (q - 2); linarith)
  obtain ⟨k, p, hcoarsest, hk⟩ :=
    Interval.coarsest_eq (show 23 < 24 by decide) (Interval.multiple?_isSome rfl hwidth)
  have hshortest : shortest m q = (k, p) := by
    rw [← hcoarsest, hstart]
    rfl
  rw [hshortest]
  refine Interval.holds_of_multiple? ?_ ?_ hk
  · by_cases hstep : IsStep m q
    · rw [interval_of_isStep hstep]
      simp only
      omega
    · rw [interval_of_not_isStep hstep]
      simp only
      omega
  · exact Nat.lt_add_of_pos_right two_pos

/-! ## Decimals -/

/-- The numbers of an interval are neither beyond the format nor too small for it. -/
theorem Interval.Holds.bounds {v : ℚ} (hm : 0 < m) (hmq : IsNormal m q) (h : (interval m q).Holds v) :
    2 ^ (-1075 : Int) ≤ v ∧ v < 2 ^ (1024 : Int) := by
  obtain ⟨hnear, -⟩ := h.isNear hm
  have hq := two_zpow_pos q
  constructor
  · have hmone : (1 : ℚ) ≤ m := Nat.one_le_cast.2 hm
    have hlow := hnear.low
    have hhalf : (1 / 2 : ℚ) ≤ v / 2 ^ q := by linarith
    rw [le_div_iff₀ hq] at hhalf
    refine le_trans ?_ hhalf
    have hpow : (1 / 2 * 2 ^ q : ℚ) = 2 ^ (q - 1) := by
      rw [zpow_sub_one₀ two_ne_zero]
      ring
    rw [hpow]
    have hleast := hmq.least_le
    exact zpow_le_zpow_right₀ one_le_two (by omega)
  · have hhigh := hnear.high
    have hle : (m : ℚ) + 1 ≤ 9007199254740992 := by exact_mod_cast hmq.lt
    have htwo : (2 : ℚ) ^ (53 : Int) = 9007199254740992 := by norm_num
    have hlt : v / 2 ^ q < 2 ^ (53 : Int) := by linarith
    rw [div_lt_iff₀ hq, ← zpow_add₀ two_ne_zero] at hlt
    have hgreatest := hmq.le_greatest
    exact hlt.trans_le (zpow_le_zpow_right₀ one_le_two (by omega))

/-- A decimal in the interval of a value is read as the value, whatever its digits and its power of ten. -/
theorem ofDecimal_eq (negative : Bool) (hm : 0 < m) (hmq : IsNormal m q) {n : Nat} {k : Int}
    (h : (interval m q).Holds (n * 10 ^ k)) : ofDecimal negative n k = .finite negative m q := by
  obtain ⟨hlow, hhigh⟩ := h.bounds hm hmq
  have hten := ten_zpow_pos k
  have hn : 0 < n := by
    rw [Nat.pos_iff_ne_zero]
    rintro rfl
    rw [Nat.cast_zero, zero_mul] at hlow
    exact absurd hlow (not_le.2 (two_zpow_pos _))
  have hfinite : ¬310 ≤ k := by
    intro hk
    have hone : (1 : ℚ) ≤ n := Nat.one_le_cast.2 hn
    have hle : (2 : ℚ) ^ (1024 : Int) ≤ 10 ^ (310 : Int) := by
      have hinv : (10 : ℚ) ^ (-310 : Int) ≤ 2 ^ (-1024 : Int) := ten_zpow_le_two_zpow (by decide) (by decide)
      rwa [zpow_neg, zpow_neg, inv_le_inv₀ (ten_zpow_pos 310) (two_zpow_pos 1024)] at hinv
    have hpow : (10 : ℚ) ^ (310 : Int) ≤ 10 ^ k := zpow_le_zpow_right₀ (by norm_num) hk
    have hmul : (10 : ℚ) ^ k ≤ n * 10 ^ k := le_mul_of_one_le_left hten.le hone
    exact absurd hhigh (not_lt.2 (hle.trans (hpow.trans hmul)))
  have hnonzero : ¬(k < 0 ∧ (n.log2 : Int) + 3 * k < -1200) := by
    rintro ⟨hk, hlog⟩
    have hpow : (10 : ℚ) ^ k ≤ 2 ^ (3 * k) := ten_zpow_le_two_zpow (by omega) (by omega)
    have hlt : (n * 10 ^ k : ℚ) < 2 ^ ((n.log2 : Int) + 1 + 3 * k) := by
      rw [zpow_add₀ two_ne_zero]
      calc (n * 10 ^ k : ℚ) < 2 ^ ((n.log2 : Int) + 1) * 10 ^ k := mul_lt_mul_of_pos_right (lt_pow_log2 n) hten
        _ ≤ _ := mul_le_mul_of_nonneg_left hpow (two_zpow_pos _).le
    have hle : (2 : ℚ) ^ ((n.log2 : Int) + 1 + 3 * k) ≤ 2 ^ (-1075 : Int) :=
      zpow_le_zpow_right₀ one_le_two (by omega)
    exact absurd hlow (not_le.2 (hlt.trans_le hle))
  unfold ofDecimal
  rw [if_neg hn.ne', if_neg hfinite, if_neg hnonzero]
  split
  · next hk =>
    refine ofRatio_eq negative hm hmq one_pos ?_
    rw [Nat.cast_mul, Nat.cast_one, div_one]
    have hpow := natCast_pow_toNat 10 hk
    rw [Nat.cast_ofNat] at hpow
    exact hpow ▸ h
  · next hk =>
    refine ofRatio_eq negative hm hmq (Nat.pow_pos (by decide)) ?_
    have hpow := natCast_pow_toNat 10 (show 0 ≤ -k by omega)
    rw [Nat.cast_ofNat, zpow_neg] at hpow
    change (interval m q).Holds (n / ((10 ^ (-k).toNat : Nat) : ℚ))
    rw [hpow, div_inv_eq_mul]
    exact h

end

end PlanarMath.Binary64
