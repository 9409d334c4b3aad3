import PlanarMath.Number.Basic

/-!
# Magnitudes of numbers

The number without its sign.  Folding a minus sign into a number keeps its magnitude, and a numeral, which
has no sign, is read as a number that is its own magnitude.

    abs (neg v) = abs v          ofText? "digits and points" = some v  →  abs v = v
-/

namespace PlanarMath

namespace Binary64

/-- The value without its sign. -/
def abs : Binary64 → Binary64
  | .nan => .nan
  | .infinite _ => .infinite false
  | .finite _ m q => .finite false m q

theorem abs_neg (x : Binary64) : x.neg.abs = x.abs := by
  cases x <;> rfl

theorem abs_ofScaled (m : Nat) (q : Int) : (ofScaled false m q).abs = ofScaled false m q := by
  unfold ofScaled
  simp only
  split <;> split <;> rfl

theorem abs_ofRatio (n d : Nat) : (ofRatio false n d).abs = ofRatio false n d := by
  unfold ofRatio
  split
  · rfl
  · exact abs_ofScaled _ _

/-- A decimal without a sign. -/
theorem abs_ofDecimal (m : Nat) (k : Int) : (ofDecimal false m k).abs = ofDecimal false m k := by
  unfold ofDecimal
  split
  · rfl
  · split
    · rfl
    · split
      · rfl
      · split
        · exact abs_ofRatio _ _
        · exact abs_ofRatio _ _

end Binary64

namespace Literal

open Text

/-- Whether a text holds nothing but digits and points. -/
def IsDigits (cs : List Char) : Prop := ∀ c ∈ cs, isAsciiDigit c ∨ c = '.'

theorem trim_subset (blank : Char → Bool) (cs : List Char) : trim blank cs ⊆ cs := by
  intro c hc
  unfold trim at hc
  rw [List.mem_reverse] at hc
  have h := (List.dropWhile_sublist blank).subset hc
  rw [List.mem_reverse] at h
  exact (List.dropWhile_sublist blank).subset h

theorem ungrouped?_subset {afterDigit : Bool} {cs ds : List Char} (h : ungrouped? afterDigit cs = some ds) :
    ds ⊆ cs := by
  fun_induction ungrouped? afterDigit cs generalizing ds with
  | case1 => cases h; exact List.Subset.refl _
  | case2 afterDigit rest hd ih => exact List.Subset.trans (ih h) (List.subset_cons_self _ _)
  | case3 => cases h
  | case4 afterDigit c rest _ ih =>
    obtain ⟨es, hes, rfl⟩ := Option.map_eq_some_iff.1 h
    exact List.cons_subset_cons c (ih hes)

theorem plainChar_of_digits {c : Char} (h : isAsciiDigit c ∨ c = '.') : plainChar c = c := by
  have hlow : c.toNat < 128 := by
    rcases h with h | rfl
    · simp only [isAsciiDigit, Bool.and_eq_true, decide_eq_true_eq] at h
      have hnine : c.toNat ≤ '9'.toNat := h.2
      exact Nat.lt_of_le_of_lt hnine (by decide)
    · decide
  rw [plainChar, if_pos hlow]

/-- The plain text of digits and points is of digits and points. -/
theorem isDigits_plain {text : List Char} (h : IsDigits text) : IsDigits (plain (String.ofList text)) := by
  intro c hc
  have hm := trim_subset _ _ hc
  rw [String.toList_ofList] at hm
  obtain ⟨d, hd, rfl⟩ := List.mem_map.1 hm
  rw [plainChar_of_digits (h d hd)]
  exact h d hd

/-- No sign stands before digits and points. -/
theorem signed_of_digits {cs : List Char} (h : IsDigits cs) : signed cs = (false, cs) := by
  unfold signed
  split
  · exact absurd (h '-' List.mem_cons_self) (by decide)
  · exact absurd (h '+' List.mem_cons_self) (by decide)
  · rfl

end Literal

namespace Number

open Literal

/-- The number without its sign. -/
def abs : Number → Number
  | .int n => .int n.natAbs
  | .real x => .real x.abs

theorem abs_neg (v : Number) : v.neg.abs = v.abs := by
  cases v with
  | int n => simp [neg, abs]
  | real x => simp [neg, abs, Binary64.abs_neg]

theorem abs_of_integer? {text : List Char} (h : IsDigits text) {n : Int}
    (hn : integer? (String.ofList text) = some n) : (int n).abs = int n := by
  unfold integer? at hn
  rw [signed_of_digits (isDigits_plain h)] at hn
  simp only [Option.bind_eq_bind, Option.bind_eq_some_iff] at hn
  obtain ⟨cs, -, ds, -, hn⟩ := hn
  split at hn
  · cases hn
    simp [abs, ofSign]
  · cases hn

theorem abs_of_real? {text : List Char} (h : IsDigits text) {x : Binary64}
    (hx : real? (String.ofList text) = some x) : (real x).abs = real x := by
  unfold real? at hx
  simp only [Option.bind_eq_bind, Option.bind_eq_some_iff] at hx
  obtain ⟨cs, hcs, hx⟩ := hx
  have hdigits : IsDigits cs := fun c hc => isDigits_plain h c (ungrouped?_subset hcs hc)
  unfold binary64? at hx
  rw [signed_of_digits hdigits] at hx
  simp only at hx
  split at hx
  · cases hx
    rfl
  · split at hx
    · cases hx
      rfl
    · obtain ⟨⟨m, k⟩, -, rfl⟩ := Option.map_eq_some_iff.1 hx
      exact congrArg real (Binary64.abs_ofDecimal m k)

/-- **Magnitudes.**  A numeral has no sign. -/
theorem abs_of_ofText? {text : List Char} (h : IsDigits text) {v : Number}
    (hv : ofText? (String.ofList text) = some v) : v.abs = v := by
  unfold ofText? at hv
  split at hv
  · obtain ⟨x, hx, rfl⟩ := Option.map_eq_some_iff.1 hv
    exact abs_of_real? h hx
  · obtain ⟨n, hn, rfl⟩ := Option.map_eq_some_iff.1 hv
    exact abs_of_integer? h hn

end Number

end PlanarMath
