import PlanarMath.Number.Basic
import PlanarMath.Proofs.Text.Legible

/-!
# Texts of numbers

The text of a number is a word: digits in front, or one of two words for what is no finite number, with a
minus sign before it where the number is negative.  So it is never a single letter, with a sign or without,
and a negative number reads as the sign before its opposite.

    -v < 0      text v  =  "-" ++ text (-v)
-/

namespace PlanarMath

namespace Text

theorem isAsciiDigit_digitChar {d : Nat} (h : d < 10) : isAsciiDigit (digitChar d) := by
  have all : ∀ d < 10, isAsciiDigit (digitChar d) := by decide
  exact all d h

theorem toDigits_lt (n : Nat) : ∀ d ∈ toDigits n, d < 10 := by
  induction n using Nat.strongRecOn with
  | _ n ih =>
    by_cases h : n < 10
    · rw [toDigits_of_lt h]
      exact List.forall_mem_singleton.2 h
    · rw [toDigits_of_le (by omega)]
      refine List.forall_mem_append.2 ⟨ih (n / 10) (by omega), List.forall_mem_singleton.2 ?_⟩
      omega

theorem toDigits_ne_nil (n : Nat) : toDigits n ≠ [] := by
  by_cases h : n < 10
  · rw [toDigits_of_lt h]
    exact List.cons_ne_nil _ _
  · rw [toDigits_of_le (by omega)]
    simp

/-- The digits of a number that is not zero start with none. -/
theorem head_toDigits {n : Nat} (h : 0 < n) : ∃ d ds, toDigits n = d :: ds ∧ d ≠ 0 := by
  induction n using Nat.strongRecOn with
  | _ n ih =>
    by_cases hn : n < 10
    · exact ⟨n, [], toDigits_of_lt hn, by omega⟩
    · obtain ⟨d, ds, hd, hne⟩ := ih (n / 10) (by omega) (by omega)
      exact ⟨d, ds ++ [n % 10], by rw [toDigits_of_le (by omega), hd]; rfl, hne⟩

/-- A number in decimal is a list of digits, with at least one. -/
theorem decimal_digits (n : Nat) : decimal n ≠ [] ∧ ∀ c ∈ decimal n, isAsciiDigit c := by
  unfold decimal
  refine ⟨by simpa using toDigits_ne_nil n, ?_⟩
  intro c hc
  obtain ⟨d, hd, rfl⟩ := List.mem_map.1 hc
  exact isAsciiDigit_digitChar (toDigits_lt n d hd)

theorem isPlain_of_isAsciiDigit {c : Char} (h : isAsciiDigit c) : isPlain c := by
  have ne : ∀ {d : Char}, isAsciiDigit d = false → c ≠ d := by
    rintro d hd rfl
    rw [hd] at h
    cases h
  simp [isPlain, ne (d := ' ') (by decide), ne (d := '(') (by decide), ne (d := ')') (by decide),
    ne (d := '!') (by decide), ne (d := '^') (by decide), ne (d := ',') (by decide)]

/-- No digit is a letter. -/
theorem isLetter_of_isAsciiDigit {c : Char} (h : isAsciiDigit c) : isLetter c = false := by
  simp only [isAsciiDigit, Bool.and_eq_true, decide_eq_true_eq] at h
  have low : ∀ {d : Char}, '9' < d → decide (d ≤ c) = false := by
    intro d hd
    rw [decide_eq_false_iff_not]
    intro hc
    exact absurd (Char.le_trans hc h.2) (Char.not_le.2 hd)
  simp [isLetter, isLetters, isBetween, low (d := 'a') (by decide), low (d := 'A') (by decide),
    low (d := 'α') (by decide), low (d := 'Α') (by decide)]

/-! ## Numerals -/

/-- A visible character of the ASCII range. -/
def IsVisible (c : Char) : Prop := 0x21 ≤ c.toNat ∧ c.toNat ≤ 0x7E

instance (c : Char) : Decidable (IsVisible c) := inferInstanceAs (Decidable (0x21 ≤ c.toNat ∧ c.toNat ≤ 0x7E))

theorem forall_isVisible {w : List Char} (h : w.all fun c => decide (IsVisible c)) : ∀ c ∈ w, IsVisible c := by
  simpa using h

theorem isVisible_of_isAsciiDigit {c : Char} (h : isAsciiDigit c) : IsVisible c := by
  simp only [isAsciiDigit, Bool.and_eq_true, decide_eq_true_eq, Char.le_def] at h
  have hlow : (0x30 : Nat) ≤ c.toNat := h.1
  have hhigh : c.toNat ≤ (0x39 : Nat) := h.2
  exact ⟨by omega, by omega⟩

/-- A text that stands for a number without a sign. -/
structure IsUnsigned (w : List Char) : Prop where
  word : IsWord w
  visible : ∀ c ∈ w, IsVisible c
  shape : (∃ c rest, w = c :: rest ∧ isAsciiDigit c) ∨ w = ['n', 'a', 'n'] ∨ w = ['i', 'n', 'f']

/-- Whether a text is the mark of an error or a single letter. -/
def isName : List Char → Bool
  | [c] => c == '?' || isLetter c
  | _ => false

theorem IsUnsigned.not_name {w : List Char} (h : IsUnsigned w) : isName w = false := by
  obtain ⟨c, rest, rfl, hc⟩ | rfl | rfl := h.shape
  · cases rest with
    | cons => rfl
    | nil =>
      have hne : c ≠ '?' := by
        rintro rfl
        exact absurd hc (by decide)
      simp [isName, hne, isLetter_of_isAsciiDigit hc]
  · rfl
  · rfl

theorem IsUnsigned.ne_minus {w v : List Char} (h : IsUnsigned w) : w ≠ '-' :: v := by
  rintro rfl
  obtain ⟨c, rest, hc, hd⟩ | h | h := h.shape
  · cases hc
    exact absurd hd (by decide)
  · cases h
  · cases h

/-- A text that stands for a number. -/
inductive IsSigned : List Char → Prop
  | plain {w} : IsUnsigned w → IsSigned w
  | minus {w} : IsUnsigned w → IsSigned ('-' :: w)

theorem IsSigned.word {w : List Char} (h : IsSigned w) : IsWord w := by
  cases h with
  | plain h => exact h.word
  | minus h => exact List.forall_mem_cons.2 ⟨by decide, h.word⟩

theorem IsSigned.not_name {w : List Char} (h : IsSigned w) : isName w = false := by
  cases h with
  | plain h => exact h.not_name
  | @minus w h => cases w <;> rfl

theorem IsSigned.visible {w : List Char} (h : IsSigned w) : ∀ c ∈ w, IsVisible c := by
  cases h with
  | plain h => exact h.visible
  | minus h => exact List.forall_mem_cons.2 ⟨by decide, h.visible⟩

/-- Behind the sign there is no name either. -/
theorem IsSigned.not_name_tail {w : List Char} (h : IsSigned ('-' :: w)) : isName w = false := by
  generalize hv : '-' :: w = v at h
  cases h with
  | plain h => exact absurd hv.symm h.ne_minus
  | minus h =>
    cases hv
    exact h.not_name

end Text

open Text

/-! ## Binary floating point -/

namespace Binary64

/-- A character of a decimal with a point or an exponent. -/
theorem isPlain_of_decimal {c : Char} (h : isAsciiDigit c ∨ c ∈ ['.', 'e', '-', '+']) : isPlain c := by
  rcases h with h | h
  · exact isPlain_of_isAsciiDigit h
  · have all : IsWord ['.', 'e', '-', '+'] := by decide
    exact all c h

/-- Digits in front of a word. -/
theorem isUnsigned_of_digits {digits rest : List Char} (hne : digits ≠ [])
    (hd : ∀ c ∈ digits, isAsciiDigit c) (hr : ∀ c ∈ rest, isAsciiDigit c ∨ c ∈ ['.', 'e', '-', '+']) :
    IsUnsigned (digits ++ rest) where
  word := List.forall_mem_append.2
    ⟨fun c hc => isPlain_of_isAsciiDigit (hd c hc), fun c hc => isPlain_of_decimal (hr c hc)⟩
  visible := by
    have all : ∀ c ∈ ['.', 'e', '-', '+'], IsVisible c := forall_isVisible rfl
    exact List.forall_mem_append.2 ⟨fun c hc => isVisible_of_isAsciiDigit (hd c hc),
      fun c hc => (hr c hc).elim isVisible_of_isAsciiDigit (all c)⟩
  shape := by
    match digits, hne with
    | c :: digits, _ => exact .inl ⟨c, digits ++ rest, rfl, hd c List.mem_cons_self⟩

section
variable {digits : List Char} (hne : digits ≠ []) (hd : ∀ c ∈ digits, isAsciiDigit c)
include hne hd

theorem isUnsigned_positional (place : Int) : IsUnsigned (positional digits place) := by
  unfold positional
  split
  · have hzero : ∀ c ∈ ['0'], isAsciiDigit c := List.forall_mem_singleton.2 rfl
    show IsUnsigned (['0'] ++ ('.' :: (List.replicate (-place).toNat '0' ++ digits)))
    refine isUnsigned_of_digits (List.cons_ne_nil _ _) hzero
      (List.forall_mem_cons.2 ⟨.inr (by decide), List.forall_mem_append.2
        ⟨?_, fun c hc => .inl (hd c hc)⟩⟩)
    intro c hc
    rw [List.eq_of_mem_replicate hc]
    exact .inl (by decide)
  · split
    · rw [List.append_assoc]
      refine isUnsigned_of_digits hne hd (List.forall_mem_append.2 ⟨?_, ?_⟩)
      · intro c hc
        rw [List.eq_of_mem_replicate hc]
        exact .inl (by decide)
      · exact List.forall_mem_cons.2 ⟨.inr (by decide), List.forall_mem_singleton.2 (.inl rfl)⟩
    · next hp _ =>
      have htake : digits.take place.toNat ≠ [] := by
        rw [Ne, List.take_eq_nil_iff]
        rintro (h | h)
        · omega
        · exact hne h
      refine isUnsigned_of_digits htake (fun c hc => hd c (List.mem_of_mem_take hc)) ?_
      refine List.forall_mem_cons.2 ⟨.inr (by decide), fun c hc => .inl (hd c (List.mem_of_mem_drop hc))⟩

theorem isUnsigned_scientific (exponent : Int) : IsUnsigned (scientific digits exponent) := by
  unfold scientific
  have hsize := (decimal_digits exponent.natAbs).2
  simp only
  rw [List.append_assoc]
  have htake : digits.take 1 ≠ [] := by
    rw [Ne, List.take_eq_nil_iff]
    simp [hne]
  refine isUnsigned_of_digits htake (fun c hc => hd c (List.mem_of_mem_take hc)) ?_
  refine List.forall_mem_append.2 ⟨?_, List.forall_mem_cons.2 ⟨.inr (by decide),
    List.forall_mem_cons.2 ⟨?_, ?_⟩⟩⟩
  · split
    · exact List.forall_mem_nil _
    · exact List.forall_mem_cons.2
        ⟨.inr (by decide), fun c hc => .inl (hd c (List.mem_of_mem_drop hc))⟩
  · split <;> exact .inr (by decide)
  · split
    · exact List.forall_mem_cons.2 ⟨.inl (by decide), fun c hc => .inl (hsize c hc)⟩
    · exact fun c hc => .inl (hsize c hc)

end

theorem isUnsigned_magnitude (m : Nat) (q : Int) : IsUnsigned (magnitude m q) := by
  unfold magnitude
  split
  · have hzero : ∀ c ∈ ['0'], isAsciiDigit c := List.forall_mem_singleton.2 rfl
    show IsUnsigned (['0'] ++ ['.', '0'])
    exact isUnsigned_of_digits (List.cons_ne_nil _ _) hzero
      (List.forall_mem_cons.2 ⟨.inr (by decide), List.forall_mem_singleton.2 (.inl rfl)⟩)
  · simp only
    obtain ⟨hne, hd⟩ := decimal_digits (shortest m q).1
    split
    · exact isUnsigned_positional hne hd _
    · exact isUnsigned_scientific hne hd _

end Binary64

/-! ## Numbers -/

namespace Number

theorem isUnsigned_decimal (n : Nat) : IsUnsigned (decimal n) := by
  obtain ⟨hne, hd⟩ := decimal_digits n
  rw [← List.append_nil (decimal n)]
  exact Binary64.isUnsigned_of_digits hne hd (List.forall_mem_nil _)

/-- **Texts of numbers.** -/
theorem isSigned_text (v : Number) : IsSigned v.text.toList := by
  have hinf : IsUnsigned ['i', 'n', 'f'] := ⟨by decide, forall_isVisible rfl, .inr (.inr rfl)⟩
  have hnan : IsUnsigned ['n', 'a', 'n'] := ⟨by decide, forall_isVisible rfl, .inr (.inl rfl)⟩
  match v with
  | .int (.ofNat n) =>
    rw [text, String.toList_ofList]
    exact .plain (isUnsigned_decimal n)
  | .int (.negSucc n) =>
    rw [text, String.toList_ofList]
    exact .minus (isUnsigned_decimal (n + 1))
  | .real .nan => exact .plain hnan
  | .real (.infinite true) => exact .minus hinf
  | .real (.infinite false) => exact .plain hinf
  | .real (.finite true m q) =>
    rw [text, Binary64.text, String.toList_ofList]
    exact .minus (Binary64.isUnsigned_magnitude m q)
  | .real (.finite false m q) =>
    rw [text, Binary64.text, String.toList_ofList]
    exact .plain (Binary64.isUnsigned_magnitude m q)

/-- A negative number reads as a minus sign before its opposite. -/
theorem text_of_isNegative {v : Number} (h : v.isNegative) :
    v.text.toList = '-' :: v.neg.text.toList := by
  match v with
  | .int (.ofNat n) =>
    simp only [isNegative, decide_eq_true_eq] at h
    exact absurd h (Int.not_lt.2 (Int.natCast_nonneg n))
  | .int (.negSucc n) => simp [text, neg, signedDecimal]; rfl
  | .real .nan => cases h
  | .real (.infinite true) => rfl
  | .real (.infinite false) => cases h
  | .real (.finite true m q) => simp [text, neg, Binary64.neg, Binary64.text]
  | .real (.finite false m q) => simp [isNegative, Binary64.isNegative] at h

end Number

end PlanarMath
