import Mathlib.Data.List.TakeWhile
import PlanarMath.Proofs.Json.Grammar
import PlanarMath.Proofs.Number.Decimal

/-!
# Numerals in a text

The reader takes the longest numeral from the start of a text.  What it takes is written as a numeral as soon as it
has a digit, and a written numeral is taken whole, as long as what follows does not go on with it.  A numeral always
has a value, but for an integer that is too long.

    -12 , 1.5E+10        -12   whole 12            1.5E+10   whole 1   fraction .5   exponent E+10
-/

namespace PlanarMath.Json

open Text

theorem ne_of_isAsciiDigit {c d : Char} (hc : isAsciiDigit c) (hd : isAsciiDigit d = false) : c ≠ d := by
  rintro rfl
  rw [hc] at hd
  cases hd

/-- A rest that a number does not go on with. -/
def StopsNumber (cs : List Char) : Prop :=
  ∀ c ∈ cs.head?, isAsciiDigit c = false ∧ c ≠ '.' ∧ c ≠ 'e' ∧ c ≠ 'E'

theorem stopsNumber_nil : StopsNumber [] := nofun

/-! ## What is taken -/

theorem areDigits_takeWhile {cs : List Char} (h : (cs.takeWhile isAsciiDigit).isEmpty = false) :
    AreDigits (cs.takeWhile isAsciiDigit) :=
  ⟨by simpa using h, fun _ => List.mem_takeWhile_imp⟩

theorem wholeDigits_isPrefix (cs : List Char) : wholeDigits cs <+: cs := by
  match cs with
  | [] => exact List.prefix_rfl
  | c :: cs =>
    rw [wholeDigits]
    split
    · exact ⟨cs, rfl⟩
    · exact List.takeWhile_prefix _

theorem wholeDigits_spec {cs : List Char} (h : wholeDigits cs ≠ []) :
    AreDigits (wholeDigits cs) ∧ ((wholeDigits cs).head? = some '0' → wholeDigits cs = ['0']) := by
  match cs with
  | [] => exact absurd rfl h
  | c :: cs =>
    by_cases hc : c = '0'
    · subst hc
      exact ⟨⟨List.cons_ne_nil _ _, List.forall_mem_singleton.2 rfl⟩, fun _ => rfl⟩
    · have hwhole : wholeDigits (c :: cs) = (c :: cs).takeWhile isAsciiDigit := if_neg hc
      rw [hwhole] at h ⊢
      refine ⟨⟨h, fun _ => List.mem_takeWhile_imp⟩, fun hzero => absurd ?_ hc⟩
      rw [List.head?_takeWhile, List.head?_cons] at hzero
      exact (Option.filter_eq_some_iff.1 hzero).1 |> Option.some.inj

theorem fractionPart_spec (cs : List Char) : fractionPart cs <+: cs ∧ IsFraction (fractionPart cs) := by
  unfold fractionPart
  split
  · next cs =>
    simp only
    split
    · exact ⟨List.nil_prefix, .inl rfl⟩
    · next hne =>
      exact ⟨(List.prefix_append_right_inj ['.']).2 (List.takeWhile_prefix _),
        .inr ⟨_, rfl, areDigits_takeWhile (Bool.eq_false_iff.2 hne)⟩⟩
  · exact ⟨List.nil_prefix, .inl rfl⟩

theorem signPart_spec (cs : List Char) :
    signPart cs <+: cs ∧ (signPart cs = [] ∨ signPart cs = ['+'] ∨ signPart cs = ['-']) := by
  unfold signPart
  split
  · exact ⟨⟨_, rfl⟩, .inr (.inl rfl)⟩
  · exact ⟨⟨_, rfl⟩, .inr (.inr rfl)⟩
  · exact ⟨List.nil_prefix, .inl rfl⟩

theorem exponentPart_spec (cs : List Char) : exponentPart cs <+: cs ∧ IsExponent (exponentPart cs) := by
  match cs with
  | [] => exact ⟨List.nil_prefix, .inl rfl⟩
  | c :: cs =>
    obtain ⟨hstart, hsign⟩ := signPart_spec cs
    rw [exponentPart]
    simp only
    split_ifs with hc hempty
    · exact ⟨List.nil_prefix, .inl rfl⟩
    · constructor
      · have htake : (cs.drop (signPart cs).length).takeWhile isAsciiDigit <+: cs.drop (signPart cs).length :=
          List.takeWhile_prefix _
        have hcs : c :: cs = c :: signPart cs ++ cs.drop (signPart cs).length :=
          congrArg (c :: ·) (List.prefix_iff_eq_append.1 hstart).symm
        rw [hcs]
        exact (List.prefix_append_right_inj (c :: signPart cs)).2 htake
      · exact .inr ⟨c, signPart cs, _, rfl, hc, hsign, areDigits_takeWhile (Bool.eq_false_iff.2 hempty)⟩
    · exact ⟨List.nil_prefix, .inl rfl⟩

namespace Numeral

theorem chars_eq (n : Numeral) :
    n.chars = (if n.negative then ['-'] else []) ++ (n.whole ++ (n.fraction ++ n.exponent)) := by
  simp [chars]

/-- What follows the sign starts with the numeral that is taken from it, which is written as one if it has digits. -/
theorem ofUnsigned_spec (negative : Bool) (cs : List Char) :
    ∃ rest, (if negative then ['-'] else []) ++ cs = (ofUnsigned negative cs).chars ++ rest ∧
      ((ofUnsigned negative cs).whole ≠ [] → (ofUnsigned negative cs).IsWritten) := by
  have hwhole := List.prefix_iff_eq_append.1 (wholeDigits_isPrefix cs)
  obtain ⟨hfraction, isFraction⟩ := fractionPart_spec (cs.drop (wholeDigits cs).length)
  rw [List.prefix_iff_eq_append] at hfraction
  obtain ⟨⟨rest, hexponent⟩, isExponent⟩ := exponentPart_spec
    ((cs.drop (wholeDigits cs).length).drop (fractionPart (cs.drop (wholeDigits cs).length)).length)
  refine ⟨rest, ?_, fun hne => ?_⟩
  · rw [chars_eq, List.append_assoc, List.append_assoc, List.append_assoc]
    exact congrArg _ (by rw [ofUnsigned, hexponent, hfraction, hwhole])
  · obtain ⟨isDigits, hzero⟩ := wholeDigits_spec hne
    exact ⟨isDigits, hzero, isFraction, isExponent⟩

/-- **Taken.**  A text starts with the numeral that is taken from it, which is written as one if it has digits. -/
theorem ofStart_spec (cs : List Char) : ∃ rest, cs = (ofStart cs).chars ++ rest ∧
    ((ofStart cs).whole ≠ [] → (ofStart cs).IsWritten) := by
  unfold ofStart
  split
  · next cs => exact ofUnsigned_spec true cs
  · exact ofUnsigned_spec false cs

end Numeral

/-! ## What is left -/

section
variable {cs : List Char} (hcs : StopsNumber cs)
include hcs

theorem fractionPart_stop : fractionPart cs = [] := by
  unfold fractionPart
  split
  · exact absurd rfl (hcs '.' rfl).2.1
  · rfl

theorem exponentPart_stop : exponentPart cs = [] := by
  cases cs with
  | nil => rfl
  | cons c cs =>
    obtain ⟨-, -, he, hE⟩ := hcs c rfl
    exact if_neg (not_or.2 ⟨he, hE⟩)

theorem stopsDigits_exponent {exponent : List Char} (h : IsExponent exponent) : StopsDigits (exponent ++ cs) := by
  obtain rfl | ⟨e, sign, ds, rfl, rfl | rfl, -⟩ := h
  · exact fun c hc => (hcs c hc).1
  · rintro c ⟨⟩
    decide
  · rintro c ⟨⟩
    decide

theorem stopsDigits_fraction {fraction exponent : List Char} (hf : IsFraction fraction) (he : IsExponent exponent) :
    StopsDigits (fraction ++ (exponent ++ cs)) := by
  obtain rfl | ⟨ds, rfl, -⟩ := hf
  · exact stopsDigits_exponent hcs he
  · rintro c ⟨⟩
    decide

theorem exponentPart_append {exponent : List Char} (h : IsExponent exponent) :
    exponentPart (exponent ++ cs) = exponent := by
  obtain rfl | ⟨e, sign, ds, rfl, he, hsign, hne, hds⟩ := h
  · exact exponentPart_stop hcs
  · have hpart : signPart (sign ++ (ds ++ cs)) = sign := by
      obtain rfl | rfl | rfl := hsign
      · obtain ⟨d, ds, rfl⟩ := List.exists_cons_of_ne_nil hne
        have hd : isAsciiDigit d := hds d List.mem_cons_self
        have hplus : d ≠ '+' := ne_of_isAsciiDigit hd rfl
        have hminus : d ≠ '-' := ne_of_isAsciiDigit hd rfl
        simp [signPart, hplus, hminus]
      · rfl
      · rfl
    have htake : (ds ++ cs).takeWhile isAsciiDigit = ds := takeWhile_digits hds fun c hc => (hcs c hc).1
    have hempty : ds.isEmpty = false := by simpa using hne
    rw [List.cons_append, List.append_assoc, exponentPart, if_pos he]
    simp only [hpart, List.drop_left, htake, hempty, Bool.false_eq_true, if_false]

theorem fractionPart_append {fraction exponent : List Char} (hf : IsFraction fraction) (he : IsExponent exponent) :
    fractionPart (fraction ++ (exponent ++ cs)) = fraction := by
  obtain rfl | ⟨ds, rfl, hne, hds⟩ := hf
  · obtain rfl | ⟨e, sign, ds, rfl, rfl | rfl, -⟩ := he
    · exact fractionPart_stop hcs
    · rfl
    · rfl
  · have htake := takeWhile_digits hds (stopsDigits_exponent hcs he)
    have hempty : ds.isEmpty = false := by simpa using hne
    simp [fractionPart, htake, hempty]

end

theorem wholeDigits_append {whole behind : List Char} (hdigits : AreDigits whole)
    (hzero : whole.head? = some '0' → whole = ['0']) (hbehind : StopsDigits behind) :
    wholeDigits (whole ++ behind) = whole := by
  obtain ⟨hne, hds⟩ := hdigits
  obtain ⟨d, ds, rfl⟩ := List.exists_cons_of_ne_nil hne
  by_cases hd : d = '0'
  · subst hd
    rw [hzero rfl]
    rfl
  · rw [List.cons_append, wholeDigits, if_neg hd]
    exact takeWhile_digits hds hbehind

namespace Numeral

variable {n : Numeral}

theorem ofUnsigned_append (h : n.IsWritten) {cs : List Char} (hcs : StopsNumber cs) :
    ofUnsigned n.negative (n.whole ++ (n.fraction ++ (n.exponent ++ cs))) = n := by
  have hwhole := wholeDigits_append h.whole h.zero (stopsDigits_fraction hcs h.fraction h.exponent)
  simp only [ofUnsigned, hwhole, List.drop_left, fractionPart_append hcs h.fraction h.exponent,
    exponentPart_append hcs h.exponent]

/-- The first digit of a numeral. -/
theorem IsWritten.exists_digit (h : n.IsWritten) : ∃ d ds, n.whole = d :: ds ∧ isAsciiDigit d := by
  obtain ⟨d, ds, hd⟩ := List.exists_cons_of_ne_nil h.whole.1
  exact ⟨d, ds, hd, h.whole.2 d (by rw [hd]; exact List.mem_cons_self)⟩

/-- **Taken whole.**  A written numeral is taken from a text that does not go on with it. -/
theorem ofStart_append (h : n.IsWritten) {cs : List Char} (hcs : StopsNumber cs) :
    ofStart (n.chars ++ cs) = n := by
  have hunsigned := ofUnsigned_append h hcs
  rw [chars_eq, List.append_assoc, List.append_assoc, List.append_assoc]
  cases hsign : n.negative with
  | true =>
    rw [hsign] at hunsigned
    exact hunsigned
  | false =>
    obtain ⟨d, ds, hd, hdigit⟩ := h.exists_digit
    have hminus : d ≠ '-' := ne_of_isAsciiDigit hdigit rfl
    rw [hsign, hd] at hunsigned
    rw [hd]
    unfold ofStart
    split
    · next hstart => exact absurd (List.cons.inj hstart).1 hminus
    · exact hunsigned

/-! ## Values -/

theorem leadingDigits_whole (h : n.IsWritten) :
    Literal.leadingDigits n.whole = n.whole.filterMap asciiDigit? := by
  have htake := takeWhile_digits h.whole.2 stopsDigits_nil
  rw [List.append_nil] at htake
  rw [Literal.leadingDigits, htake]

/-- An integer has as many digits as its numeral. -/
theorem isShort_integer (h : n.IsWritten) :
    Literal.isShort n.integer = decide (n.whole.length ≤ Literal.digitLimit) := by
  obtain ⟨ds, hds, hlt⟩ := exists_digitChars h.whole.2
  have hvalue : n.integer.natAbs = ofDigits ds := by
    have hleading := Literal.leadingDigits_digitChars hlt stopsDigits_nil
    rw [List.append_nil] at hleading
    rw [integer, ← leadingDigits_whole h, ← hds, hleading, Literal.natAbs_ofSign]
  have hdigits : toDigits (ofDigits ds) = ds := by
    obtain ⟨d, rest, rfl⟩ : ∃ d rest, ds = d :: rest :=
      List.exists_cons_of_ne_nil fun hnil => h.whole.1 (by rw [← hds, hnil]; rfl)
    by_cases hd : d = 0
    · have hone := h.zero (by rw [← hds, hd]; rfl)
      have hrest : digitChars rest = [] := by
        rw [← hds, hd] at hone
        exact (List.cons.inj hone).2
      rw [hd, List.map_eq_nil_iff.1 hrest]
      exact toDigits_of_lt (by decide)
    · exact toDigits_ofDigits hd hlt
  rw [Literal.isShort, decimal, hvalue, hdigits, List.length_map, ← length_digitChars, hds]

/-! ## Real numbers -/

theorem exists_digits {ds : List Char} (h : AreDigits ds) : ∃ ns, Literal.digits? ds = some ns := by
  obtain ⟨ns, rfl, hlt⟩ := exists_digitChars h.2
  refine ⟨ns, Literal.digits?_digitChars ?_ hlt⟩
  rintro rfl
  exact h.1 rfl

theorem exists_exponent {cs : List Char} (h : IsExponent cs) : ∃ k, Literal.exponent? cs = some k := by
  obtain rfl | ⟨e, sign, ds, rfl, he, hsign, hds⟩ := h
  · exact ⟨0, rfl⟩
  · obtain ⟨negative, hsigned⟩ : ∃ negative, Literal.signed (sign ++ ds) = (negative, ds) := by
      obtain rfl | rfl | rfl := hsign
      · obtain ⟨d, ds, rfl⟩ := List.exists_cons_of_ne_nil hds.1
        have hd : isAsciiDigit d := hds.2 d List.mem_cons_self
        have hplus : d ≠ '+' := ne_of_isAsciiDigit hd rfl
        have hminus : d ≠ '-' := ne_of_isAsciiDigit hd rfl
        exact ⟨false, by simp [Literal.signed, hplus, hminus]⟩
      · exact ⟨false, rfl⟩
      · exact ⟨true, rfl⟩
    obtain ⟨ns, hns⟩ := exists_digits hds
    rw [Literal.exponent?, if_pos he, hsigned]
    simp only [hns, Option.map_some]
    exact ⟨_, rfl⟩

/-- The magnitude of a numeral is read in its three parts. -/
theorem exists_decimal (h : n.IsWritten) : ∃ m, Literal.decimal? (n.whole ++ (n.fraction ++ n.exponent)) = some m := by
  obtain ⟨k, hk⟩ := exists_exponent h.exponent
  have hstop := stopsDigits_fraction stopsNumber_nil h.fraction h.exponent
  rw [List.append_nil] at hstop
  have hdrop := dropWhile_digits h.whole.2 hstop
  have hwhole : (Literal.leadingDigits (n.whole ++ (n.fraction ++ n.exponent))).isEmpty = false := by
    obtain ⟨ds, hds, hlt⟩ := exists_digitChars h.whole.2
    rw [← hds, Literal.leadingDigits_digitChars hlt hstop, List.isEmpty_eq_false_iff]
    rintro rfl
    exact h.whole.1 hds.symm
  unfold Literal.decimal?
  simp only [hdrop, hwhole, Bool.false_and, Bool.false_eq_true, if_false]
  obtain hf | ⟨ds, hf, hds⟩ := h.fraction
  · have hpoint : ∀ cs, n.exponent ≠ '.' :: cs := by
      intro cs hcs
      obtain hnil | ⟨e, sign, ds, heq, rfl | rfl, -⟩ := h.exponent
      · simp [hnil] at hcs
      · simp [heq] at hcs
      · simp [heq] at hcs
    rw [hf, List.nil_append]
    split
    · next cs hcs => exact absurd hcs (hpoint cs)
    · rw [hk]
      exact ⟨_, rfl⟩
  · have hend := stopsDigits_exponent stopsNumber_nil h.exponent
    rw [List.append_nil] at hend
    rw [hf, List.cons_append]
    simp only [dropWhile_digits hds.2 hend, hk]
    exact ⟨_, rfl⟩

/-- **Real numbers.**  Every numeral that is written is read as a real number. -/
theorem exists_real (h : n.IsWritten) : ∃ x, Literal.binary64? n.chars = some x := by
  obtain ⟨d, ds, hd, hdigit⟩ := h.exists_digit
  obtain ⟨m, hm⟩ := exists_decimal h
  have hsigned : Literal.signed n.chars = (n.negative, n.whole ++ (n.fraction ++ n.exponent)) := by
    have hplus : d ≠ '+' := ne_of_isAsciiDigit hdigit rfl
    have hminus : d ≠ '-' := ne_of_isAsciiDigit hdigit rfl
    rw [chars_eq]
    cases n.negative with
    | true => rfl
    | false => simp [hd, Literal.signed, hplus, hminus]
  have hname : ∀ {name : List Char}, name.head? = some 'i' ∨ name.head? = some 'n' →
      (n.whole ++ (n.fraction ++ n.exponent)).map Char.toLower ≠ name := by
    rintro name hname rfl
    obtain ⟨k, hk, rfl⟩ := exists_digitChar hdigit
    have all : ∀ k < 10, (digitChar k).toLower ≠ 'i' ∧ (digitChar k).toLower ≠ 'n' := by decide
    rw [hd, List.cons_append, List.map_cons, List.head?_cons, Option.some.injEq, Option.some.injEq] at hname
    exact hname.elim (all k hk).1 (all k hk).2
  unfold Literal.binary64?
  rw [hsigned]
  simp only
  rw [if_neg (not_or.2 ⟨hname (.inl rfl), hname (.inl rfl)⟩), if_neg (hname (.inr rfl)), hm]
  exact ⟨_, rfl⟩

/-! ## Values -/

theorem isEmpty_whole (h : n.IsWritten) : n.whole.isEmpty = false := by
  simpa using h.whole.1

/-- An integer is read unless it is too long. -/
theorem value_int (h : n.IsWritten) (hint : n.IsInteger) : n.value =
    if Literal.isShort n.integer then .ok (.int n.integer) else .error (.tooManyDigits n.whole.length) := by
  have hparts : (n.fraction.isEmpty && n.exponent.isEmpty) = true := by simp [hint.1, hint.2]
  unfold value
  simp only [isEmpty_whole h, hparts, isShort_integer h, leadingDigits_whole h, Bool.false_eq_true, if_false,
    if_true, decide_eq_true_eq]
  split_ifs with hlong hshort hshort
  · omega
  · rfl
  · rfl
  · omega

theorem value_real (h : n.IsWritten) (hreal : ¬n.IsInteger) {x : Binary64}
    (hx : Literal.binary64? n.chars = some x) : n.value = .ok (.real x) := by
  have hparts : (n.fraction.isEmpty && n.exponent.isEmpty) = false := by
    rw [Bool.eq_false_iff]
    simpa [IsInteger] using hreal
  unfold value
  simp only [isEmpty_whole h, hparts, hx, Bool.false_eq_true, if_false]

end Numeral

end PlanarMath.Json
