import PlanarMath.Expr.Display
import PlanarMath.Expr.Sexpr
import PlanarMath.Proofs.Grammar.Completeness
import PlanarMath.Proofs.Number.Decimal
import PlanarMath.Proofs.Number.Magnitude
import PlanarMath.Proofs.Token.GreedyNumerals
import PlanarMath.Session

/-!
# Integers of a layout

A row of digits is one number, whose value the digits have in base ten, as long as they are no more than
`digitLimit`; zeros in front count among them.  A minus sign before the digits is folded into the number.  So
the row that an integer is written as is read as that integer, in the place of the whole row, and the integer
is written as the row again.

    - 0 0 4 2     number -42 in 0-5
    1 1 1 .. 1    an error with one complaint, if there are more than 4300 ones
-/

namespace PlanarMath

open Text

namespace Literal

/-! ## Digits as a literal -/

theorem trim_of_forall {blank : Char → Bool} {cs : List Char} (h : ∀ c ∈ cs, blank c = false) :
    trim blank cs = cs := by
  have keep : ∀ {cs : List Char}, (∀ c ∈ cs, blank c = false) → cs.dropWhile blank = cs := by
    intro cs h
    cases cs with
    | nil => rfl
    | cons c cs => rw [List.dropWhile_cons_of_neg (by rw [h c List.mem_cons_self]; exact Bool.false_ne_true)]
  rw [trim, keep h, keep fun c hc => h c (List.mem_reverse.1 hc), List.reverse_reverse]

theorem isAsciiBlank_of_isAsciiDigit {c : Char} (h : isAsciiDigit c) : isAsciiBlank c = false := by
  obtain ⟨hlow, -⟩ := isVisible_of_isAsciiDigit h
  simp only [isAsciiBlank, Bool.or_eq_false_iff, Bool.and_eq_false_iff, decide_eq_false_iff_not, beq_eq_false_iff_ne]
  omega

theorem ungrouped?_digits {cs : List Char} (h : ∀ c ∈ cs, isAsciiDigit c) (afterDigit : Bool) :
    ungrouped? afterDigit cs = some cs := by
  induction cs generalizing afterDigit with
  | nil => rfl
  | cons c cs ih =>
    obtain ⟨hc, hcs⟩ := List.forall_mem_cons.1 h
    rw [ungrouped?, ih hcs, Option.map_some]
    rintro rfl
    cases hc

/-- Digits alone are an integer, unless they are too many. -/
theorem integer?_digits {ds : List Nat} (hne : ds ≠ []) (hlt : ∀ d ∈ ds, d < 10) :
    integer? (String.ofList (digitChars ds)) =
      if ds.length ≤ digitLimit then some (ofDigits ds : Int) else none := by
  have hdigits := isAsciiDigit_digitChars hlt
  have hplain : plain (String.ofList (digitChars ds)) = digitChars ds := by
    have hchars : (digitChars ds).map plainChar = digitChars ds := by
      conv_rhs => rw [← List.map_id (digitChars ds)]
      exact List.map_congr_left fun c hc => plainChar_of_digits (.inl (hdigits c hc))
    rw [plain, String.toList_ofList, hchars, trim_of_forall fun c hc => isAsciiBlank_of_isAsciiDigit (hdigits c hc)]
  rw [integer?, hplain, signed_of_digits fun c hc => .inl (hdigits c hc)]
  simp only [ungrouped?_digits hdigits, digits?_digitChars hne hlt, Option.bind_eq_bind, Option.bind_some, ofSign]
  rfl

end Literal

/-- Digits alone are an integer also for the reader of all literals. -/
theorem Number.ofText?_digits {ds : List Nat} (hne : ds ≠ []) (hlt : ∀ d ∈ ds, d < 10) :
    Number.ofText? (String.ofList (digitChars ds)) =
      if ds.length ≤ Literal.digitLimit then some (.int (ofDigits ds)) else none := by
  have hpoint : (String.ofList (digitChars ds)).toList.contains '.' = false := by
    rw [String.toList_ofList, List.contains_eq_mem, decide_eq_false_iff_not]
    intro hmem
    cases isAsciiDigit_digitChars hlt '.' hmem
  rw [ofText?, hpoint, if_neg Bool.false_ne_true, Literal.integer?_digits hne hlt]
  split <;> rfl

namespace Reading

open Layout Literal Token

variable {o : Options} {ds : List Nat} (hne : ds ≠ []) (hlt : ∀ d ∈ ds, d < 10)

/-! ## Tokens -/

/-- A sign in front of a row stands before the tokens of the row. -/
theorem tokens_minus (o : Options) (i : Nat) (xs : Row) :
    tokens o i (.glyph '-' :: xs) = (tokens o (i + 1) xs).map (.glyph '-' (.ofWidth i 1) :: ·) := by
  have hmerge : ∀ r ts, merge o (.glyph '-' r :: ts) = (merge o ts).map (.glyph '-' r :: ·) := by
    intro r ts
    unfold merge
    rw [mergeWords_other rfl]
    cases hw : mergeWords o.functions ts with
    | error f => rfl
    | ok us =>
      simp only [Except.map]
      rw [mergeNumerals_other rfl]
      rfl
  rw [tokens, rowTokens, elementToken, Report.ok_andThen, tokens, Element.width_glyph]
  cases rowTokens o 0 (i + 1) xs with
  | mk found result =>
    cases result with
    | error f => rfl
    | ok ts =>
      simp only [Report.map, Report.andThen, Except.map, hmerge]

include hne hlt in
/-- A row of digits is one operand, a number if the digits are not too many. -/
theorem tokens_digitChars (ho : o.number = Number.ofText?) (i : Nat) :
    tokens o i ((digitChars ds).map .glyph) =
      if ds.length ≤ digitLimit then .ok [.ofNode (numberIn (.int (ofDigits ds)) (.ofWidth i ds.length))]
      else ⟨[⟨.invalidNumber ds.length, .ofWidth i ds.length⟩], .ok [.ofNode (.error (.ofWidth i ds.length))]⟩ := by
  have hdigits := isAsciiDigit_digitChars hlt
  have hpoint : (digitChars ds).count '.' ≤ 1 := by
    rw [List.count_eq_zero_of_not_mem fun h => by cases hdigits '.' h]
    exact Nat.zero_le 1
  obtain ⟨d, hd⟩ := List.exists_mem_of_ne_nil _ hne
  obtain ⟨found, node, htokens, hfirst⟩ := tokens_digits o i (fun c hc => by simp [isNumeric, hdigits c hc])
    hpoint ⟨_, List.mem_map_of_mem hd, isAsciiDigit_digitChar (hlt d hd)⟩
  rw [htokens]
  rw [length_digitChars] at hfirst ⊢
  have hvalue : o.number (textOf (placed i (digitChars ds))) =
      if ds.length ≤ digitLimit then some (.int (ofDigits ds)) else none := by
    rw [ho, textOf, placed_text, Number.ofText?_digits hne hlt]
  have hword := length_placed i (digitChars ds)
  -- The word is a variable from here on, as the cases of a first numeral are about words of any digits.
  generalize placed i (digitChars ds) = word at hfirst hvalue hword
  cases hfirst with
  | number _ _ _ hv =>
    rw [hvalue] at hv
    split at hv
    · next hle =>
      cases hv
      rw [if_pos hle]
      rfl
    · cases hv
  | rejected _ _ _ hv =>
    rw [hvalue] at hv
    split at hv
    · cases hv
    · next hgt =>
      rw [if_neg hgt, hword, length_digitChars]
      rfl

/-! ## Rows -/

/-- An operand alone is what it is. -/
theorem asExpression_ofNode (region : Range) (node : Placed) :
    asExpression region [.ofNode node] = .ok node := by
  have hwhole : Grammar.whole (endOf region) [.ofNode node] = .ok node :=
    Grammar.whole_eq_ok_iff.2 (.ofSum (.ofProduct (.ofFactor (.ofAtom .operand))))
  rw [asExpression, hwhole]
  rfl

theorem asExpression_minus (region sign : Range) (node : Placed) :
    asExpression region [.glyph '-' sign, .ofNode node] = .ok (node.negate sign) := by
  have hwhole : Grammar.whole (endOf region) [.glyph '-' sign, .ofNode node] = .ok (node.negate sign) :=
    Grammar.whole_eq_ok_iff.2 (.ofSum (.ofProduct (.ofFactor (.negative rfl (.ofAtom .operand)))))
  rw [asExpression, hwhole]
  rfl

/-- The digits of an integer with its sign and with zeros in front. -/
def padded (k : Nat) (n : Int) : List Char :=
  (if n < 0 then ['-'] else []) ++ List.replicate k '0' ++ decimal n.natAbs

theorem padded_zero (n : Int) : padded 0 n = signedDecimal n := by
  cases n with
  | ofNat n => rfl
  | negSucc n =>
    rw [padded, if_pos (Int.negSucc_lt_zero n)]
    rfl

/-- **Integers.**  An integer that is written in digits, with any zeros in front, is read as that integer. -/
theorem readLayout_padded (ho : o.number = Number.ofText?) (k : Nat) (n : Int)
    (hle : k + (decimal n.natAbs).length ≤ digitLimit) :
    readLayout o ((padded k n).map .glyph) = .ok (numberIn (.int n) (.ofWidth 0 (padded k n).length)) := by
  obtain ⟨ds, hds⟩ : ∃ ds, List.replicate k 0 ++ toDigits n.natAbs = ds := ⟨_, rfl⟩
  have hchars : List.replicate k '0' ++ decimal n.natAbs = digitChars ds := by
    rw [← hds, digitChars, List.map_append, List.map_replicate]
    rfl
  have hne : ds ≠ [] := by
    rw [← hds]
    exact List.append_ne_nil_of_right_ne_nil _ (toDigits_ne_nil _)
  have hlt : ∀ d ∈ ds, d < 10 := by
    rw [← hds]
    refine List.forall_mem_append.2 ⟨fun d hd => ?_, toDigits_lt _⟩
    rw [List.eq_of_mem_replicate hd]
    decide
  have hvalue : ofDigits ds = n.natAbs := by
    rw [← hds, ofDigits_append, ofDigits_replicate_zero, ofDigits_toDigits, Nat.zero_mul, Nat.zero_add]
  have hlen : ds.length ≤ digitLimit := by
    rwa [← hds, List.length_append, List.length_replicate, ← length_digitChars (toDigits n.natAbs)]
  have htokens := fun i => tokens_digitChars hne hlt ho i
  simp only [if_pos hlen, hvalue] at htokens
  rw [padded, List.append_assoc, hchars]
  by_cases hn : n < 0
  · have hneg : Number.neg (.int n.natAbs) = .int n := by
      rw [Number.neg]
      congr 1
      omega
    rw [if_pos hn, List.cons_append, List.nil_append, List.map_cons, readLayout, expression, tokens_minus, htokens]
    refine (Report.ok_andThen _ _).trans ((asExpression_minus _ _ _).trans (congrArg Report.ok ?_))
    have hspan : (Range.ofWidth 0 1).span (.ofWidth (0 + 1) ds.length) = .ofWidth 0 ('-' :: digitChars ds).length := by
      rw [List.length_cons, length_digitChars]
      simp only [Range.span, Range.ofWidth, Range.mk.injEq]
      omega
    rw [← hneg, ← hspan]
    rfl
  · have hnat : (n.natAbs : Int) = n := by omega
    rw [if_neg hn, List.nil_append, readLayout, expression, htokens, Report.ok_andThen, asExpression_ofNode, hnat,
      length_digitChars]

/-- Too many digits. -/
theorem readLayout_tooLong (ho : o.number = Number.ofText?) {text : List Char} (hlen : digitLimit < text.length)
    (htext : ∀ c ∈ text, isAsciiDigit c) :
    readLayout o (text.map .glyph) =
      ⟨[⟨.invalidNumber text.length, .ofWidth 0 text.length⟩], .ok (.error (.ofWidth 0 text.length))⟩ := by
  obtain ⟨ds, rfl, hlt⟩ := exists_digitChars htext
  rw [length_digitChars] at hlen ⊢
  have hne : ds ≠ [] := List.ne_nil_of_length_pos (Nat.zero_lt_of_lt hlen)
  have htokens := tokens_digitChars hne hlt ho 0
  rw [if_neg (Nat.not_le.2 hlen)] at htokens
  rw [readLayout, expression, htokens, Report.andThen]
  simp only [asExpression_ofNode, Report.ok, List.append_nil]

/-- **Integers read back.**  Under any function table and any limit of nesting, an integer of at most `digitLimit`
digits that is written as a row is read from the whole row with nothing to complain of, and its texts are the
row again.  Zeros in front change nothing but the range, as long as the digits are not too many with them.  A row
of too many digits is an error, with one complaint that counts them. -/
theorem integer_roundTrip (functions : FunctionTable) (limit? : Option Int) :
    let o : Options := { functions := functions, limit? := limit? }
    (∀ n : Int, (decimal n.natAbs).length ≤ digitLimit →
      ∃ r, Result.ofReport (readLayout o ((signedDecimal n).map .glyph)) = .ok r ∧ r.status = "ok" ∧
        r.expr = .number (.int n) (some (.ofWidth 0 (signedDecimal n).length)) ∧
        r.expr.sexpr = String.ofList (signedDecimal n) ∧ r.expr.display = String.ofList (signedDecimal n)) ∧
    (∀ (n : Int) (k : Nat), k + (decimal n.natAbs).length ≤ digitLimit →
      Result.ofReport (readLayout o ((padded k n).map .glyph)) =
        .ok ⟨.number (.int n) (some (.ofWidth 0 (padded k n).length)), []⟩) ∧
    ∀ text : List Char, digitLimit < text.length → (∀ c ∈ text, isAsciiDigit c) →
      let whole : Range := .ofWidth 0 text.length
      let tooLong : Diagnostic := ⟨.invalidNumber text.length, whole⟩
      Result.ofReport (readLayout o (text.map .glyph)) = ⟨[tooLong], .ok ⟨.error (some whole), [tooLong]⟩⟩ := by
  intro o
  have read : ∀ (n : Int) (k : Nat), k + (decimal n.natAbs).length ≤ digitLimit →
      Result.ofReport (readLayout o ((padded k n).map .glyph)) =
        .ok ⟨.number (.int n) (some (.ofWidth 0 (padded k n).length)), []⟩ := by
    intro n k hle
    rw [readLayout_padded rfl k n hle]
    rfl
  refine ⟨fun n hle => ?_, read, fun text hlen htext => ?_⟩
  · have hread := read n 0 (by rwa [Nat.zero_add])
    rw [padded_zero] at hread
    exact ⟨_, hread, rfl, rfl, rfl, rfl⟩
  · rw [readLayout_tooLong rfl hlen htext]
    rfl

/-- A negative integer behind two zeros, and a row of five thousand ones. -/
theorem integer_roundTrip_of_ones :
    let ones := List.replicate 5000 '1'
    let tooLong : Diagnostic := ⟨.invalidNumber 5000, .ofWidth 0 5000⟩
    2 + (decimal (-42 : Int).natAbs).length ≤ digitLimit ∧
      Result.ofReport (readLayout {} [.glyph '-', .glyph '0', .glyph '0', .glyph '4', .glyph '2']) =
        .ok ⟨.number (.int (-42)) (some (.ofWidth 0 5)), []⟩ ∧
      digitLimit < ones.length ∧ (∀ c ∈ ones, isAsciiDigit c) ∧
      Result.ofReport (readLayout {} (ones.map .glyph)) =
        ⟨[tooLong], .ok ⟨.error (some (.ofWidth 0 5000)), [tooLong]⟩⟩ := by
  intro ones tooLong
  have hshort : 2 + (decimal (-42 : Int).natAbs).length ≤ digitLimit := by cbv
  have hlength : ones.length = 5000 := List.length_replicate
  have hlong : digitLimit < ones.length := by
    rw [hlength]
    decide
  have hones : ∀ c ∈ ones, isAsciiDigit c := fun c hc => by rw [List.eq_of_mem_replicate hc]; rfl
  obtain ⟨-, hpadded, herror⟩ := integer_roundTrip .standard none
  have hread := hpadded (-42) 2 hshort
  have hrow : padded 2 (-42) = ['-', '0', '0', '4', '2'] := by cbv
  rw [hrow] at hread
  have hones' := herror ones hlong hones
  rw [hlength] at hones'
  exact ⟨hshort, hread, hlong, hones, hones'⟩

end Reading

end PlanarMath
