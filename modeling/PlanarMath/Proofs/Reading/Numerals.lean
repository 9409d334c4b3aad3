import PlanarMath.Proofs.Reading.Runs

/-!
# Numerals of rows

The runs of digits in a row, said of the row alone: from left to right the longest run of digits with at
most one point, where a point alone is none (`Row.numerals`).  Reading a row complains of those that the
reader of numbers rejects, in this order, and of nothing else before the grammar (`Merged.found_eq`).

    2 . 5 . x 7 .      2.5 at 0, 7. at 5
-/

namespace PlanarMath

namespace Layout.Row

/-- The digits in front of a row, with at most one point unless there was one. -/
def digits (pointed : Bool) : List Element → List Char
  | .glyph c :: xs =>
    if Text.isAsciiDigit c then c :: digits pointed xs
    else if c = '.' ∧ !pointed then c :: digits true xs
    else []
  | _ => []

/-- The numerals of a row that starts at an index, each with the index of its first digit. -/
def numerals (i : Nat) (xs : List Element) : List (Nat × List Char) :=
  match xs with
  | [] => []
  | x :: rest =>
    let text := digits false (x :: rest)
    if text = [] ∨ text = ['.'] then numerals (i + x.width) rest
    else (i, text) :: numerals (i + text.length) (rest.drop (text.length - 1))
termination_by xs.length
decreasing_by all_goals simp only [List.length_drop, List.length_cons]; omega

/-- The complaints about the numerals of a row that have no value. -/
def rejected (value : String → Option Number) (i : Nat) (xs : List Element) : List Diagnostic :=
  (numerals i xs).filterMap fun (j, text) =>
    if value (String.ofList text) = none then some ⟨.invalidNumber text.length, .ofWidth j text.length⟩
    else none

variable {i : Nat} {xs : List Element} {text : List Char}

/-- Anything else than a numeral in front of a row. -/
theorem numerals_other {x : Element} (h : digits false (x :: xs) = [] ∨ digits false (x :: xs) = ['.']) :
    numerals i (x :: xs) = numerals (i + x.width) xs := by
  rw [numerals]
  exact if_pos h

/-- A numeral in front of a row. -/
theorem numerals_number (h : digits false (text.map .glyph ++ xs) = text) (hne : text ≠ [])
    (hpoint : text ≠ ['.']) :
    numerals i (text.map .glyph ++ xs) = (i, text) :: numerals (i + text.length) xs := by
  match text with
  | [] => exact absurd rfl hne
  | c :: text =>
    rw [List.map_cons, List.cons_append, numerals, ← List.cons_append, ← List.map_cons, h]
    simp only [if_neg (not_or_intro hne hpoint), List.length_cons, Nat.add_sub_cancel]
    rw [List.drop_left' (List.length_map _)]

/-- Letters in front of a row are no numerals. -/
theorem numerals_letters (h : ∀ c ∈ text, Text.isLetter c) :
    numerals i (text.map .glyph ++ xs) = numerals (i + text.length) xs := by
  induction text generalizing i with
  | nil => rfl
  | cons c text ih =>
    obtain ⟨hc, htext⟩ := List.forall_mem_cons.1 h
    have hdigit : Text.isAsciiDigit c = false := by
      cases hd : Text.isAsciiDigit c with
      | false => rfl
      | true => rw [Text.isLetter_of_isAsciiDigit hd] at hc; cases hc
    have hpoint : c ≠ '.' := by
      rintro rfl
      cases hc
    have hnone : digits false (.glyph c :: (text.map .glyph ++ xs)) = [] := by
      simp [digits, hdigit, hpoint]
    rw [List.map_cons, List.cons_append, numerals_other (.inl hnone), ih htext, List.length_cons,
      Element.width_glyph]
    congr 1
    omega

end Layout.Row

namespace Reading

open Layout Token

/-- Tokens in the places of the elements of a row. -/
def InPlaces (i : Nat) (x : Element) (_ : List Diagnostic) (t : Token) : Prop := t.Of i x

/-- Every element is read as a token in its place. -/
theorem anchored_inPlaces (o : Options) :
    Anchored o InPlaces (fun _ _ _ _ => True) (fun _ _ _ _ => True) where
  glyph _ _ := rfl
  deepFraction _ _ _ _ _ _ h := of_deepToken rfl h
  deepFrame _ _ _ _ _ _ _ h := of_deepToken rfl h
  expression _ _ _ _ _ _ _ _ _ _ _ := trivial
  group _ _ _ _ _ _ _ _ _ _ _ := trivial
  fraction _ _ _ _ _ _ _ _ _ := .operand rfl _ false
  framed i frame body _ inner _ _ _ := of_frameToken i frame body inner
  grouped _ _ _ inner _ := .operand rfl inner false

variable {i : Nat} {xs : Row} {first : List Diagnostic} {ts : List Token}

/-- The digits in front of the tokens of a row are those in front of the row. -/
theorem Aligned.digits (h : Aligned InPlaces i xs first ts) (pointed : Bool) :
    Row.digits pointed xs = (numeralRun pointed ts).map (·.1) := by
  induction h generalizing pointed with
  | nil => rfl
  | @cons i x xs first more t ts ht _ ih =>
    cases x with
    | glyph c =>
      obtain rfl : t = .glyph c (.ofWidth i 1) := ht
      rw [Row.digits, numeralRun, ih, ih]
      split
      · rfl
      · split <;> rfl
    | _ =>
      cases t with
      | glyph c r => exact absurd rfl (ht.1 c r)
      | _ => rfl

/-- A numeral in front of the tokens of a row stands in front of the row. -/
theorem Aligned.numerals (h : Aligned InPlaces i xs first ts) {c : Char} {r : Range}
    {others : List (Char × Range)} (hr : numeralRun false ts = (c, r) :: others) (hn : startsNumeral ts) :
    ∃ text rest more, ((c, r) :: others).map (·.1) = text ∧ spanOf r others = .ofWidth i text.length ∧
      others.length + 1 = text.length ∧
      Row.numerals i xs = (i, text) :: Row.numerals (i + text.length) rest ∧
      Aligned InPlaces (i + text.length) rest more (ts.drop (others.length + 1)) := by
  have hdigits := h.digits false
  rw [eq_glyphs_of_numeralRun hr] at h
  obtain ⟨text, rest, more, htext, hlen, hspan, rfl, hrest⟩ := h.run fun _ _ _ _ hof => hof
  rw [hr, htext] at hdigits
  refine ⟨text, rest, more, htext, hspan, hlen, Row.numerals_number hdigits ?_ ?_, hrest⟩
  · rintro rfl
    cases hlen
  · rintro rfl
    -- a point alone starts no numeral
    obtain ⟨rfl, hothers⟩ : c = '.' ∧ others.map (·.1) = [] := List.cons.inj htext
    rw [startsNumeral, hr, List.map_eq_nil_iff.1 hothers] at hn
    cases hn

end Reading

namespace Token

open Layout Reading

/-- **Rejected numerals.**  Merging the tokens of a row gives a complaint for each numeral of the row that
has no value, from left to right, and no other. -/
theorem Merged.found_eq {table : FunctionTable} {value : String → Option Number} {ts us : List Token}
    {found : List Diagnostic} (h : Merged table value ts found us) {i : Nat} {xs : Row}
    {first : List Diagnostic} (hts : Aligned InPlaces i xs first ts) : found = Row.rejected value i xs := by
  induction h generalizing i xs first with
  | nil =>
    cases hts
    rw [Row.rejected, Row.numerals]
    rfl
  | @other t ts found us _ hn _ ih =>
    have hdigits := hts.digits false
    cases hts with
    | @cons _ x xs _ _ _ _ ht hts =>
      have hnone : Row.digits false (x :: xs) = [] ∨ Row.digits false (x :: xs) = ['.'] := by
        rw [hdigits]
        exact startsNumeral_eq_false_iff.1 hn
      rw [ih hts, Row.rejected, Row.rejected, Row.numerals_other hnone]
  | @name ts found us c r others n s function hr hw _ _ ih =>
    obtain ⟨hn, -, hglyphs⟩ := first_of_letterRun hr hw
    rw [hglyphs] at hts
    obtain ⟨text, rest, more, htext, -, -, rfl, hrest⟩ := hts.run fun _ _ _ _ hof => hof
    have hletters : ∀ d ∈ text, Text.isLetter d := by
      rw [← htext]
      exact List.forall_mem_map.2 (isLetter_of_letterRun hr n)
    rw [ih hrest, Row.rejected, Row.rejected, Row.numerals_letters hletters]
  | number hr hn hv _ ih =>
    obtain ⟨text, rest, more, htext, -, -, hnumerals, hrest⟩ := hts.numerals hr hn
    rw [textOf, htext] at hv
    rw [ih hrest, Row.rejected, Row.rejected, hnumerals, List.filterMap_cons_none]
    simp [hv]
  | @rejected ts found us c r others hr hn hv _ ih =>
    obtain ⟨text, rest, more, htext, hspan, hlen, hnumerals, hrest⟩ := hts.numerals hr hn
    rw [textOf, htext] at hv
    have hcount : (others.length : Int) + 1 = text.length := by omega
    rw [ih hrest, Row.rejected, Row.rejected, hnumerals, hspan, hcount]
    simp [hv]

end Token

end PlanarMath
