import PlanarMath.Proofs.Number.Text
import PlanarMath.Proofs.Token.Segments

/-!
# Names and numerals in one pass

Names are read first and numerals after them, but no token belongs to both: a letter is no digit and no
point, so a run of digits is the same before and after the letters around it became names.  Hence the
tokens of a row can be read from left to right in one pass (`Merged`), which at each place takes the first
name of a run of letters, a whole run of digits, or a single token.

    s i n 2 . 5 + x   →   sin   2.5   +   x
-/

namespace PlanarMath.Token

/-- A run of digits stands in front, with a point at most among them; a point alone does not count. -/
def startsNumeral (ts : List Token) : Bool :=
  match numeralRun false ts with
  | [] => false
  | (c, _) :: others => !(c == '.' && others.isEmpty)

/-- Tokens with names and numerals merged, read from left to right, and the complaints about numerals
without a value. -/
inductive Merged (table : FunctionTable) (value : String → Option Number) :
    List Token → List Diagnostic → List Token → Prop
  | nil : Merged table value [] [] []
  | other {t ts found us} : letterRun (t :: ts) = [] → startsNumeral (t :: ts) = false →
      Merged table value ts found us → Merged table value (t :: ts) found (t :: us)
  | name {ts found us c r others n name function} :
      letterRun ts = (c, r) :: others → Word.first table c (others.map (·.1)) = ⟨n + 1, name, function⟩ →
      name ≠ "" → Merged table value (ts.drop (n + 1)) found us →
      Merged table value ts found
        (.operand (symbolIn name (spanOf r (others.take n))) function (spanOf r (others.take n)) :: us)
  | number {ts found us c r others v} :
      numeralRun false ts = (c, r) :: others → startsNumeral ts →
      value (textOf ((c, r) :: others)) = some v → Merged table value (ts.drop (others.length + 1)) found us →
      Merged table value ts found (.ofNode (numberIn v (spanOf r others)) :: us)
  | rejected {ts found us c r others} :
      numeralRun false ts = (c, r) :: others → startsNumeral ts →
      value (textOf ((c, r) :: others)) = none → Merged table value (ts.drop (others.length + 1)) found us →
      Merged table value ts (⟨.invalidNumber (others.length + 1), spanOf r others⟩ :: found)
        (.ofNode (.error (spanOf r others)) :: us)

/-! ## Runs in front -/

/-- A numeral is more than a point. -/
theorem startsNumeral_eq_false_iff {ts : List Token} :
    startsNumeral ts = false ↔
      (numeralRun false ts).map (·.1) = [] ∨ (numeralRun false ts).map (·.1) = ['.'] := by
  unfold startsNumeral
  cases numeralRun false ts with
  | nil => simp
  | cons p others => simp

/-- The digits in front of some tokens, and the tokens behind them. -/
theorem eq_glyphs_of_numeralRun {ts : List Token} {p : Char × Range} {others : List (Char × Range)}
    (h : numeralRun false ts = p :: others) : ts = glyphs (p :: others) ++ ts.drop (others.length + 1) := by
  have hts := numeralRun_eq ts false
  rwa [h, List.length_cons] at hts

/-- The first name of a run of letters is what as many of the letters may be read as. -/
theorem first_of_letterRun {table : FunctionTable} {ts : List Token} {c : Char} {r : Range}
    {others : List (Char × Range)} {n : Nat} {name : String} {function : Bool}
    (hr : letterRun ts = (c, r) :: others)
    (hw : Word.first table c (others.map (·.1)) = ⟨n + 1, name, function⟩) :
    n ≤ others.length ∧ Names table ((c, r) :: others.take n) name function ∧
      ts = glyphs ((c, r) :: others.take n) ++ ts.drop (n + 1) := by
  match ts with
  | [] => cases hr
  | t :: ts =>
    obtain ⟨rfl, hc, rfl⟩ := letterRun_cons hr
    have hfirst := names_first table hc r (letterRun ts)
    rw [hw] at hfirst
    have htake := take_letterRun ts n hfirst.1
    exact ⟨hfirst.1, hfirst.2, congrArg (.glyph c r :: ·) htake⟩

/-- A name is made of letters. -/
theorem isLetter_of_letterRun {ts : List Token} {c : Char} {r : Range} {others : List (Char × Range)}
    (hr : letterRun ts = (c, r) :: others) (n : Nat) : ∀ p ∈ (c, r) :: others.take n, Text.isLetter p.1 := by
  intro p hp
  have hmem : p ∈ letterRun ts := by
    rw [hr]
    exact List.mem_of_mem_take (i := n + 1) hp
  exact isLetter_letterRun ts p hmem

/-! ## The two passes, step by step -/

variable {table : FunctionTable} {value : String → Option Number}

theorem mergeWords_other {t : Token} {ts : List Token} (h : letterRun (t :: ts) = []) :
    mergeWords table (t :: ts) = (mergeWords table ts).map (t :: ·) := by
  rw [mergeWords, h]

theorem ofName_eq_ok {w : Word} {range : Range} {t : Token} :
    ofName w range = .ok t ↔ w.name ≠ "" ∧ .operand (symbolIn w.name range) w.function range = t := by
  unfold ofName
  split
  · next h => simp [h]
  · next h => simp [h, symbolIn]

/-- A name stands for as many tokens as it has letters. -/
theorem mergeWords_name {ts us : List Token} {c : Char} {r : Range} {others : List (Char × Range)}
    (hr : letterRun ts = (c, r) :: others) (h : mergeWords table ts = .ok us) :
    ∃ n name function vs, Word.first table c (others.map (·.1)) = ⟨n + 1, name, function⟩ ∧ name ≠ "" ∧
      mergeWords table (ts.drop (n + 1)) = .ok vs ∧
      us = .operand (symbolIn name (spanOf r (others.take n))) function (spanOf r (others.take n)) :: vs := by
  match ts with
  | [] => cases hr
  | t :: ts =>
    obtain ⟨rfl, hc, rfl⟩ := letterRun_cons hr
    obtain ⟨n, hn⟩ : ∃ n, (Word.first table c ((letterRun ts).map (·.1))).length = n + 1 := by
      unfold Word.first
      split
      · next hw => exact ⟨_, (Nat.sub_add_cancel (FunctionTable.longestWord?_eq_some hw).1).symm⟩
      · exact ⟨0, rfl⟩
    rw [mergeWords, hr] at h
    simp only at h
    generalize Word.first table c ((letterRun ts).map (·.1)) = w at h hn
    obtain ⟨length, name, function⟩ := w
    obtain rfl : length = n + 1 := hn
    rw [Nat.add_sub_cancel] at h
    cases ho : ofName ⟨n + 1, name, function⟩ (spanOf r ((letterRun ts).take n)) with
    | error f => rw [ho] at h; cases h
    | ok t =>
      rw [ho] at h
      obtain ⟨hname, rfl⟩ := ofName_eq_ok.1 ho
      cases hm : mergeWords table (ts.drop n) with
      | error f => rw [hm] at h; cases h
      | ok vs =>
        rw [hm] at h
        cases h
        exact ⟨n, name, function, vs, rfl, hname, hm, rfl⟩

theorem mergeNumerals_other {t : Token} {ts : List Token} (h : startsNumeral (t :: ts) = false) :
    mergeNumerals value (t :: ts) =
      ((mergeNumerals value ts).1, t :: (mergeNumerals value ts).2) := by
  rw [mergeNumerals]
  unfold startsNumeral at h
  split
  · rfl
  · next c r others hr =>
    rw [hr] at h
    have hpoint : c = '.' ∧ others = [] := by simpa using h
    rw [if_pos hpoint]

theorem mergeNumerals_numeral {ts : List Token} {c : Char} {r : Range} {others : List (Char × Range)}
    (hr : numeralRun false ts = (c, r) :: others) (h : startsNumeral ts) :
    mergeNumerals value ts =
      ((ofNumeral value (c :: others.map (·.1)) (spanOf r others)).1 ++
          (mergeNumerals value (ts.drop (others.length + 1))).1,
        (ofNumeral value (c :: others.map (·.1)) (spanOf r others)).2 ::
          (mergeNumerals value (ts.drop (others.length + 1))).2) := by
  match ts with
  | [] => cases hr
  | t :: ts =>
    unfold startsNumeral at h
    rw [hr] at h
    have hpoint : ¬(c = '.' ∧ others = []) := by
      rintro ⟨rfl, rfl⟩
      cases h
    rw [mergeNumerals, hr]
    simp only [if_neg hpoint, List.drop_succ_cons]

/-! ## Letters are no digits -/

/-- The first character of a numeral is no letter. -/
theorem letterRun_of_numeralRun {pointed : Bool} {ts : List Token} {p : Char × Range}
    {others : List (Char × Range)} (h : numeralRun pointed ts = p :: others) : letterRun ts = [] := by
  match ts with
  | [] => rfl
  | t :: ts =>
    have hdigit := isNumeral_numeralRun (t :: ts) pointed
    rw [h] at hdigit
    obtain ⟨rfl, -⟩ := numeralRun_cons h
    have hc : Text.isLetter p.1 = false := by
      rcases hdigit p List.mem_cons_self with hd | hd
      · exact Text.isLetter_of_isAsciiDigit hd
      · rw [hd]
        rfl
    rw [letterRun, if_neg (by rw [hc]; exact Bool.false_ne_true)]

/-- The digits in front are the same before and after names are read, and so is what is behind each. -/
theorem numeralRun_mergeWords {ts us : List Token} (h : mergeWords table ts = .ok us) (pointed : Bool) :
    numeralRun pointed us = numeralRun pointed ts ∧
      ∀ n ≤ (numeralRun pointed ts).length, mergeWords table (ts.drop n) = .ok (us.drop n) := by
  induction ts generalizing pointed us with
  | nil =>
    rw [mergeWords] at h
    cases h
    exact ⟨rfl, fun n _ => by rw [List.drop_nil, mergeWords]⟩
  | cons t ts ih =>
    cases hr : letterRun (t :: ts) with
    | cons p run =>
      -- a name is no digit, nor is its first letter
      have hnone : numeralRun pointed (t :: ts) = [] := by
        cases hn : numeralRun pointed (t :: ts) with
        | nil => rfl
        | cons q digits => rw [letterRun_of_numeralRun hn] at hr; cases hr
      obtain ⟨n, name, function, vs, -, -, -, rfl⟩ := mergeWords_name hr h
      rw [hnone]
      refine ⟨rfl, fun n hn => ?_⟩
      rw [Nat.le_zero.1 hn]
      exact h
    | nil =>
      have hcons := h
      rw [mergeWords_other hr] at hcons
      cases hm : mergeWords table ts with
      | error f => rw [hm] at hcons; cases hcons
      | ok vs =>
        rw [hm] at hcons
        cases hcons
        have step : ∀ pointed, (∀ n ≤ (numeralRun pointed ts).length + 1,
            mergeWords table ((t :: ts).drop n) = .ok ((t :: vs).drop n)) := by
          intro pointed n hn
          cases n with
          | zero => exact h
          | succ n => exact (ih hm pointed).2 n (Nat.le_of_succ_le_succ hn)
        cases t with
        | glyph c r =>
          rw [numeralRun, numeralRun]
          split
          · rw [(ih hm pointed).1]
            exact ⟨rfl, step pointed⟩
          · split
            · rw [(ih hm true).1]
              exact ⟨rfl, step true⟩
            · exact ⟨rfl, fun n hn => by rw [Nat.le_zero.1 hn]; exact h⟩
        | operand => exact ⟨rfl, fun n hn => by rw [Nat.le_zero.1 hn]; exact h⟩
        | superscript => exact ⟨rfl, fun n hn => by rw [Nat.le_zero.1 hn]; exact h⟩
        | subscript => exact ⟨rfl, fun n hn => by rw [Nat.le_zero.1 hn]; exact h⟩

/-- **One pass** over the tokens gives what the two passes give. -/
theorem merged_of_mergeWords {ts us : List Token} (h : mergeWords table ts = .ok us) :
    Merged table value ts (mergeNumerals value us).1 (mergeNumerals value us).2 := by
  induction hlen : ts.length using Nat.strongRecOn generalizing ts us with
  | ind length ih =>
    subst hlen
    match ts with
    | [] =>
      rw [mergeWords] at h
      cases h
      rw [mergeNumerals]
      exact .nil
    | t :: ts =>
      have shorter : ∀ n, ((t :: ts).drop (n + 1)).length < (t :: ts).length := by
        intro n
        rw [List.length_drop, List.length_cons]
        omega
      obtain ⟨hrun, hrest⟩ := numeralRun_mergeWords h false
      have hstart : startsNumeral us = startsNumeral (t :: ts) := by
        unfold startsNumeral
        rw [hrun]
      cases hr : letterRun (t :: ts) with
      | cons p others =>
        obtain ⟨n, name, function, vs, hw, hname, hm, rfl⟩ := mergeWords_name hr h
        rw [mergeNumerals_other rfl]
        exact .name hr hw hname (ih _ (shorter n) hm rfl)
      | nil =>
        cases hn : startsNumeral (t :: ts) with
        | false =>
          rw [mergeWords_other hr] at h
          cases hm : mergeWords table ts with
          | error f => rw [hm] at h; cases h
          | ok vs =>
            rw [hm] at h
            cases h
            rw [mergeNumerals_other (hstart.trans hn)]
            exact .other hr hn (ih _ (shorter 0) hm rfl)
        | true =>
          cases hd : numeralRun false (t :: ts) with
          | nil => simp [startsNumeral, hd] at hn
          | cons p others =>
            obtain ⟨c, r⟩ := p
            rw [hd, List.length_cons] at hrest
            have hmore := ih _ (shorter others.length) (hrest _ (Nat.le_refl _)) rfl
            rw [mergeNumerals_numeral (hrun.trans hd) (hstart.trans hn)]
            unfold ofNumeral
            split
            · next v hv => exact .number hd hn hv hmore
            · next hv =>
              simp only [List.length_cons, List.length_map]
              exact .rejected hd hn hv hmore

end PlanarMath.Token
