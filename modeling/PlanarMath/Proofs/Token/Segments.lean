import PlanarMath.Proofs.Token.Longest
import PlanarMath.Token.Numerals

/-!
# Segments of tokens

What reading names and numbers makes of a list of tokens, segment by segment: a run of glyphs becomes one
operand in the span of the run, every other token stays.

    Named table ts us            `us` is `ts` with runs of letters read as names
    Numbered value ts found us   `us` is `ts` with runs of digits read as numbers, `found` those without
-/

namespace PlanarMath

/-- No function of a table has an empty name. -/
def FunctionTable.HasNames (table : FunctionTable) : Prop := ∀ e ∈ table.entries, e.name ≠ ""

instance (table : FunctionTable) : Decidable table.HasNames :=
  inferInstanceAs (Decidable (∀ e ∈ table.entries, e.name ≠ ""))

theorem FunctionTable.hasNames_standard : standard.HasNames := by decide

namespace Token

/-- The glyphs of a run. -/
def glyphs (run : List (Char × Range)) : List Token := run.map fun p => .glyph p.1 p.2

/-- The text of a run. -/
def textOf (run : List (Char × Range)) : String := String.ofList (run.map (·.1))

/-- A symbol in the range of its name. -/
def symbolIn (name : String) (range : Range) : Placed := ⟨.symbol name (some range), range, rfl⟩

/-- A number in the range of its digits. -/
def numberIn (v : Number) (range : Range) : Placed := ⟨.number v (some range), range, rfl⟩

/-- What a run of letters may be read as: a function, when the table has the word, or a symbol, when the
run is a single letter. -/
inductive Names (table : FunctionTable) : List (Char × Range) → String → Bool → Prop
  | function {run name} : table.lookup (textOf run) = some name → Names table run name true
  | letter {c r} : Text.isLetter c → Names table [(c, r)] c.toString false

/-- Tokens with runs of letters read as names. -/
inductive Named (table : FunctionTable) : List Token → List Token → Prop
  | nil : Named table [] []
  | other {t ts us} : Named table ts us → Named table (t :: ts) (t :: us)
  | name {c r others ts us name function} :
      Names table ((c, r) :: others) name function → name ≠ "" → Named table ts us →
      Named table (glyphs ((c, r) :: others) ++ ts)
        (.operand (symbolIn name (spanOf r others)) function (spanOf r others) :: us)

/-- A run of digits and points. -/
def IsNumeral (run : List (Char × Range)) : Prop := ∀ p ∈ run, Text.isAsciiDigit p.1 ∨ p.1 = '.'

/-- Tokens with runs of digits read as numbers, and the complaints about those without a value. -/
inductive Numbered (value : String → Option Number) :
    List Token → List Diagnostic → List Token → Prop
  | nil : Numbered value [] [] []
  | other {t ts found us} : Numbered value ts found us → Numbered value (t :: ts) found (t :: us)
  | number {c r others ts found us v} : IsNumeral ((c, r) :: others) →
      value (textOf ((c, r) :: others)) = some v → Numbered value ts found us →
      Numbered value (glyphs ((c, r) :: others) ++ ts) found
        (.ofNode (numberIn v (spanOf r others)) :: us)
  | rejected {c r others ts found us} : IsNumeral ((c, r) :: others) →
      value (textOf ((c, r) :: others)) = none → Numbered value ts found us →
      Numbered value (glyphs ((c, r) :: others) ++ ts)
        (⟨.invalidNumber (others.length + 1), spanOf r others⟩ :: found)
        (.ofNode (.error (spanOf r others)) :: us)

/-! ## Runs are the tokens in front -/

theorem letterRun_cons {t : Token} {ts : List Token} {c : Char} {r : Range} {others : List (Char × Range)}
    (h : letterRun (t :: ts) = (c, r) :: others) :
    t = .glyph c r ∧ Text.isLetter c ∧ others = letterRun ts := by
  match t with
  | .glyph c' r' =>
    rw [letterRun] at h
    split at h
    · next hc =>
      simp only [List.cons.injEq, Prod.mk.injEq] at h
      obtain ⟨⟨rfl, rfl⟩, rfl⟩ := h
      exact ⟨rfl, hc, rfl⟩
    · cases h
  | .operand .. => cases h
  | .superscript .. => cases h
  | .subscript .. => cases h

theorem isLetter_letterRun (ts : List Token) : ∀ p ∈ letterRun ts, Text.isLetter p.1 := by
  fun_induction letterRun ts with
  | case1 c r ts hc ih => exact List.forall_mem_cons.2 ⟨hc, ih⟩
  | case2 => exact List.forall_mem_nil _
  | case3 => exact List.forall_mem_nil _

/-- A part of a run is as many tokens. -/
theorem take_letterRun (ts : List Token) (n : Nat) (h : n ≤ (letterRun ts).length) :
    ts = glyphs ((letterRun ts).take n) ++ ts.drop n := by
  induction n generalizing ts with
  | zero => rfl
  | succ n ih =>
    match ts with
    | [] => simp [letterRun] at h
    | t :: ts =>
      cases hr : letterRun (t :: ts) with
      | nil => rw [hr] at h; simp at h
      | cons p others =>
        obtain ⟨rfl, -, rfl⟩ := letterRun_cons hr
        rw [hr] at h
        simp only [List.length_cons, Nat.add_le_add_iff_right] at h
        rw [List.take_succ_cons, List.drop_succ_cons]
        exact congrArg _ (ih ts h)

theorem numeralRun_cons {pointed : Bool} {t : Token} {ts : List Token} {c : Char} {r : Range}
    {others : List (Char × Range)} (h : numeralRun pointed (t :: ts) = (c, r) :: others) :
    t = .glyph c r ∧ ∃ pointed', others = numeralRun pointed' ts := by
  match t with
  | .glyph c' r' =>
    rw [numeralRun] at h
    split at h
    · simp only [List.cons.injEq, Prod.mk.injEq] at h
      obtain ⟨⟨rfl, rfl⟩, rfl⟩ := h
      exact ⟨rfl, pointed, rfl⟩
    · split at h
      · simp only [List.cons.injEq, Prod.mk.injEq] at h
        obtain ⟨⟨rfl, rfl⟩, rfl⟩ := h
        exact ⟨rfl, true, rfl⟩
      · cases h
  | .operand .. => cases h
  | .superscript .. => cases h
  | .subscript .. => cases h

theorem isNumeral_numeralRun (ts : List Token) (pointed : Bool) : IsNumeral (numeralRun pointed ts) := by
  fun_induction numeralRun pointed ts with
  | case1 pointed c r ts hc ih => exact List.forall_mem_cons.2 ⟨.inl hc, ih⟩
  | case2 pointed c r ts _ hc ih => exact List.forall_mem_cons.2 ⟨.inr hc.1, ih⟩
  | case3 => exact List.forall_mem_nil _
  | case4 => exact List.forall_mem_nil _

theorem numeralRun_eq (ts : List Token) (pointed : Bool) :
    ts = glyphs (numeralRun pointed ts) ++ ts.drop (numeralRun pointed ts).length := by
  induction ts generalizing pointed with
  | nil => rfl
  | cons t ts ih =>
    cases hr : numeralRun pointed (t :: ts) with
    | nil => rfl
    | cons p others =>
      obtain ⟨rfl, pointed', rfl⟩ := numeralRun_cons hr
      exact congrArg _ (ih pointed')

/-! ## Words -/

/-- A look-up finds the name of an entry. -/
theorem lookup_mem {table : FunctionTable} {word name : String} (h : table.lookup word = some name) :
    ∃ e ∈ table.entries, e.name = name := by
  rw [WordTable.lookup_eq] at h
  split at h
  · cases h
  · obtain ⟨e, he, rfl⟩ := Option.map_eq_some_iff.1 h
    exact ⟨e, List.mem_of_find?_eq_some he, rfl⟩

theorem Names.ne_empty {table : FunctionTable} (ht : table.HasNames)
    {run : List (Char × Range)} {name : String} {function : Bool} (h : Names table run name function) :
    name ≠ "" := by
  cases h with
  | function hl =>
    obtain ⟨e, he, rfl⟩ := lookup_mem hl
    exact ht e he
  | letter hc => simp

/-- The first name of a run is what a part of the run may be read as. -/
theorem names_first (table : FunctionTable) {c : Char} (hc : Text.isLetter c) (r : Range)
    (others : List (Char × Range)) :
    let w := Word.first table c (others.map (·.1))
    w.length - 1 ≤ others.length ∧
      Names table ((c, r) :: others.take (w.length - 1)) w.name w.function := by
  intro w
  cases hl : table.longestWord? (c :: others.map (·.1)) with
  | none =>
    have hw : w = ⟨1, c.toString, false⟩ := by
      simp only [w, Word.first, hl]
    rw [hw]
    exact ⟨Nat.zero_le _, .letter hc⟩
  | some p =>
    obtain ⟨n, name⟩ := p
    have hw : w = ⟨n, name, true⟩ := by
      simp only [w, Word.first, hl]
    obtain ⟨hpos, hle, hlook⟩ := FunctionTable.longestWord?_eq_some hl
    rw [hw]
    simp only [List.length_cons, List.length_map] at hle
    refine ⟨by simp only; omega, .function ?_⟩
    obtain ⟨m, rfl⟩ : ∃ m, n = m + 1 := ⟨n - 1, by omega⟩
    simpa [textOf, List.map_take] using hlook

theorem named_of_mergeWords {table : FunctionTable} {ts us : List Token}
    (h : mergeWords table ts = .ok us) : Named table ts us := by
  fun_induction mergeWords table ts generalizing us with
  | case1 =>
    cases h
    exact .nil
  | case2 t rest hr ih =>
    cases hm : mergeWords table rest with
    | error f => rw [hm] at h; cases h
    | ok vs =>
      rw [hm] at h
      cases h
      exact .other (ih hm)
  | case3 => cases h
  | case4 t rest c r others hr w name hn =>
    rename_i ih
    obtain ⟨rfl, hc, rfl⟩ := letterRun_cons hr
    obtain ⟨hle, hnames⟩ := names_first table hc r (letterRun rest)
    unfold ofName at hn
    split at hn
    · cases hn
    · next hne =>
      cases hn
      cases hm : mergeWords table (rest.drop (w.length - 1)) with
      | error f => rw [hm] at h; cases h
      | ok vs =>
        rw [hm] at h
        cases h
        have := Named.name hnames hne (ih hm)
        rw [glyphs, List.map_cons, List.cons_append] at this
        rwa [← glyphs, ← take_letterRun rest _ hle] at this

/-- Names can be read when no function of the table has an empty name. -/
theorem exists_mergeWords {table : FunctionTable} (ht : table.HasNames)
    (ts : List Token) : ∃ us, mergeWords table ts = .ok us := by
  fun_induction mergeWords table ts with
  | case1 => exact ⟨[], rfl⟩
  | case2 t rest hr ih =>
    obtain ⟨us, hu⟩ := ih
    exact ⟨t :: us, by rw [hu]; rfl⟩
  | case3 t rest c r others hr w f hn =>
    exfalso
    obtain ⟨rfl, hc, rfl⟩ := letterRun_cons hr
    have hname : w.name ≠ "" := (names_first table hc r (letterRun rest)).2.ne_empty ht
    unfold ofName at hn
    rw [if_neg hname] at hn
    cases hn
  | case4 t rest c r others hr w name hn ih =>
    obtain ⟨us, hu⟩ := ih
    exact ⟨name :: us, by rw [hu]; rfl⟩

/-! ## Numerals -/

theorem numbered_mergeNumerals (value : String → Option Number) (ts : List Token) :
    Numbered value ts (mergeNumerals value ts).1 (mergeNumerals value ts).2 := by
  fun_induction mergeNumerals value ts with
  | case1 => exact .nil
  | case2 t rest hr found us hm ih => rw [hm] at ih; exact .other ih
  | case3 t rest c r others hr hd found us hm ih => rw [hm] at ih; exact .other ih
  | case4 t rest c r others hr hd complaints numeral hn found us hm ih =>
    rw [hm] at ih
    have hrun := isNumeral_numeralRun (t :: rest) false
    rw [hr] at hrun
    obtain ⟨rfl, pointed, rfl⟩ := numeralRun_cons hr
    have hrest := numeralRun_eq rest pointed
    generalize numeralRun pointed rest = others at *
    rw [hrest]
    unfold ofNumeral at hn
    split at hn
    · next v hv =>
      cases hn
      exact .number hrun hv ih
    · next hv =>
      cases hn
      simp only [List.length_cons, List.length_map]
      exact .rejected hrun hv ih

end Token

end PlanarMath
