import PlanarMath.Proofs.Token.Longest
import PlanarMath.Proofs.Token.Merged
import PlanarMath.Reading
import PlanarMath.Transcriber

/-!
# Blanks between tokens

The tokens of a row fall into chunks: a name, a numeral, or a single token of any other kind.  Blanks that are
put in where no chunk is cut (`Token.Respaced`) change nothing: the same names and numerals are merged, and then
the blanks are gone.

    s i n x 2 . 5 . 1        chunks    sin | x | 2.5 | .1
    s i n _ x 2 . 5 _ . 1    the same chunks

A name is the longest word that the rest of its run starts with, and a run that is cut short by a blank is
searched for the same words up to where it is cut.  A numeral ends where its run of digits ends or at a second
point, and neither is moved by a blank behind it.
-/

namespace PlanarMath

/-! ## Blanks are no letters and no digits -/

namespace Text

theorem char_le_iff {c d : Char} : c ≤ d ↔ c.toNat ≤ d.toNat := by
  rw [Char.le_def, UInt32.le_iff_toNat_le]
  rfl

theorem char_lt_iff {c d : Char} : c < d ↔ c.toNat < d.toNat := by
  rw [Char.lt_def, UInt32.lt_iff_toNat_lt]
  rfl

theorem isLetter_of_isBlank {c : Char} (h : isBlank c) : isLetter c = false := by
  simp only [isBlank, isWhiteSpace, Bool.or_eq_true, Bool.and_eq_true, decide_eq_true_eq, beq_iff_eq] at h
  rw [Bool.eq_false_iff]
  intro hl
  simp only [isLetter, isLetters, isBetween, Bool.or_eq_true, Bool.and_eq_true, decide_eq_true_eq, beq_iff_eq,
    char_le_iff, char_lt_iff, List.isEmpty_nil, and_true, Char.ext_iff, ← UInt32.toNat_inj] at hl
  simp only [Char.toNat, Char.reduceVal, UInt32.reduceToNat] at h hl
  omega

theorem isAsciiDigit_of_isBlank {c : Char} (h : isBlank c) : isAsciiDigit c = false := by
  simp only [isBlank, isWhiteSpace, Bool.or_eq_true, Bool.and_eq_true, decide_eq_true_eq, beq_iff_eq] at h
  rw [Bool.eq_false_iff]
  intro hd
  simp only [isAsciiDigit, Bool.and_eq_true, decide_eq_true_eq, char_le_iff] at hd
  simp only [Char.toNat, Char.reduceVal, UInt32.reduceToNat] at h hd
  omega

theorem ne_point_of_isBlank {c : Char} (h : isBlank c) : c ≠ '.' := by
  rintro rfl
  cases h

end Text

/-! ## Words of a run that is cut short -/

namespace FunctionTable

variable {t : FunctionTable} {cs cs' : List Char}

/-- Of two texts that start alike, as many beginnings are known. -/
theorem knownUpTo?_cut (hp : cs' <+: cs) {n : Nat} (hn : n ≤ cs'.length) :
    t.knownUpTo? cs' n = t.knownUpTo? cs n := by
  induction n with
  | zero => rfl
  | succ n ih =>
    obtain ⟨rest, rfl⟩ := hp
    rw [knownUpTo?, knownUpTo?, ih (by omega), List.take_append_of_le_length hn]

/-- The longest known beginning is the longest up to any bound that leaves it in. -/
theorem knownUpTo?_of_le {m n : Nat} (hmn : m ≤ n)
    (h : ∀ k name, t.knownUpTo? cs n = some (k, name) → k ≤ m) : t.knownUpTo? cs m = t.knownUpTo? cs n := by
  induction hmn with
  | refl => rfl
  | @step n hmn ih =>
    have hle : m ≤ n := hmn
    rw [knownUpTo?] at h ⊢
    cases hl : t.lookup (String.ofList (cs.take (n + 1))) with
    | some name =>
      have := h (n + 1) name (by rw [hl])
      omega
    | none =>
      rw [hl] at h
      exact ih h

/-- A text that is cut short behind its longest known beginning has the same longest known beginning. -/
theorem knownPrefix?_cut (hp : cs' <+: cs)
    (h : ∀ k name, t.knownPrefix? cs = some (k, name) → k ≤ cs'.length) :
    t.knownPrefix? cs' = t.knownPrefix? cs := by
  unfold knownPrefix? at h ⊢
  rw [knownUpTo?_cut hp (Nat.le_refl _), knownUpTo?_of_le hp.length_le h]

end FunctionTable

namespace Token

/-- A run that is cut short behind its first name has the same first name. -/
theorem Word.first_cut {table : FunctionTable} {c : Char} {cs cs' : List Char} (hp : cs' <+: cs)
    (h : (Word.first table c cs).length ≤ cs'.length + 1) : Word.first table c cs' = Word.first table c cs := by
  rw [Word.first_eq] at h ⊢
  rw [Word.first_eq, table.knownPrefix?_cut ((List.prefix_cons_inj c).2 hp)]
  intro k name hk
  rw [hk] at h
  exact h

/-! ## Pieces -/

/-- How many tokens in front are read as one: those of a numeral, or else one. -/
def numeralChunk (ts : List Token) : Nat := if startsNumeral ts then (numeralRun false ts).length else 1

/-- How many tokens in front are read as one: those of a name or of a numeral, or else one. -/
def chunk (table : FunctionTable) (ts : List Token) : Nat :=
  match letterRun ts with
  | [] => numeralChunk ts
  | (c, _) :: others => (Word.first table c (others.map (·.1))).length

/-- Tokens, and the same with blanks put in where no chunk is cut. -/
inductive Respaced (chunk : List Token → Nat) : List Token → List Token → Prop
  | nil : Respaced chunk [] []
  | blank {c r ts us} : Text.isBlank c → Respaced chunk ts us → Respaced chunk ts (.glyph c r :: us)
  | chunk {t p ts us} : chunk (t :: p ++ ts) = p.length + 1 → Respaced chunk ts us →
      Respaced chunk (t :: p ++ ts) (t :: p ++ us)

/-! ## Names -/

theorem letterRun_eq_nil_of_cons {t : Token} {ts us : List Token} (h : letterRun (t :: ts) = []) :
    letterRun (t :: us) = [] := by
  cases t with
  | glyph c r =>
    rw [letterRun] at h ⊢
    split at h
    · cases h
    · next hc => exact if_neg hc
  | _ => rfl

theorem letterRun_blank {c : Char} (hc : Text.isBlank c) (r : Range) (ts : List Token) :
    letterRun (.glyph c r :: ts) = [] := by
  rw [letterRun, Text.isLetter_of_isBlank hc]
  rfl

theorem letterRun_glyphs {run : List (Char × Range)} (h : ∀ p ∈ run, Text.isLetter p.1) (ts : List Token) :
    letterRun (glyphs run ++ ts) = run ++ letterRun ts := by
  induction run with
  | nil => rfl
  | cons p run ih =>
    obtain ⟨hp, hrun⟩ := List.forall_mem_cons.1 h
    have hrest := ih hrun
    unfold glyphs at hrest ⊢
    rw [List.map_cons, List.cons_append, letterRun, if_pos hp, hrest]
    rfl

/-- A chunk that starts with a letter is a part of a run of letters, and its first name. -/
theorem exists_word {table : FunctionTable} {t : Token} {p ts : List Token}
    (hchunk : chunk table (t :: p ++ ts) = p.length + 1) (hr : letterRun (t :: p ++ ts) ≠ []) :
    ∃ c r run, t :: p = glyphs ((c, r) :: run) ∧ (∀ q ∈ (c, r) :: run, Text.isLetter q.1) ∧
      (Word.first table c ((run ++ letterRun ts).map (·.1))).length = run.length + 1 := by
  rw [List.cons_append] at hchunk hr
  cases hrun : letterRun (t :: (p ++ ts)) with
  | nil => exact absurd hrun hr
  | cons q others =>
    obtain ⟨c, r⟩ := q
    obtain ⟨rfl, hc, rfl⟩ := letterRun_cons hrun
    obtain ⟨hle, -⟩ := names_first table hc r (letterRun (p ++ ts))
    simp only [chunk, hrun] at hchunk
    rw [hchunk, Nat.add_sub_cancel] at hle
    have htake := take_letterRun (p ++ ts) p.length hle
    rw [List.drop_left] at htake
    have hp := List.append_cancel_right htake
    have hletters : ∀ q ∈ (letterRun (p ++ ts)).take p.length, Text.isLetter q.1 :=
      fun q hq => isLetter_letterRun (p ++ ts) q (List.mem_of_mem_take hq)
    generalize (letterRun (p ++ ts)).take p.length = run at hp hletters
    rw [hp, letterRun_glyphs hletters] at hchunk
    refine ⟨c, r, run, by rw [hp]; rfl, List.forall_mem_cons.2 ⟨hc, hletters⟩, ?_⟩
    rw [hchunk, glyphs, List.length_map]

/-- The letters in front of tokens with blanks put in are the first of those without. -/
theorem letterRun_respaced {table : FunctionTable} {ts us : List Token} (h : Respaced (chunk table) ts us) :
    letterRun us <+: letterRun ts := by
  induction h with
  | nil => exact List.prefix_rfl
  | blank hc _ _ =>
    rw [letterRun_blank hc]
    exact List.nil_prefix
  | @chunk t p ts us hchunk _ ih =>
    by_cases hr : letterRun (t :: p ++ ts) = []
    · have hr' : letterRun (t :: p ++ us) = [] := letterRun_eq_nil_of_cons hr
      rw [hr']
      exact List.nil_prefix
    · obtain ⟨c, r, run, hp, hletters, -⟩ := exists_word hchunk hr
      rw [hp, letterRun_glyphs hletters, letterRun_glyphs hletters]
      exact (List.prefix_append_right_inj _).2 ih

/-- A name in front, and what is behind it. -/
theorem mergeWords_word {table : FunctionTable} {c : Char} {r : Range} {run : List (Char × Range)}
    {ts : List Token} (hletters : ∀ q ∈ (c, r) :: run, Text.isLetter q.1) {w : Word}
    (hw : Word.first table c ((run ++ letterRun ts).map (·.1)) = w) (hlen : w.length = run.length + 1) :
    mergeWords table (glyphs ((c, r) :: run) ++ ts) =
      (ofName w (spanOf r run)).bind fun name => (mergeWords table ts).map (name :: ·) := by
  have hrun := letterRun_glyphs hletters ts
  have hbehind : (glyphs run ++ ts).drop run.length = ts := List.drop_left' (List.length_map _)
  rw [glyphs, List.map_cons, List.cons_append, ← glyphs] at hrun ⊢
  rw [mergeWords, hrun]
  simp only [List.cons_append, hw, hlen, Nat.add_sub_cancel, List.take_left, hbehind]
  cases ofName w (spanOf r run) <;> rfl

/-- Tokens that start no name stay in front. -/
theorem mergeWords_others {table : FunctionTable} {p : List Token} (hp : ∀ t ∈ p, letterRun [t] = [])
    (ts : List Token) : mergeWords table (p ++ ts) = (mergeWords table ts).map (p ++ ·) := by
  induction p with
  | nil =>
    simp only [List.nil_append]
    cases mergeWords table ts <;> rfl
  | cons t p ih =>
    obtain ⟨ht, hrest⟩ := List.forall_mem_cons.1 hp
    rw [List.cons_append, mergeWords_other (letterRun_eq_nil_of_cons ht), ih hrest]
    cases mergeWords table ts <;> rfl

/-! ## Numerals -/

theorem numeralRun_blank {c : Char} (hc : Text.isBlank c) (r : Range) (pointed : Bool) (ts : List Token) :
    numeralRun pointed (.glyph c r :: ts) = [] := by
  rw [numeralRun, Text.isAsciiDigit_of_isBlank hc]
  simp [Text.ne_point_of_isBlank hc]

theorem numeralRun_eq_nil_of_cons {t : Token} {ts us : List Token} {pointed : Bool}
    (h : numeralRun pointed (t :: ts) = []) : numeralRun pointed (t :: us) = [] := by
  cases t with
  | glyph c r =>
    rw [numeralRun] at h ⊢
    split at h
    · cases h
    · next hc =>
      rw [if_neg hc]
      split at h
      · cases h
      · next hpoint => exact if_neg hpoint
  | _ => rfl

/-- Where no digits stand in front, none stand there with blanks put in. -/
theorem numeralRun_respaced {f : List Token → Nat} {ts us : List Token} (h : Respaced f ts us)
    {pointed : Bool} (hn : numeralRun pointed ts = []) : numeralRun pointed us = [] := by
  cases h with
  | nil => rfl
  | blank hc _ => exact numeralRun_blank hc _ pointed _
  | chunk _ _ => exact numeralRun_eq_nil_of_cons hn

/-- A run of digits that ends before the first blank put in ends there. -/
theorem numeralRun_append_respaced {f : List Token → Nat} {ts us : List Token} (h : Respaced f ts us)
    {pointed : Bool} {p : List Token} (hp : (numeralRun pointed (p ++ ts)).length ≤ p.length) :
    numeralRun pointed (p ++ us) = numeralRun pointed (p ++ ts) := by
  induction p generalizing pointed with
  | nil =>
    have hnil := List.length_eq_zero_iff.1 (Nat.le_zero.1 hp)
    rw [List.nil_append] at hnil ⊢
    rw [numeralRun_respaced h hnil, List.nil_append, hnil]
  | cons t p ih =>
    cases t with
    | glyph c r =>
      rw [List.cons_append, numeralRun] at hp ⊢
      rw [List.cons_append, numeralRun]
      split at hp
      · next hc =>
        rw [if_pos hc, if_pos hc, ih (Nat.le_of_succ_le_succ hp)]
      · next hc =>
        rw [if_neg hc, if_neg hc]
        split at hp
        · next hpoint => rw [if_pos hpoint, if_pos hpoint, ih (Nat.le_of_succ_le_succ hp)]
        · next hpoint => rw [if_neg hpoint, if_neg hpoint]
    | _ => rfl

/-- A numeral is no longer than its chunk. -/
theorem length_numeralRun_le {t : Token} {p ts : List Token} (h : numeralChunk (t :: p ++ ts) = p.length + 1) :
    (numeralRun false (t :: p ++ ts)).length ≤ (t :: p).length := by
  unfold numeralChunk at h
  split at h
  · exact Nat.le_of_eq h
  · next hn =>
    have hshort := startsNumeral_eq_false_iff.1 (Bool.eq_false_iff.2 hn)
    rw [List.length_cons]
    rw [← List.length_map (f := (·.1))]
    rcases hshort with hnone | hpoint
    · rw [hnone, List.length_nil]
      omega
    · rw [hpoint, List.length_singleton]
      omega

theorem startsNumeral_congr {ts us : List Token} (h : numeralRun false us = numeralRun false ts) :
    startsNumeral us = startsNumeral ts := by
  unfold startsNumeral
  rw [h]

theorem numeralChunk_congr {ts us : List Token} (h : numeralRun false us = numeralRun false ts) :
    numeralChunk us = numeralChunk ts := by
  unfold numeralChunk
  rw [startsNumeral_congr h, h]

/-- The tokens of a chunk that is no name start no name. -/
theorem letterRun_of_chunk {t : Token} {p ts : List Token} (hr : letterRun (t :: p ++ ts) = [])
    (h : numeralChunk (t :: p ++ ts) = p.length + 1) : ∀ u ∈ t :: p, letterRun [u] = [] := by
  unfold numeralChunk at h
  split at h
  · have hrun := numeralRun_eq (t :: p ++ ts) false
    rw [h, ← List.length_cons (a := t), List.drop_left] at hrun
    rw [List.append_cancel_right hrun]
    intro u hu
    obtain ⟨q, hq, rfl⟩ := List.mem_map.1 hu
    have hletter : Text.isLetter q.1 = false := by
      rcases isNumeral_numeralRun _ _ q hq with hd | hd
      · exact Text.isLetter_of_isAsciiDigit hd
      · rw [hd]
        rfl
    rw [letterRun, hletter]
    rfl
  · obtain rfl : p = [] := List.length_eq_zero_iff.1 (by omega)
    intro u hu
    rw [List.mem_singleton.1 hu]
    exact letterRun_eq_nil_of_cons hr

/-! ## Merging -/

/-- Names are merged with blanks put in as they are without, and leave the numerals as they were. -/
theorem mergeWords_respaced {table : FunctionTable} {ts us : List Token} (h : Respaced (chunk table) ts us) :
    (∃ f, mergeWords table ts = .error f ∧ mergeWords table us = .error f) ∨
      ∃ ts' us', mergeWords table ts = .ok ts' ∧ mergeWords table us = .ok us' ∧
        Respaced numeralChunk ts' us' := by
  induction h with
  | nil =>
    rw [mergeWords]
    exact .inr ⟨[], [], rfl, rfl, .nil⟩
  | @blank c r ts us hc _ ih =>
    rw [mergeWords_other (letterRun_blank hc r us)]
    rcases ih with ⟨f, hts, hus⟩ | ⟨ts', us', hts, hus, hnext⟩
    · exact .inl ⟨f, hts, by rw [hus]; rfl⟩
    · exact .inr ⟨ts', .glyph c r :: us', hts, by rw [hus]; rfl, .blank hc hnext⟩
  | @chunk t p ts us hchunk hrest ih =>
    by_cases hr : letterRun (t :: p ++ ts) = []
    · have hnumeral : numeralChunk (t :: p ++ ts) = p.length + 1 := by
        unfold chunk at hchunk
        rwa [hr] at hchunk
      have hothers := letterRun_of_chunk hr hnumeral
      rw [mergeWords_others hothers ts, mergeWords_others hothers us]
      rcases ih with ⟨f, hts, hus⟩ | ⟨ts', us', hts, hus, hnext⟩
      · exact .inl ⟨f, by rw [hts]; rfl, by rw [hus]; rfl⟩
      · have hmerged : mergeWords table (t :: p ++ ts) = .ok (t :: p ++ ts') := by
          rw [mergeWords_others hothers ts, hts]
          rfl
        have hrun := numeralChunk_congr (numeralRun_mergeWords hmerged false).1
        exact .inr ⟨t :: p ++ ts', t :: p ++ us', by rw [hts]; rfl, by rw [hus]; rfl,
          .chunk (hrun.trans hnumeral) hnext⟩
    · obtain ⟨c, r, run, hp, hletters, hlen⟩ := exists_word hchunk hr
      have hnames := (letterRun_respaced hrest).map (·.1)
      -- the run is cut short behind its first name at the earliest
      have hfirst : Word.first table c ((run ++ letterRun us).map (·.1)) =
          Word.first table c ((run ++ letterRun ts).map (·.1)) := by
        apply Word.first_cut
        · rw [List.map_append, List.map_append]
          exact (List.prefix_append_right_inj _).2 hnames
        · rw [hlen, List.length_map, List.length_append]
          omega
      rw [hp, mergeWords_word hletters rfl hlen, mergeWords_word hletters hfirst hlen]
      cases ho : ofName (Word.first table c ((run ++ letterRun ts).map (·.1))) (spanOf r run) with
      | error f => exact .inl ⟨f, rfl, rfl⟩
      | ok name =>
        obtain ⟨-, hname⟩ := ofName_eq_ok.1 ho
        rcases ih with ⟨f, hts, hus⟩ | ⟨ts', us', hts, hus, hnext⟩
        · exact .inl ⟨f, by rw [hts]; rfl, by rw [hus]; rfl⟩
        · have hone : numeralChunk (name :: [] ++ ts') = 1 := by
            rw [← hname]
            rfl
          exact .inr ⟨name :: ts', name :: us', by rw [hts]; rfl, by rw [hus]; rfl, .chunk hone hnext⟩

end Token

namespace Report

variable {α β γ : Type}

theorem map_id (r : Report α) : (r.map fun a => a) = r := by
  obtain ⟨found, result⟩ := r
  cases result <;> rfl

theorem map_map (r : Report α) (f : α → β) (g : β → γ) : (r.map f).map g = r.map fun a => g (f a) := by
  obtain ⟨found, result⟩ := r
  cases result <;> rfl

theorem map_andThen (r : Report α) (f : α → Report β) (g : β → γ) :
    (r.andThen f).map g = r.andThen fun a => (f a).map g := by
  obtain ⟨found, result⟩ := r
  cases result <;> rfl

end Report

namespace Method

open Reading Token

variable (m : Method)

theorem numerals_other {t : Token} {ts : List Token} (h : startsNumeral (t :: ts) = false) :
    m.numerals (t :: ts) = (m.numerals ts).map (t :: ·) := by
  rw [numerals]
  unfold startsNumeral at h
  split
  · rfl
  · next c r others hr =>
    rw [hr] at h
    have hpoint : c = '.' ∧ others = [] := by simpa using h
    rw [if_pos hpoint]

theorem numerals_numeral {ts : List Token} {c : Char} {r : Range} {others : List (Char × Range)}
    (hr : numeralRun false ts = (c, r) :: others) (h : startsNumeral ts) :
    m.numerals ts = (m.numeral (c :: others.map (·.1)) (spanOf r others)).andThen fun number =>
      (m.numerals (ts.drop (others.length + 1))).map (number :: ·) := by
  match ts with
  | [] => cases hr
  | t :: ts =>
    unfold startsNumeral at h
    rw [hr] at h
    have hpoint : ¬(c = '.' ∧ others = []) := by
      rintro ⟨rfl, rfl⟩
      cases h
    rw [numerals, hr]
    simp only [if_neg hpoint, List.drop_succ_cons]

variable {q : Token → Bool}

theorem filter_cons (r : Report (List Token)) (t : Token) :
    (r.map (t :: ·)).map (List.filter q) = (r.map (List.filter q)).map ([t].filter q ++ ·) := by
  rw [Report.map_map, Report.map_map]
  simp only [← List.filter_append, List.singleton_append]

/-- Numerals are read with blanks put in as they are without, once the blanks are gone. -/
theorem numerals_respaced (hq : ∀ c r, Text.isBlank c → q (.glyph c r) = false) {ts us : List Token}
    (h : Respaced numeralChunk ts us) :
    (m.numerals us).map (List.filter q) = (m.numerals ts).map (List.filter q) := by
  induction h with
  | nil => rfl
  | @blank c r ts us hc _ ih =>
    have hother : startsNumeral (.glyph c r :: us) = false :=
      startsNumeral_eq_false_iff.2 (.inl (by rw [numeralRun_blank hc]; rfl))
    have hgone : [Token.glyph c r].filter q = [] := List.filter_cons_of_neg (by simp [hq c r hc])
    rw [numerals_other m hother, filter_cons, ih, hgone, Report.map_map]
    rfl
  | @chunk t p ts us hchunk hrest ih =>
    have hrun := numeralRun_append_respaced hrest (length_numeralRun_le hchunk)
    have hstart := startsNumeral_congr hrun
    cases hn : startsNumeral (t :: p ++ ts) with
    | false =>
      obtain rfl : p = [] := by
        rw [numeralChunk, hn] at hchunk
        exact List.length_eq_zero_iff.1 (Nat.succ.inj hchunk).symm
      rw [hn] at hstart
      simp only [List.cons_append, List.nil_append] at hn hstart ⊢
      rw [numerals_other m hn, numerals_other m hstart, filter_cons, filter_cons, ih]
    | true =>
      rw [hn] at hstart
      rw [numeralChunk, hn, if_pos rfl] at hchunk
      cases hr : numeralRun false (t :: p ++ ts) with
      | nil =>
        rw [hr] at hchunk
        cases hchunk
      | cons d others =>
        rw [hr] at hchunk
        rw [hr] at hrun
        have hbehind : ∀ vs : List Token, (t :: p ++ vs).drop (others.length + 1) = vs :=
          fun vs => List.drop_left' hchunk.symm
        rw [numerals_numeral m hr hn, numerals_numeral m hrun hstart, hbehind, hbehind, Report.map_andThen,
          Report.map_andThen]
        simp only [filter_cons, ih]

/-- Tokens are merged with blanks put in as they are without. -/
theorem merge_respaced {ts us : List Token} (h : Respaced (chunk m.functions) ts us) :
    m.merge us = m.merge ts := by
  have hblank : ∀ c r, Text.isBlank c → (!isBlank (.glyph c r)) = false := by
    intro c r hc
    rw [isBlank, hc]
    rfl
  unfold merge
  rcases mergeWords_respaced h with ⟨f, hts, hus⟩ | ⟨ts', us', hts, hus, hnext⟩
  · rw [hts, hus]
  · rw [hts, hus]
    exact m.numerals_respaced hblank hnext

end Method

end PlanarMath
