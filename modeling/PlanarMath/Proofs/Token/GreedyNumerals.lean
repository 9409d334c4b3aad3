import PlanarMath.Proofs.Reading.Runs
import PlanarMath.Proofs.Token.Replaced
import PlanarMath.Proofs.Token.Respaced

/-!
# The longest numeral first

How a run of digits and points is read as numbers.  At each place the longest beginning of the rest of the run
with at most one point is taken off (`LongestPointed`).  A point alone stays the glyph that it is; everything
else is the text of one operand, which is a number or, when the text has no value, an error with one complaint
(`FirstNumeral`).

    1 . 2 . 3 . . 4   →   1.2   .3   .   .4

Reading the numerals of some tokens replaces every maximal run of digits and points in this way and keeps all
other tokens (`mergeNumerals_greedy`).
-/

namespace PlanarMath.Token

/-- A character that a numeral may be written with. -/
def isNumeric (c : Char) : Bool := Text.isAsciiDigit c || c == '.'

/-- The number of points of a run. -/
def points (run : List (Char × Range)) : Nat := (run.map (·.1)).count '.'

/-- The longest beginning of a run with at most one point, and what is behind it. -/
structure LongestPointed (word rest : List (Char × Range)) : Prop where
  ne_nil : word ≠ []
  pointed : points word ≤ 1
  longest : ∀ longer, longer <+: word ++ rest → word.length < longer.length → 1 < points longer

/-- The first segment of a run of digits and points, and what it becomes: a point alone stays, anything else
is the text of a number or, without a value, an error. -/
inductive FirstNumeral (value : String → Option Number) : First
  | point {range rest} : LongestPointed [('.', range)] rest →
      FirstNumeral value [('.', range)] rest [] (.glyph '.' range)
  | number {word rest range v} : LongestPointed word rest → textOf word ≠ "." → Spans word range →
      value (textOf word) = some v →
      FirstNumeral value word rest [] (.operand (numberIn v range) false range)
  | rejected {word rest range} : LongestPointed word rest → textOf word ≠ "." → Spans word range →
      value (textOf word) = none →
      FirstNumeral value word rest [⟨.invalidNumber word.length, range⟩] (.operand (.error range) false range)

variable {value : String → Option Number} {word rest word' rest' run : List (Char × Range)} {ts us : List Token}

/-! ## The longest beginning with at most one point -/

theorem points_append (a b : List (Char × Range)) : points (a ++ b) = points a + points b := by
  rw [points, List.map_append, List.count_append]
  rfl

theorem points_cons (p : Char × Range) (run : List (Char × Range)) :
    points (p :: run) = points run + if p.1 = '.' then 1 else 0 := by
  simp [points, List.count_cons]

/-- A run has one longest beginning with at most one point. -/
theorem LongestPointed.unique (h : LongestPointed word rest) (h' : LongestPointed word' rest')
    (heq : word ++ rest = word' ++ rest') : word = word' := by
  have hle : ¬word.length < word'.length := by
    intro hlt
    have := h.longest word' (heq ▸ List.prefix_append _ _) hlt
    have := h'.pointed
    omega
  have hge : ¬word'.length < word.length := by
    intro hlt
    have := h'.longest word (heq ▸ List.prefix_append _ _) hlt
    have := h.pointed
    omega
  exact (List.append_inj heq (by omega)).1

/-- No token of a class stands in front of no tokens. -/
theorem isOf_head?_nil {inClass : Char → Bool} : ∀ t ∈ ([] : List Token).head?, t.isOf inClass = false :=
  fun t ht => by cases ht

theorem numeralRun_eq_nil (h : ∀ t ∈ ts.head?, t.isOf isNumeric = false) (pointed : Bool) :
    numeralRun pointed ts = [] := by
  match ts with
  | [] => rfl
  | .glyph c r :: ts =>
    have hc : isNumeric c = false := h _ rfl
    simp only [isNumeric, Bool.or_eq_false_iff, beq_eq_false_iff_ne] at hc
    simp [numeralRun, hc]
  | .operand .. :: ts => rfl
  | .superscript .. :: ts => rfl
  | .subscript .. :: ts => rfl

/-- The digits in front of a run, as many points among them as may be, end where the run does or at a point
too many. -/
theorem numeralRun_glyphs (hof : ∀ p ∈ run, isNumeric p.1) (hts : ∀ t ∈ ts.head?, t.isOf isNumeric = false)
    (pointed : Bool) :
    ∃ rest, run = numeralRun pointed (glyphs run ++ ts) ++ rest ∧
      points (numeralRun pointed (glyphs run ++ ts)) ≤ (if pointed then 0 else 1) ∧
      ∀ p ∈ rest.head?, p.1 = '.' ∧
        points (numeralRun pointed (glyphs run ++ ts)) = if pointed then 0 else 1 := by
  induction run generalizing pointed with
  | nil =>
    rw [glyphs, List.map_nil, List.nil_append, numeralRun_eq_nil hts]
    exact ⟨[], rfl, Nat.zero_le _, fun p hp => by cases hp⟩
  | cons q run ih =>
    obtain ⟨c, r⟩ := q
    obtain ⟨hc, hrun⟩ := List.forall_mem_cons.1 hof
    have hcons : glyphs ((c, r) :: run) ++ ts = .glyph c r :: (glyphs run ++ ts) := rfl
    rw [hcons, numeralRun]
    split
    · next hdigit =>
      have hpoint : c ≠ '.' := by
        rintro rfl
        cases hdigit
      obtain ⟨rest, hsplit, hle, hrest⟩ := ih hrun pointed
      rw [points_cons, if_neg hpoint]
      exact ⟨rest, congrArg ((c, r) :: ·) hsplit, hle, hrest⟩
    · next hdigit =>
      obtain rfl : c = '.' := by simpa [isNumeric, hdigit] using hc
      cases pointed with
      | true => exact ⟨('.', r) :: run, rfl, Nat.zero_le _, fun p hp => by cases hp; exact ⟨rfl, rfl⟩⟩
      | false =>
        obtain ⟨rest, hsplit, hle, hrest⟩ := ih hrun true
        rw [if_pos ⟨rfl, rfl⟩, points_cons, if_pos rfl]
        refine ⟨rest, congrArg (('.', r) :: ·) hsplit, Nat.succ_le_succ hle, fun p hp => ?_⟩
        obtain ⟨hp, hcount⟩ := hrest p hp
        exact ⟨hp, congrArg (· + 1) hcount⟩

/-- The numeral in front of a run is its longest beginning with at most one point. -/
theorem longestPointed_numeralRun (hne : run ≠ []) (hof : ∀ p ∈ run, isNumeric p.1)
    (hts : ∀ t ∈ ts.head?, t.isOf isNumeric = false) :
    ∃ rest, run = numeralRun false (glyphs run ++ ts) ++ rest ∧
      LongestPointed (numeralRun false (glyphs run ++ ts)) rest := by
  obtain ⟨rest, hsplit, hle, hrest⟩ := numeralRun_glyphs hof hts false
  generalize numeralRun false (glyphs run ++ ts) = word at hsplit hle hrest
  subst hsplit
  refine ⟨rest, rfl, ?_, hle, fun longer hpre hlt => ?_⟩
  · rintro rfl
    obtain ⟨p, rest, rfl⟩ := List.exists_cons_of_ne_nil hne
    cases (hrest p rfl).2
  · obtain ⟨more, rfl⟩ := List.prefix_of_prefix_length_le (List.prefix_append word rest) hpre (by omega)
    rw [List.prefix_append_right_inj] at hpre
    match more with
    | [] => simp at hlt
    | p :: more =>
      obtain ⟨behind, rfl⟩ := hpre
      obtain ⟨hp, hcount⟩ := hrest p rfl
      rw [points_append, points_cons, if_pos hp, hcount]
      simp only [Bool.false_eq_true, if_false]
      omega

theorem numeralRun_of_longest (h : LongestPointed word rest) (hof : ∀ p ∈ word ++ rest, isNumeric p.1)
    (hts : ∀ t ∈ ts.head?, t.isOf isNumeric = false) :
    numeralRun false (glyphs (word ++ rest) ++ ts) = word := by
  have hne : word ++ rest ≠ [] := by simp [h.ne_nil]
  obtain ⟨rest', hsplit, h'⟩ := longestPointed_numeralRun hne hof hts
  exact (h.unique h' hsplit).symm

/-! ## Reading numerals -/

theorem textOf_eq_point_iff : textOf word = "." ↔ ∃ range, word = [('.', range)] := by
  have htext : textOf word = "." ↔ word.map (·.1) = ['.'] := by
    rw [textOf, ← String.toList_inj, String.toList_ofList]
    rfl
  rw [htext]
  constructor
  · intro h
    obtain ⟨p, rfl, hp⟩ := List.map_eq_singleton_iff.1 h
    exact ⟨p.2, by rw [← hp]⟩
  · rintro ⟨range, rfl⟩
    rfl

theorem exists_firstNumeral (value : String → Option Number) (hne : run ≠ []) (hrun : IsRun isNumeric run) :
    ∃ word rest found t, run = word ++ rest ∧ word ≠ [] ∧ FirstNumeral value word rest found t := by
  obtain ⟨rest, hsplit, hlongest⟩ := longestPointed_numeralRun hne hrun.isOf isOf_head?_nil
  generalize numeralRun false (glyphs run ++ []) = word at hsplit hlongest
  obtain ⟨p, others, rfl⟩ := List.exists_cons_of_ne_nil hlongest.ne_nil
  rw [hsplit] at hrun
  have hspans := spans_spanOf hrun.of_append.1.adjacent
  by_cases hpoint : textOf (p :: others) = "."
  · obtain ⟨range, heq⟩ := textOf_eq_point_iff.1 hpoint
    rw [heq] at hsplit hlongest
    exact ⟨_, rest, _, _, hsplit, List.cons_ne_nil _ _, .point hlongest⟩
  · cases hv : value (textOf (p :: others)) with
    | none => exact ⟨_, rest, _, _, hsplit, List.cons_ne_nil _ _, .rejected hlongest hpoint hspans hv⟩
    | some v => exact ⟨_, rest, _, _, hsplit, List.cons_ne_nil _ _, .number hlongest hpoint hspans hv⟩

/-- A segment that is more than a point is read as one operand, and the rest of the run after it. -/
theorem mergeNumerals_segment (hrun : IsRun isNumeric (word ++ rest))
    (hts : ∀ u ∈ ts.head?, u.isOf isNumeric = false) (hlongest : LongestPointed word rest)
    (hpoint : textOf word ≠ ".") {range : Range} (hspans : Spans word range) :
    mergeNumerals value (glyphs (word ++ rest) ++ ts) =
      ((ofNumeral value (word.map (·.1)) range).1 ++ (mergeNumerals value (glyphs rest ++ ts)).1,
        (ofNumeral value (word.map (·.1)) range).2 :: (mergeNumerals value (glyphs rest ++ ts)).2) := by
  have hnumeral := numeralRun_of_longest hlongest hrun.isOf hts
  obtain ⟨⟨c, r⟩, others, rfl⟩ := List.exists_cons_of_ne_nil hlongest.ne_nil
  obtain rfl : range = spanOf r others := hspans.unique (spans_spanOf hrun.of_append.1.adjacent)
  have hstarts : startsNumeral (glyphs ((c, r) :: others ++ rest) ++ ts) := by
    refine eq_true_of_ne_false fun hnone => ?_
    rw [startsNumeral_eq_false_iff, hnumeral] at hnone
    obtain hnone | hnone := hnone
    · cases hnone
    · exact hpoint (by rw [textOf, hnone])
  have hbehind : (glyphs ((c, r) :: others ++ rest) ++ ts).drop (others.length + 1) = glyphs rest ++ ts := by
    rw [glyphs_append, List.append_assoc]
    exact List.drop_left' (by simp [glyphs])
  rw [mergeNumerals_numeral hnumeral hstarts, hbehind]
  rfl

/-- The first segment of a run is read as it stands, and the rest of the run after it. -/
theorem FirstNumeral.mergeNumerals_eq {found : List Diagnostic} {t : Token}
    (hrun : IsRun isNumeric (word ++ rest)) (hts : ∀ u ∈ ts.head?, u.isOf isNumeric = false)
    (h : FirstNumeral value word rest found t) :
    mergeNumerals value (glyphs (word ++ rest) ++ ts) =
      (found ++ (mergeNumerals value (glyphs rest ++ ts)).1, t :: (mergeNumerals value (glyphs rest ++ ts)).2) := by
  cases h with
  | @point range _ hlongest =>
    have hnumeral := numeralRun_of_longest hlongest hrun.isOf hts
    have hnone : startsNumeral (glyphs ([('.', range)] ++ rest) ++ ts) = false := by
      rw [startsNumeral_eq_false_iff, hnumeral]
      exact .inr rfl
    exact mergeNumerals_other hnone
  | number hlongest hpoint hspans hv =>
    rw [mergeNumerals_segment hrun hts hlongest hpoint hspans, ofNumeral, ← textOf, hv]
    rfl
  | rejected hlongest hpoint hspans hv =>
    rw [mergeNumerals_segment hrun hts hlongest hpoint hspans, ofNumeral, ← textOf, hv, List.length_map]
    rfl

/-- A run that is one segment is read as it stands. -/
theorem FirstNumeral.mergeNumerals_run {found : List Diagnostic} {t : Token} (hrun : IsRun isNumeric run)
    (h : FirstNumeral value run [] found t) : mergeNumerals value (glyphs run) = (found, [t]) := by
  have hmerge := h.mergeNumerals_eq (by rwa [List.append_nil]) isOf_head?_nil
  have hnil : mergeNumerals value (glyphs [] ++ []) = ([], []) := by
    rw [glyphs, List.map_nil, List.nil_append, mergeNumerals]
  rwa [hnil, List.append_nil, List.append_nil, List.append_nil] at hmerge

/-- Reading numerals reads the first segment of a run and then the rest. -/
theorem merging_mergeNumerals (value : String → Option Number) :
    Merging isNumeric (FirstNumeral value) fun ts found us => mergeNumerals value ts = (found, us) where
  nil := by rw [mergeNumerals]
  other t ts found us hother h := by
    have hnone : startsNumeral (t :: ts) = false := by
      rw [startsNumeral_eq_false_iff, numeralRun_eq_nil (fun u hu => by cases hu; exact hother)]
      exact .inl rfl
    rw [mergeNumerals_other hnone, h]
  segment word rest ts found t more us hrun hts hfirst h := by
    rw [hfirst.mergeNumerals_eq hrun hts, h]
  exists_first run hne hrun := exists_firstNumeral value hne hrun
  unique ts found us more vs h h' := Prod.mk.inj (h.symm.trans h')

/-! ## Rows of digits -/

open Layout Reading

theorem rowTokens_glyphs (o : Options) (level i : Nat) (cs : List Char) :
    rowTokens o level i (cs.map .glyph) = .ok (glyphs (placed i cs)) := by
  induction cs generalizing i with
  | nil => rw [List.map_nil, rowTokens]; rfl
  | cons c cs ih =>
    rw [List.map_cons, rowTokens, elementToken, Report.ok_andThen, Element.width_glyph, ih]
    rfl

theorem adjacent_placed (i : Nat) (cs : List Char) : Adjacent ((placed i cs).map (·.2)) := by
  induction cs generalizing i with
  | nil => exact List.isChain_nil
  | cons c cs ih =>
    cases cs with
    | nil => exact List.isChain_singleton _
    | cons d cs => exact adjacent_cons_cons.2 ⟨rfl, ih (i + 1)⟩

theorem spans_placed (i : Nat) {cs : List Char} (hne : cs ≠ []) : Spans (placed i cs) (.ofWidth i cs.length) := by
  obtain ⟨c, cs, rfl⟩ := List.exists_cons_of_ne_nil hne
  have hspans := spans_spanOf (adjacent_placed i (c :: cs))
  rwa [spanOf_placed] at hspans

/-- Names leave a row of digits and points as it is. -/
theorem mergeWords_digits (table : FunctionTable) (hrun : ∀ p ∈ run, isNumeric p.1) :
    mergeWords table (glyphs run) = .ok (glyphs run) := by
  have hothers : ∀ t ∈ glyphs run, letterRun [t] = [] := by
    intro t ht
    obtain ⟨p, hp, rfl⟩ := List.mem_map.1 ht
    have hnumeric := hrun p hp
    simp only [isNumeric, Bool.or_eq_true, beq_iff_eq] at hnumeric
    have hletter : Text.isLetter p.1 = false := by
      obtain hdigit | hpoint := hnumeric
      · exact Text.isLetter_of_isAsciiDigit hdigit
      · rw [hpoint]
        rfl
    rw [letterRun, hletter]
    rfl
  have hwords : mergeWords table (glyphs run ++ []) = _ := mergeWords_others hothers []
  rw [List.append_nil, mergeWords] at hwords
  rw [hwords, Except.map, List.append_nil]

/-- Digits with at most one point among them are one segment. -/
theorem longestPointed_digits {cs : List Char} (i : Nat) (hcount : cs.count '.' ≤ 1) (hne : cs ≠ []) :
    LongestPointed (placed i cs) [] where
  ne_nil h := hne (by rw [← placed_text i cs, h]; rfl)
  pointed := by rwa [points, placed_text]
  longest longer hpre hlt := by
    have := hpre.length_le
    rw [List.append_nil] at this
    omega

/-- A row of digits with at most one point among them is one operand. -/
theorem tokens_digits (o : Options) (i : Nat) {cs : List Char} (hof : ∀ c ∈ cs, isNumeric c)
    (hcount : cs.count '.' ≤ 1) (hdigit : ∃ c ∈ cs, Text.isAsciiDigit c) :
    ∃ found node, tokens o i (cs.map .glyph) = ⟨found, .ok [.operand node false (.ofWidth i cs.length)]⟩ ∧
      FirstNumeral o.number (placed i cs) [] found (.operand node false (.ofWidth i cs.length)) := by
  obtain ⟨d, hd, hdigit⟩ := hdigit
  have hne : cs ≠ [] := List.ne_nil_of_mem hd
  have hlongest := longestPointed_digits i hcount hne
  have hspans := spans_placed i hne
  have hpoint : textOf (placed i cs) ≠ "." := by
    intro h
    obtain ⟨range, hpoint⟩ := textOf_eq_point_iff.1 h
    have htext := placed_text i cs
    rw [hpoint] at htext
    rw [← htext] at hd
    rw [List.mem_singleton.1 hd] at hdigit
    cases hdigit
  have hof : ∀ p ∈ placed i cs, isNumeric p.1 := by
    intro p hp
    refine hof p.1 ?_
    rw [← placed_text i cs]
    exact List.mem_map_of_mem hp
  obtain ⟨found, node, hfirst⟩ : ∃ found node,
      FirstNumeral o.number (placed i cs) [] found (.operand node false (.ofWidth i cs.length)) := by
    cases hv : o.number (textOf (placed i cs)) with
    | none => exact ⟨_, _, .rejected hlongest hpoint hspans hv⟩
    | some v => exact ⟨_, _, .number hlongest hpoint hspans hv⟩
  have hmerge := hfirst.mergeNumerals_run ⟨hof, adjacent_placed i cs⟩
  refine ⟨found, node, ?_, hfirst⟩
  rw [tokens, rowTokens_glyphs, Report.ok_andThen, merge, mergeWords_digits _ hof]
  simp only [hmerge]
  rfl

/-- **Numerals.**  Reading the numerals of tokens side by side replaces each maximal run of digits and points by
its segments, the longest with at most one point first, keeps every other token in its place, and gives
nothing else.  A row of digits with at most one point, which is not the point alone, is one operand. -/
theorem mergeNumerals_greedy (value : String → Option Number) (hts : Consecutive ts) :
    (∀ found us, Replaced isNumeric (FirstNumeral value) ts found us ↔ mergeNumerals value ts = (found, us)) ∧
      ∀ (o : Options) (i : Nat) (cs : List Char), (∀ c ∈ cs, isNumeric c) → cs.count '.' ≤ 1 →
        (∃ c ∈ cs, Text.isAsciiDigit c) →
        ∃ found node, tokens { o with number := value } i (cs.map .glyph) =
            ⟨found, .ok [.operand node false (.ofWidth i cs.length)]⟩ ∧
          FirstNumeral value (placed i cs) [] found (.operand node false (.ofWidth i cs.length)) := by
  constructor
  · intro found us
    exact (merging_mergeNumerals value).replaced_iff hts
  · intro o i cs hof hcount hdigit
    exact tokens_digits { o with number := value } i hof hcount hdigit

/-- Three numerals and two points, of which one numeral has no value; and a row of a digit and a point. -/
theorem mergeNumerals_greedy_of_points :
    let value : String → Option Number := fun s => if s = ".3" then none else some (.int 8)
    let ts : List Token := [.glyph '1' (.ofWidth 2 1), .glyph '.' (.ofWidth 3 1), .glyph '2' (.ofWidth 4 1),
      .glyph '.' (.ofWidth 5 1), .glyph '3' (.ofWidth 6 1), .glyph '.' (.ofWidth 7 1), .glyph '.' (.ofWidth 8 1),
      .glyph '+' (.ofWidth 9 1), .glyph '4' (.ofWidth 10 1)]
    let found : List Diagnostic := [⟨.invalidNumber 2, .ofWidth 5 2⟩]
    let us : List Token := [.operand (numberIn (.int 8) (.ofWidth 2 3)) false (.ofWidth 2 3),
      .operand (.error (.ofWidth 5 2)) false (.ofWidth 5 2), .glyph '.' (.ofWidth 7 1), .glyph '.' (.ofWidth 8 1),
      .glyph '+' (.ofWidth 9 1), .operand (numberIn (.int 8) (.ofWidth 10 1)) false (.ofWidth 10 1)]
    Consecutive ts ∧ mergeNumerals value ts = (found, us) ∧ Replaced isNumeric (FirstNumeral value) ts found us ∧
      ∃ found node, tokens { number := value } 0 [.glyph '7', .glyph '.'] =
        ⟨found, .ok [.operand node false (.ofWidth 0 2)]⟩ := by
  intro value ts found us
  have hts : Consecutive ts := by decide
  have hmerge : mergeNumerals value ts = (found, us) := by decide +kernel
  obtain ⟨hreplaced, hrow⟩ := mergeNumerals_greedy value hts
  have hof : ∀ c ∈ ['7', '.'], isNumeric c = true := List.forall_mem_cons.2 ⟨rfl, List.forall_mem_singleton.2 rfl⟩
  obtain ⟨complaints, node, htokens, -⟩ := hrow {} 0 ['7', '.'] hof (by decide) ⟨'7', List.mem_cons_self, rfl⟩
  exact ⟨hts, hmerge, (hreplaced found us).2 hmerge, complaints, node, htokens⟩

end PlanarMath.Token
