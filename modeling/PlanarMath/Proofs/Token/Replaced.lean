import Mathlib.Data.List.Chain
import PlanarMath.Proofs.Token.Segments

/-!
# Runs cut into segments

What becomes of a list of tokens in which runs are read, said of the runs as a whole.  Characters of one class
that stand side by side form a run; a run is cut from left to right into segments, and each segment becomes one
token.  Every token that is in no run stays where it is.

    first word rest found t          of the run `word ++ rest`, `word` is the first segment and becomes `t`
    Segmented first run found us     the tokens `us` of all segments of `run`, and the complaints about them
    Replaced class first ts found us `us` is `ts` with every maximal run replaced by its segments

A pass over the tokens that reads one segment after another and keeps all else (`Merging`) gives these tokens
and no others (`Merging.replaced_iff`).
-/

namespace PlanarMath.Token

/-! ## Ranges of runs -/

/-- Each range ends where the next one starts. -/
def Adjacent (ranges : List Range) : Prop := ranges.IsChain fun a b => a.stop = b.start

theorem adjacent_cons_cons {a b : Range} {rs : List Range} :
    Adjacent (a :: b :: rs) ↔ a.stop = b.start ∧ Adjacent (b :: rs) := List.isChain_cons_cons

/-- Tokens that stand side by side. -/
def Consecutive (ts : List Token) : Prop := Adjacent (ts.map Token.range)

instance (ts : List Token) : Decidable (Consecutive ts) :=
  inferInstanceAs (Decidable ((ts.map Token.range).IsChain _))

/-- The range of the characters of a run: from the start of the first to the end of the last, and it holds
the indices of each of them and no others. -/
structure Spans (run : List (Char × Range)) (range : Range) : Prop where
  start : run.head?.map (·.2.start) = some range.start
  stop : run.getLast?.map (·.2.stop) = some range.stop
  indices : ∀ i, (range.start ≤ i ∧ i < range.stop) ↔ ∃ p ∈ run, p.2.start ≤ i ∧ i < p.2.stop

theorem Spans.unique {run : List (Char × Range)} {a b : Range} (ha : Spans run a) (hb : Spans run b) : a = b := by
  have hstart : a.start = b.start := Option.some.inj (ha.start.symm.trans hb.start)
  have hstop : a.stop = b.stop := Option.some.inj (ha.stop.symm.trans hb.stop)
  cases a
  cases b
  simp_all

/-- The last range of a run that starts in a given one. -/
def lastOf (r : Range) (others : List (Char × Range)) : Range := (others.getLast?.map (·.2)).getD r

theorem lastOf_cons (r : Range) (q : Char × Range) (others : List (Char × Range)) :
    lastOf r (q :: others) = lastOf q.2 others := by
  rw [lastOf, lastOf, List.getLast?_cons]
  cases others.getLast? <;> rfl

section
variable {c : Char} {r : Range} {others : List (Char × Range)}

/-- The last of some ranges side by side starts and ends no earlier than the first. -/
theorem le_lastOf (h : Adjacent (((c, r) :: others).map (·.2))) :
    r.start ≤ (lastOf r others).start ∧ r.stop ≤ (lastOf r others).stop := by
  induction others generalizing c r with
  | nil => exact ⟨Nat.le_refl _, Nat.le_refl _⟩
  | cons q others ih =>
    simp only [List.map_cons, adjacent_cons_cons] at h
    obtain ⟨hnext, hrest⟩ := h
    have hlast := ih hrest
    have := r.start_le_stop
    have := q.2.start_le_stop
    rw [lastOf_cons]
    omega

/-- The span of a run side by side reaches from its start to its end. -/
theorem spanOf_ends (h : Adjacent (((c, r) :: others).map (·.2))) :
    (spanOf r others).start = r.start ∧ (spanOf r others).stop = (lastOf r others).stop := by
  have hlast := le_lastOf h
  rw [spanOf, ← lastOf]
  simp only [Range.span]
  omega

/-- The span of a run side by side holds the indices of its characters and no others. -/
theorem indices_spanOf (h : Adjacent (((c, r) :: others).map (·.2))) (i : Nat) :
    (r.start ≤ i ∧ i < (lastOf r others).stop) ↔ ∃ p ∈ (c, r) :: others, p.2.start ≤ i ∧ i < p.2.stop := by
  induction others generalizing c r with
  | nil =>
    rw [List.exists_mem_cons_iff]
    simp [lastOf]
  | cons q others ih =>
    simp only [List.map_cons, adjacent_cons_cons] at h
    obtain ⟨hnext, hrest⟩ := h
    have hlast := le_lastOf hrest
    have := r.start_le_stop
    have := q.2.start_le_stop
    rw [List.exists_mem_cons_iff, ← ih hrest, lastOf_cons]
    simp only
    omega

theorem spans_spanOf (h : Adjacent (((c, r) :: others).map (·.2))) :
    Spans ((c, r) :: others) (spanOf r others) := by
  obtain ⟨hstart, hstop⟩ := spanOf_ends h
  refine ⟨by rw [hstart]; rfl, ?_, fun i => ?_⟩
  · rw [hstop, lastOf, List.getLast?_cons]
    cases others.getLast? <;> rfl
  · rw [hstart, hstop]
    exact indices_spanOf h i

end

/-! ## Runs and their segments -/

/-- A character of a class. -/
def isOf (inClass : Char → Bool) : Token → Bool
  | .glyph c _ => inClass c
  | _ => false

/-- A run of characters of a class, side by side. -/
structure IsRun (inClass : Char → Bool) (run : List (Char × Range)) : Prop where
  isOf : ∀ p ∈ run, inClass p.1
  adjacent : Adjacent (run.map (·.2))

/-- What starts a run: a segment with the rest of the run behind it, what there is to complain of, and the
token that the segment becomes. -/
abbrev First := List (Char × Range) → List (Char × Range) → List Diagnostic → Token → Prop

/-- A run that is cut into segments, from left to right. -/
inductive Segmented (first : First) : List (Char × Range) → List Diagnostic → List Token → Prop
  | nil : Segmented first [] [] []
  | segment {word rest found t more us} :
      first word rest found t → Segmented first rest more us →
      Segmented first (word ++ rest) (found ++ more) (t :: us)

/-- Tokens of which each maximal run of characters of a class is cut into segments, while the others stay. -/
inductive Replaced (inClass : Char → Bool) (first : First) : List Token → List Diagnostic → List Token → Prop
  | nil : Replaced inClass first [] [] []
  | other {t ts found us} :
      t.isOf inClass = false → Replaced inClass first ts found us →
      Replaced inClass first (t :: ts) found (t :: us)
  | run {run ts found us more vs} :
      run ≠ [] → (∀ p ∈ run, inClass p.1) → (∀ t ∈ ts.head?, t.isOf inClass = false) →
      Segmented first run found us → Replaced inClass first ts more vs →
      Replaced inClass first (glyphs run ++ ts) (found ++ more) (us ++ vs)

/-- A pass over tokens that reads one segment of a run after another and keeps all else. -/
structure Merging (inClass : Char → Bool) (first : First)
    (merges : List Token → List Diagnostic → List Token → Prop) : Prop where
  nil : merges [] [] []
  other : ∀ t ts found us, t.isOf inClass = false → merges ts found us → merges (t :: ts) found (t :: us)
  segment : ∀ word rest ts found t more us, IsRun inClass (word ++ rest) →
    (∀ u ∈ ts.head?, u.isOf inClass = false) → first word rest found t → merges (glyphs rest ++ ts) more us →
    merges (glyphs (word ++ rest) ++ ts) (found ++ more) (t :: us)
  exists_first : ∀ run, run ≠ [] → IsRun inClass run →
    ∃ word rest found t, run = word ++ rest ∧ word ≠ [] ∧ first word rest found t
  unique : ∀ ts found us more vs, merges ts found us → merges ts more vs → found = more ∧ us = vs

variable {inClass : Char → Bool} {first : First} {merges : List Token → List Diagnostic → List Token → Prop}

theorem glyphs_append (run rest : List (Char × Range)) : glyphs (run ++ rest) = glyphs run ++ glyphs rest :=
  List.map_append

theorem range_glyphs (run : List (Char × Range)) : (glyphs run).map Token.range = run.map (·.2) := by
  rw [glyphs, List.map_map]
  rfl

theorem IsRun.of_append {word rest : List (Char × Range)} (h : IsRun inClass (word ++ rest)) :
    IsRun inClass word ∧ IsRun inClass rest := by
  obtain ⟨hof, hadjacent⟩ := h
  rw [List.forall_mem_append] at hof
  rw [Adjacent, List.map_append] at hadjacent
  exact ⟨⟨hof.1, hadjacent.left_of_append⟩, ⟨hof.2, hadjacent.right_of_append⟩⟩

/-- The run in front of some tokens, which may be empty, and the tokens behind it. -/
theorem exists_run (inClass : Char → Bool) (ts : List Token) :
    ∃ run rest, ts = glyphs run ++ rest ∧ (∀ p ∈ run, inClass p.1) ∧ ∀ t ∈ rest.head?, t.isOf inClass = false := by
  induction ts with
  | nil => exact ⟨[], [], rfl, List.forall_mem_nil _, fun t ht => by cases ht⟩
  | cons t ts ih =>
    cases ht : t.isOf inClass with
    | false => exact ⟨[], t :: ts, rfl, List.forall_mem_nil _, fun u hu => by cases hu; exact ht⟩
    | true =>
      match t with
      | .glyph c r =>
        obtain ⟨run, rest, rfl, hrun, hrest⟩ := ih
        exact ⟨(c, r) :: run, rest, rfl, List.forall_mem_cons.2 ⟨ht, hrun⟩, hrest⟩
      | .operand .. => cases ht
      | .superscript .. => cases ht
      | .subscript .. => cases ht

theorem Consecutive.of_append {run : List (Char × Range)} {ts : List Token} (h : Consecutive (glyphs run ++ ts)) :
    Adjacent (run.map (·.2)) ∧ Consecutive ts := by
  rw [Consecutive, List.map_append, range_glyphs] at h
  exact ⟨h.left_of_append, h.right_of_append⟩

namespace Merging

/-- Every run can be cut into segments. -/
theorem exists_segmented (hm : Merging inClass first merges) {run : List (Char × Range)} (h : IsRun inClass run) :
    ∃ found us, Segmented first run found us := by
  induction hn : run.length using Nat.strongRecOn generalizing run with
  | ind n ih =>
    by_cases hrun : run = []
    · subst hrun
      exact ⟨[], [], .nil⟩
    · obtain ⟨word, rest, found, t, rfl, hword, hfirst⟩ := hm.exists_first run hrun h
      have hlt : rest.length < n := by
        rw [← hn, List.length_append]
        have := List.length_pos_iff.2 hword
        omega
      obtain ⟨more, us, hrest⟩ := ih _ hlt h.of_append.2 rfl
      exact ⟨found ++ more, t :: us, .segment hfirst hrest⟩

/-- Every list of tokens has its runs replaced in some way. -/
theorem exists_replaced (hm : Merging inClass first merges) {ts : List Token} (hts : Consecutive ts) :
    ∃ found us, Replaced inClass first ts found us := by
  induction hn : ts.length using Nat.strongRecOn generalizing ts with
  | ind n ih =>
    obtain ⟨run, rest, rfl, hrun, hrest⟩ := exists_run inClass ts
    obtain ⟨hadjacent, hbehind⟩ := hts.of_append
    by_cases hnil : run = []
    · subst hnil
      match rest with
      | [] => exact ⟨[], [], .nil⟩
      | t :: rest =>
        have hlt : rest.length < n := by
          rw [← hn]
          exact Nat.lt_succ_self _
        obtain ⟨found, us, h⟩ := ih _ hlt hbehind.tail rfl
        exact ⟨found, t :: us, .other (hrest t rfl) h⟩
    · have hlt : rest.length < n := by
        rw [← hn, List.length_append, glyphs, List.length_map]
        have := List.length_pos_iff.2 hnil
        omega
      obtain ⟨found, us, hsegments⟩ := hm.exists_segmented ⟨hrun, hadjacent⟩
      obtain ⟨more, vs, h⟩ := ih _ hlt hbehind rfl
      exact ⟨found ++ more, us ++ vs, .run hnil hrun hrest hsegments h⟩

/-- A pass reads a run segment by segment. -/
theorem of_segmented (hm : Merging inClass first merges) {run : List (Char × Range)} {ts us vs : List Token}
    {found more : List Diagnostic} (h : Segmented first run found us) (hrun : IsRun inClass run)
    (hts : ∀ t ∈ ts.head?, t.isOf inClass = false) (hmore : merges ts more vs) :
    merges (glyphs run ++ ts) (found ++ more) (us ++ vs) := by
  induction h with
  | nil => exact hmore
  | segment hfirst _ ih =>
    rw [List.append_assoc, List.cons_append]
    exact hm.segment _ _ _ _ _ _ _ hrun hts hfirst (ih hrun.of_append.2)

/-- A pass replaces the runs of its tokens. -/
theorem of_replaced (hm : Merging inClass first merges) {ts us : List Token} {found : List Diagnostic}
    (h : Replaced inClass first ts found us) (hts : Consecutive ts) : merges ts found us := by
  induction h with
  | nil => exact hm.nil
  | other ht _ ih => exact hm.other _ _ _ _ ht (ih hts.tail)
  | run _ hof hrest hsegments _ ih =>
    obtain ⟨hadjacent, hbehind⟩ := hts.of_append
    exact hm.of_segmented hsegments ⟨hof, hadjacent⟩ hrest (ih hbehind)

/-- **Replacing runs.**  A pass that reads one segment after another gives the tokens in which every maximal
run is replaced by its segments, and only these. -/
theorem replaced_iff (hm : Merging inClass first merges) {ts us : List Token} {found : List Diagnostic}
    (hts : Consecutive ts) : Replaced inClass first ts found us ↔ merges ts found us := by
  constructor
  · intro h
    exact hm.of_replaced h hts
  · intro h
    obtain ⟨more, vs, hreplaced⟩ := hm.exists_replaced hts
    obtain ⟨rfl, rfl⟩ := hm.unique _ _ _ _ _ h (hm.of_replaced hreplaced hts)
    exact hreplaced

end Merging

end PlanarMath.Token
