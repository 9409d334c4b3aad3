import PlanarMath.Token.Words

/-!
# Longest words

The longest word of a function table that a text starts with, said in terms of looking up alone: going
down from the whole text, the first of its beginnings that the table knows (`knownPrefix?`).  The scan of
the text gives the same (`longestWord?_eq_knownPrefix?`), for as far as it has read it always has the longest
known beginning (`scan_eq_knownUpTo?`).

    table: sin, sinh      s i n h x      after 3: sin      after 4: sinh      after 5: sinh
-/

namespace PlanarMath

namespace FunctionTable

/-- The longest beginning of a text, of at most so many characters but at least one, that a table knows,
as its length and canonical name. -/
def knownUpTo? (t : FunctionTable) (cs : List Char) : Nat → Option (Nat × String)
  | 0 => none
  | n + 1 =>
    match t.lookup (String.ofList (cs.take (n + 1))) with
    | some name => some (n + 1, name)
    | none => knownUpTo? t cs n

/-- The longest beginning of a text that a table knows. -/
def knownPrefix? (t : FunctionTable) (cs : List Char) : Option (Nat × String) := t.knownUpTo? cs cs.length

variable {t : FunctionTable} {cs : List Char} {n : Nat}

theorem knownUpTo?_eq_none (h : ∀ k, k < n → t.lookup (String.ofList (cs.take (k + 1))) = none) :
    t.knownUpTo? cs n = none := by
  induction n with
  | zero => rfl
  | succ n ih =>
    rw [knownUpTo?, h n (Nat.lt_succ_self n)]
    exact ih fun k hk => h k (Nat.lt_succ_of_lt hk)

theorem knownUpTo?_eq_some {m : Nat} {name : String} (hm : m < n)
    (hl : t.lookup (String.ofList (cs.take (m + 1))) = some name)
    (h : ∀ k, m < k → k < n → t.lookup (String.ofList (cs.take (k + 1))) = none) :
    t.knownUpTo? cs n = some (m + 1, name) := by
  induction n with
  | zero => omega
  | succ n ih =>
    rw [knownUpTo?]
    by_cases hmn : m = n
    · subst hmn
      rw [hl]
    · rw [h n (by omega) (Nat.lt_succ_self n)]
      exact ih (by omega) fun k hk hkn => h k hk (Nat.lt_succ_of_lt hkn)

theorem lookup_take_zero (t : FunctionTable) (cs : List Char) : t.lookup (String.ofList (cs.take 0)) = none :=
  t.lookup_empty

theorem longest_of_knownUpTo? {m : Nat} {name : String} (h : t.knownUpTo? cs n = some (m, name)) :
    m ≤ n ∧ t.lookup (String.ofList (cs.take m)) = some name ∧
      ∀ k, m < k → k ≤ n → t.lookup (String.ofList (cs.take k)) = none := by
  induction n with
  | zero => cases h
  | succ n ih =>
    rw [knownUpTo?] at h
    split at h
    · next hsome =>
      cases h
      exact ⟨Nat.le_refl _, hsome, fun k hk hkn => by omega⟩
    · next hnone =>
      obtain ⟨hle, hl, hlonger⟩ := ih h
      refine ⟨by omega, hl, fun k hk hkn => ?_⟩
      obtain rfl | hkn := Nat.eq_or_lt_of_le hkn
      · exact hnone
      · exact hlonger k hk (Nat.le_of_lt_succ hkn)

/-- A beginning is the longest known one if the table knows it and none that is longer. -/
theorem knownPrefix?_eq_some {name : String} (hn : n ≤ cs.length)
    (hl : t.lookup (String.ofList (cs.take n)) = some name)
    (hlonger : ∀ k, n < k → k ≤ cs.length → t.lookup (String.ofList (cs.take k)) = none) :
    t.knownPrefix? cs = some (n, name) := by
  cases n with
  | zero =>
    rw [lookup_take_zero] at hl
    cases hl
  | succ n =>
    exact knownUpTo?_eq_some (by omega) hl fun k hk hkn => hlonger (k + 1) (by omega) hkn

/-- What a scan keeps: of a text, as far as it is read, it knows the longest known beginning. -/
theorem scan_eq_knownUpTo? (t : FunctionTable) (text cs : List Char) :
    scan t.bySurface text (t.knownUpTo? (text ++ cs) text.length) cs = t.knownPrefix? (text ++ cs) := by
  induction cs generalizing text with
  | nil => rw [List.append_nil, scan, knownPrefix?]
  | cons c cs ih =>
    have htext : text ++ c :: cs = text ++ [c] ++ cs := by simp
    have htake : (text ++ [c] ++ cs).take (text.length + 1) = text ++ [c] := List.take_left' (by simp)
    have hlength : (text ++ [c]).length = text.length + 1 := by simp
    have hstep := ih (text ++ [c])
    rw [hlength, knownUpTo?, htake, WordTable.lookup] at hstep
    rw [scan, htext]
    cases hl : t.bySurface.lookup (String.ofList (text ++ [c])) with
    | none =>
      rw [hl] at hstep
      exact hstep
    | some e =>
      rw [hl] at hstep
      simp only [hlength]
      exact hstep

/-- **Longest words** are the longest known beginnings. -/
theorem longestWord?_eq_knownPrefix? (t : FunctionTable) (cs : List Char) :
    t.longestWord? cs = t.knownPrefix? cs := scan_eq_knownUpTo? t [] cs

/-- A word that a text starts with, under its canonical name. -/
theorem longestWord?_eq_some {name : String} (h : t.longestWord? cs = some (n, name)) :
    0 < n ∧ n ≤ cs.length ∧ t.lookup (String.ofList (cs.take n)) = some name := by
  rw [longestWord?_eq_knownPrefix?] at h
  obtain ⟨hle, hl, -⟩ := longest_of_knownUpTo? h
  refine ⟨Nat.pos_of_ne_zero ?_, hle, hl⟩
  rintro rfl
  rw [lookup_take_zero] at hl
  cases hl

end FunctionTable

/-- The first name of a run of letters, by looking up alone. -/
theorem Token.Word.first_eq (table : FunctionTable) (c : Char) (cs : List Char) :
    Word.first table c cs = match table.knownPrefix? (c :: cs) with
      | some (length, name) => ⟨length, name, true⟩
      | none => ⟨1, c.toString, false⟩ := by
  have h := FunctionTable.longestWord?_eq_knownPrefix? table (c :: cs)
  unfold Word.first
  cases hk : table.knownPrefix? (c :: cs) with
  | none => simp only [h, hk]
  | some p => simp only [h, hk]

end PlanarMath
