import PlanarMath.Proofs.Token.Replaced
import PlanarMath.Proofs.Token.Respaced

/-!
# The longest name first

How a run of letters is read as names, said in terms of looking up alone.  At each place the longest beginning
of the rest of the run that the table knows is the name of a function; where the table knows no beginning, the
first letter is a symbol (`FirstName`).

    table: sin, sinh      s i n h x   →   sinh (function), x

Reading the names of some tokens replaces every maximal run of letters in this way and keeps all other tokens
(`mergeWords_greedy`).
-/

namespace PlanarMath

namespace Token

variable {table : FunctionTable} {word rest run : List (Char × Range)} {ts us : List Token}

/-! ## The first name of a run -/

/-- The first name of a run of letters: the longest beginning that the table knows, or else the first letter. -/
inductive FirstName (table : FunctionTable) : First
  | known {word rest name range} : table.lookup (textOf word) = some name →
      (∀ longer, longer <+: word ++ rest → word.length < longer.length →
        table.lookup (textOf longer) = none) →
      Spans word range → FirstName table word rest [] (.operand (symbolIn name range) true range)
  | letter {c range rest} :
      (∀ word, word <+: (c, range) :: rest → table.lookup (textOf word) = none) →
      FirstName table [(c, range)] rest [] (.operand (symbolIn c.toString range) false range)

/-- The text of a beginning of a run is the beginning of the text. -/
theorem textOf_eq_take (h : word <+: run) : textOf word = String.ofList ((run.map (·.1)).take word.length) := by
  obtain ⟨rest, rfl⟩ := h
  rw [textOf, List.map_append, List.take_left' (List.length_map _)]

theorem textOf_take (run : List (Char × Range)) (n : Nat) :
    textOf (run.take n) = String.ofList ((run.map (·.1)).take n) := by
  rw [textOf, List.map_take]

/-- The first name of a run, by looking up alone, is the word that reading finds there. -/
theorem FirstName.exists_word {found : List Diagnostic} {t : Token} (ht : table.HasNames)
    (hword : Adjacent (word.map (·.2))) (h : FirstName table word rest found t) :
    ∃ c r others name function, word = (c, r) :: others ∧ found = [] ∧ name ≠ "" ∧
      Word.first table c ((others ++ rest).map (·.1)) = ⟨others.length + 1, name, function⟩ ∧
      t = .operand (symbolIn name (spanOf r others)) function (spanOf r others) := by
  cases h with
  | @known _ _ name range hl hlonger hspans =>
    match word with
    | [] => exact absurd (table.lookup_empty.symm.trans hl) nofun
    | (c, r) :: others =>
      have hknown : table.knownPrefix? (c :: (others ++ rest).map (·.1)) = some (others.length + 1, name) := by
        refine FunctionTable.knownPrefix?_eq_some (n := others.length + 1) ?_ ?_ fun k hk hle => ?_
        · simp
        · exact textOf_eq_take (List.prefix_append ((c, r) :: others) rest) ▸ hl
        · have hlen : (((c, r) :: others ++ rest).take k).length = k := by
            rw [List.length_take]
            simp only [List.length_cons, List.length_append, List.length_map] at hle ⊢
            omega
          have hunknown := hlonger _ (List.take_prefix k _) (by rw [hlen]; exact hk)
          rwa [textOf_take] at hunknown
      have hname : name ≠ "" := Names.ne_empty ht (.function hl)
      obtain rfl : range = spanOf r others := hspans.unique (spans_spanOf hword)
      exact ⟨c, r, others, name, true, rfl, rfl, hname, by rw [Word.first_eq, hknown], rfl⟩
  | @letter c range _ hnone =>
    have hunknown : table.knownPrefix? (c :: rest.map (·.1)) = none := by
      refine FunctionTable.knownUpTo?_eq_none fun k _ => ?_
      have hbeginning := hnone _ (List.take_prefix (k + 1) _)
      rwa [textOf_take] at hbeginning
    have hrange : spanOf range [] = range := by simp [spanOf, Range.span]
    refine ⟨c, range, [], c.toString, false, rfl, rfl, by simp, ?_, by rw [hrange]⟩
    rw [List.nil_append, Word.first_eq, hunknown]
    rfl

end Token

end PlanarMath
