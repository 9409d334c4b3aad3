import Mathlib.Data.List.Chain
import PlanarMath.Proofs.Grammar.Calls
import PlanarMath.Proofs.Grammar.Lookahead

/-!
# Progress of the readers

A reader moves over the marks of a row, the tokens and the end of the input behind them.  At mark `n` the
tokens `ts.drop n` are ahead.  The mark never goes back and never past the end of the input, whoever calls
whom; who succeeds leaves it further on; and there is an end to the calls, since a call has fewer tokens
than its caller or comes later in a fixed order of the readers.

    2 ! + 3      an expression from mark 0, above the level of sums, ends at mark 2: the + does not go on
    2 + * 3      an expression from mark 0 halts at mark 2, the *
-/

namespace PlanarMath.Grammar

/-- How a reader that starts at mark `n` of a row leaves the marks: it halts at `n` or further on, or it has
read something and stands behind `n`, at tokens that it does not go on with. -/
inductive Leaves {α : Type} (ts : List Token) (n : Nat) (done : List Token → Prop) :
    Except Halt (α × List Token) → Prop
  | halted {m h} : n ≤ m → m ≤ ts.length → h.rest = ts.drop m → Leaves ts n done (.error h)
  | read {m a} : n < m → m ≤ ts.length → done (ts.drop m) → Leaves ts n done (.ok (a, ts.drop m))

section
variable {stop : Range} {level : Int} {ts us used : List Token} {n : Nat}

/-- The last tokens of those from a mark on are the tokens from a later mark on. -/
theorem drop_eq_append (hn : n ≤ ts.length) (h : ts.drop n = used ++ us) :
    n + used.length ≤ ts.length ∧ us = ts.drop (n + used.length) := by
  have hlen := congrArg List.length h
  simp only [List.length_drop, List.length_append] at hlen
  refine ⟨by omega, ?_⟩
  rw [← List.drop_drop, h, List.drop_left]

/-- A reader that looks no further than it has to only moves forward. -/
theorem Exact.leaves {α : Type} {f : List Token → Except Halt (α × List Token)} {done : List Token → Prop}
    (hf : Exact stop f (ts.drop n)) (hn : n ≤ ts.length)
    (hread : ∀ a us, f (ts.drop n) = .ok (a, us) → us.length < (ts.drop n).length ∧ done us) :
    Leaves ts n done (f (ts.drop n)) := by
  cases hres : f (ts.drop n) with
  | ok p =>
    obtain ⟨a, us⟩ := p
    obtain ⟨hlt, hdone⟩ := hread a us hres
    obtain ⟨used, hus, -⟩ := hf.read a us hres
    obtain ⟨hm, rfl⟩ := drop_eq_append hn hus
    simp only [List.length_drop] at hlt
    exact .read (by omega) hm hdone
  | error h =>
    obtain ⟨used, rest, hrest, hs⟩ := hf.stops h hres
    have hstops := hs.stopsAt
    cases hstops with
    | unexpected =>
      obtain ⟨hm, hdrop⟩ := drop_eq_append hn hrest
      exact .halted (by omega) hm hdrop
    | exponent x raised rest =>
      -- the superscript has been taken
      obtain ⟨hm, hdrop⟩ := drop_eq_append hn (hrest.trans (List.append_cons used _ rest))
      exact .halted (by omega) hm hdrop

/-- An expression ends where nothing goes on with it. -/
theorem leaves_expression (hn : n ≤ ts.length) :
    Leaves ts n (goesOnWith level · = false) (expression stop level (ts.drop n)).view :=
  (exact_expression stop level (ts.drop n)).leaves hn fun _ _ h =>
    ⟨length_lt_of_view h, (expression_derives h).2⟩

/-- A suffix takes a token at least. -/
theorem leaves_suffix (hn : n ≤ ts.length) :
    Leaves ts n (fun _ => True) (suffix stop (ts.drop n)).view :=
  ((readsExactly stop _).suffix (Nat.lt_succ_self _)).leaves hn fun _ _ h => ⟨length_lt_of_view h, trivial⟩

/-- Wherever calls lead, they lead to a later mark. -/
theorem CallsFrom.exists_mark {r s : Reader} (hn : n ≤ ts.length)
    (h : CallsFrom stop r (ts.drop n) s us) : ∃ k, n ≤ k ∧ k ≤ ts.length ∧ us = ts.drop k := by
  induction h with
  | itself => exact ⟨n, Nat.le_refl n, hn, rfl⟩
  | step _ hc ih =>
    obtain ⟨k, hnk, hk, rfl⟩ := ih
    obtain ⟨used, hused⟩ := hc.exists_used
    obtain ⟨hm, hdrop⟩ := drop_eq_append hk hused
    exact ⟨k + used.length, by omega, hm, hdrop⟩

/-- A suffix is called where there is a token. -/
theorem CallsFrom.suffix_ne_nil (h : CallsFrom stop (.expression level) ts .suffix us) : us ≠ [] := by
  cases h with
  | step _ hc => exact hc.suffix_ne_nil

/-- Calls of one another are no more than the tokens and the readers allow. -/
theorem length_le_of_isChain {calls : List (Reader × List Token)}
    (hc : calls.IsChain fun a b => Calls stop a.1 a.2 b.1 b.2) {r : Reader}
    (hr : calls.head? = some (r, ts)) : calls.length ≤ 5 * ts.length + r.rank + 1 := by
  induction calls generalizing r ts with
  | nil => cases hr
  | cons c calls ih =>
    obtain rfl : c = (r, ts) := Option.some.inj hr
    cases calls with
    | nil => simp
    | cons next calls =>
      have hlt : 5 * next.2.length + next.1.rank < 5 * ts.length + r.rank :=
        (List.isChain_cons_cons.1 hc).1.rank_lt
      have := ih (List.isChain_cons_cons.1 hc).2 rfl
      rw [List.length_cons]
      omega

end

/-- **Progress.**  An expression, read at any level from any mark of any row, ends after finitely many calls,
each at a mark that is not before that of its caller and not past the end of the input.  If it is read, the
mark has moved and is at something that does not go on at that level.  A suffix is only called before the
end of the input, and moves the mark if it is read. -/
theorem expression_progress (stop : Range) (level : Int) {ts : List Token} {n : Nat} (hn : n ≤ ts.length) :
    Leaves ts n (goesOnWith level · = false) (expression stop level (ts.drop n)).view ∧
    (∀ calls : List (Reader × List Token), (calls.IsChain fun a b => Calls stop a.1 a.2 b.1 b.2) →
      calls.head? = some (.expression level, ts.drop n) → calls.length ≤ 5 * (ts.length - n) + 2) ∧
    ∀ r us, CallsFrom stop (.expression level) (ts.drop n) r us →
      ∃ k, n ≤ k ∧ k ≤ ts.length ∧ us = ts.drop k ∧
        (r = .suffix → k < ts.length ∧ Leaves ts k (fun _ => True) (suffix stop us).view) := by
  refine ⟨leaves_expression hn, ?_, ?_⟩
  · intro calls hc hr
    have := length_le_of_isChain hc hr
    simpa only [List.length_drop, Reader.rank] using this
  · intro r us h
    obtain ⟨k, hnk, hk, rfl⟩ := h.exists_mark hn
    refine ⟨k, hnk, hk, rfl, ?_⟩
    rintro rfl
    have hne := h.suffix_ne_nil
    rw [Ne, List.drop_eq_nil_iff, Nat.not_le] at hne
    exact ⟨hne, leaves_suffix hk⟩

/-- Of the tokens of `0 ! + 0` an expression above the level of sums takes two. -/
theorem expression_progress_of_factorial :
    let ts : List Token := [filler, .glyph '!' (.ofWidth 1 1), .glyph '+' (.ofWidth 2 1), filler]
    let read := (expression (.ofWidth 4 0) sumLevel (ts.drop 0)).view
    0 ≤ ts.length ∧ read = .ok ((Suffix.factorial (.ofWidth 1 1)).apply zero, ts.drop 2) ∧
      Leaves ts 0 (goesOnWith sumLevel · = false) read ∧
      ∀ r us, CallsFrom (.ofWidth 4 0) (.expression sumLevel) (ts.drop 0) r us → ∃ k ≤ 4, us = ts.drop k := by
  intro ts
  obtain ⟨hleaves, -, hcalls⟩ := expression_progress (.ofWidth 4 0) sumLevel (Nat.zero_le ts.length)
  refine ⟨Nat.zero_le _, by cbv, hleaves, fun r us h => ?_⟩
  obtain ⟨k, -, hk, hus, -⟩ := hcalls r us h
  exact ⟨k, hk, hus⟩

end PlanarMath.Grammar
