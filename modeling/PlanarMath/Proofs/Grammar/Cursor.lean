import Mathlib.Logic.Function.Iterate
import PlanarMath.Cursor
import PlanarMath.Proofs.Grammar.Levels
import PlanarMath.Proofs.Grammar.Progress

/-!
# Cursors and the readers

A cursor over the marks of a row has the tokens ahead that the readers are given.  One step takes the first of them,
and the last step is at the end of the input, where the cursor stays.  So a reader moves the cursor: it leaves it so
many steps further on, and what a reader looks at, or complains of, is what the cursor stands at.

    marks       2   +   *   3   end          ahead of the cursor     * 3
                        ↑                    stands at               *
-/

namespace PlanarMath

open Grammar

namespace Cursor

/-- A cursor over the marks of a row that ends at `stop`, before some of its tokens. -/
def HasAhead (c : Cursor) (stop : Range) (ts : List Token) : Prop := c.marks.drop c.position = Mark.all stop ts

variable {c : Cursor} {stop : Range} {ts us : List Token} {t : Token}

theorem hasAhead_ofMarks? (h : ofMarks? (Mark.all stop ts) = some c) : c.HasAhead stop ts := by
  unfold ofMarks? at h
  split at h
  · cases h
    rfl
  · cases h

/-- A cursor stands at the first token that is ahead, or at the end of the input. -/
theorem current_eq (h : c.HasAhead stop ts) : c.current = Mark.first stop ts := by
  have hdrop := List.drop_eq_getElem_cons c.inside
  rw [HasAhead, hdrop] at h
  cases ts with
  | nil => exact (List.cons.inj h).1
  | cons t ts => exact (List.cons.inj h).1

theorem kind_mark_ne_endOfInput (t : Token) : t.mark.kind ≠ .endOfInput := by
  cases t <;> exact nofun

theorem hasMore_iff (h : c.HasAhead stop ts) : c.hasMore ↔ ts ≠ [] := by
  rw [hasMore, current_eq h, bne_iff_ne]
  cases ts with
  | nil => exact iff_of_false (fun hkind => hkind rfl) (fun hts => hts rfl)
  | cons t ts => exact iff_of_true (kind_mark_ne_endOfInput t) (List.cons_ne_nil t ts)

/-- What is complained of at a cursor is what a reader complains of. -/
theorem complain_eq (h : c.HasAhead stop ts) : c.complain = (unexpected stop ts).diagnostic := by
  rw [complain, current_eq h]
  rfl

/-! ## Steps -/

theorem hasAhead_advance (h : c.HasAhead stop (t :: ts)) : c.advance.HasAhead stop ts := by
  have hlength := congrArg List.length h
  have hbound : c.position + 1 < c.marks.length := by
    simp only [Mark.all, List.length_drop, List.length_append, List.length_map, List.length_cons,
      List.length_nil] at hlength
    omega
  rw [advance, dif_pos hbound, HasAhead]
  have hrest := congrArg List.tail h
  rwa [List.tail_drop] at hrest

/-- A cursor stays at the end of the input. -/
theorem advance_of_nil (h : c.HasAhead stop []) : c.advance = c := by
  have hlength := congrArg List.length h
  refine dif_neg fun hbound => ?_
  simp only [Mark.all, List.length_drop, List.map_nil, List.nil_append, List.length_singleton] at hlength
  omega

/-- A cursor that takes steps leaves the tokens behind, as far as there are any. -/
theorem hasAhead_iterate (h : c.HasAhead stop ts) (k : Nat) : (advance^[k] c).HasAhead stop (ts.drop k) := by
  induction k generalizing c ts with
  | zero => exact h
  | succ k ih =>
    rw [Function.iterate_succ_apply]
    cases ts with
    | nil =>
      rw [advance_of_nil h]
      simpa using ih h
    | cons t ts => exact ih (hasAhead_advance h)

theorem kind_first_eq_codePoint {g : Char} :
    (Mark.first stop ts).kind = .codePoint g.toString ↔ ∃ range rest, ts = .glyph g range :: rest := by
  cases ts with
  | nil => exact iff_of_false nofun nofun
  | cons t rest =>
    cases t with
    | glyph c range =>
      have hkind : (Mark.first stop (.glyph c range :: rest)).kind = .codePoint c.toString := rfl
      have hchar : c.toString = g.toString ↔ c = g :=
        ⟨fun heq => by simpa using congrArg String.toList heq, congrArg Char.toString⟩
      rw [hkind, Mark.Kind.codePoint.injEq, hchar]
      exact ⟨fun heq => ⟨range, rest, by rw [heq]⟩, fun ⟨_, _, heq⟩ => (Token.glyph.inj (List.cons.inj heq).1).1⟩
    | _ => exact iff_of_false nofun nofun

/-- A glyph is taken if it is the first token ahead, and otherwise the cursor stays. -/
theorem eat_cases (h : c.HasAhead stop ts) (g : Char) :
    (∃ range rest, ts = .glyph g range :: rest ∧ (c.eat g.toString).1 ∧ (c.eat g.toString).2.HasAhead stop rest) ∨
    (¬∃ range rest, ts = .glyph g range :: rest) ∧ c.eat g.toString = (false, c) := by
  unfold eat standsAt
  rw [current_eq h]
  by_cases hkind : (Mark.first stop ts).kind = .codePoint g.toString
  · obtain ⟨range, rest, rfl⟩ := kind_first_eq_codePoint.1 hkind
    rw [if_pos (beq_iff_eq.2 hkind)]
    exact .inl ⟨range, rest, rfl, rfl, hasAhead_advance h⟩
  · rw [if_neg (mt beq_iff_eq.1 hkind)]
    exact .inr ⟨mt kind_first_eq_codePoint.2 hkind, rfl⟩

/-! ## Readers -/

/-- How a reader leaves a cursor: where it halts, its rest is ahead so many steps further on; where it has read
something, the cursor has moved, and the tokens ahead are such as the reader does not go on with. -/
theorem exists_steps {α : Type} {done : List Token → Prop} {r : Except Halt (α × List Token)}
    (h : c.HasAhead stop ts) (hr : Leaves ts 0 done r) :
    (∀ halt, r = .error halt → ∃ k ≤ ts.length, (advance^[k] c).HasAhead stop halt.rest) ∧
    ∀ a us, r = .ok (a, us) → ∃ k ≤ ts.length, 0 < k ∧ (advance^[k] c).HasAhead stop us ∧ done us := by
  cases hr with
  | @halted m halt _ hm hrest =>
    refine ⟨?_, nofun⟩
    rintro _ ⟨⟩
    exact ⟨m, hm, hrest ▸ hasAhead_iterate h m⟩
  | @read m a hpos hm hdone =>
    refine ⟨nofun, ?_⟩
    rintro _ _ ⟨⟩
    exact ⟨m, hm, hpos, hasAhead_iterate h m, hdone⟩

/-- **Readers and cursors.**  An expression read at any level from a cursor moves the cursor, to a mark that does not
go on at the level; and if it halts, the cursor is at what was not taken, and at what is complained of unless that is
an exponent. -/
theorem expression_steps (h : c.HasAhead stop ts) (level : Int) :
    (∀ e us, (expression stop level ts).view = .ok (e, us) →
      ∃ k, 0 < k ∧ k ≤ ts.length ∧ (advance^[k] c).HasAhead stop us ∧ goesOnWith level us = false) ∧
    ∀ halt, (expression stop level ts).view = .error halt →
      ∃ k ≤ ts.length, (advance^[k] c).HasAhead stop halt.rest ∧
        (halt.diagnostic = (advance^[k] c).complain ∨ halt.diagnostic.complaint = .ambiguousExponent) := by
  obtain ⟨hhalt, hread⟩ := exists_steps h (leaves_expression (Nat.zero_le ts.length))
  refine ⟨fun e us heq => ?_, fun halt heq => ?_⟩
  · obtain ⟨k, hk, hpos, hahead, hdone⟩ := hread e us heq
    exact ⟨k, hpos, hk, hahead, hdone⟩
  · obtain ⟨k, hk, hahead⟩ := hhalt halt heq
    refine ⟨k, hk, hahead, ?_⟩
    obtain ⟨used, rest, -, hstops⟩ := (exact_expression stop level ts).stops halt heq
    cases hstops.stopsAt with
    | unexpected => exact .inl (complain_eq hahead).symm
    | exponent => exact .inr rfl

/-- Levels compose at a cursor: an expression at a low level is one at a higher level and, from the cursor that this
leaves, the suffixes of the low one. -/
theorem expression_steps_of_le {low high : Int} (hle : low ≤ high) (h : c.HasAhead stop ts) {e : Placed}
    {us : List Token} (hread : (expression stop low ts).view = .ok (e, us)) :
    ∃ k first rest, 0 < k ∧ (expression stop high ts).view = .ok (first, rest) ∧
      (advance^[k] c).HasAhead stop rest ∧ (suffixes stop low first rest).view = .ok (e, us) := by
  rw [expression_compose hle] at hread
  obtain ⟨first, rest, hfirst, hrest⟩ := andThen_eq_ok.1 hread
  obtain ⟨k, hpos, -, hahead, -⟩ := (expression_steps h high).1 first rest hfirst
  exact ⟨k, first, rest, hpos, hfirst, hahead, hrest⟩

end Cursor

end PlanarMath
