import Mathlib
import PlanarMath.Proofs.Expr.Geometry
import PlanarMath.Proofs.Reading.Complaints
import PlanarMath.Proofs.Reading.Located

/-!
# The geometry of what is read

Every expression of a layout lies between the indices of what it was read from, with all its nodes, and
the nodes lie to one another as `Spaced` says.  So the tree of a layout is ordered as the layout is: a
range is the span of its operands, powers aside, which have the range of their superscript.

    a row from b on         nodes and complaints in [b, b + width]
    a group from b on       nodes and complaints in [b - 1, b + width + 1]
-/

namespace PlanarMath

open PlanarMath.Expr Grammar Layout

/-- An expression is raised in the range of a superscript that stands in a layout and is read as it. -/
def Layout.Row.Raises (o : Options) (base : Nat) (r : Row) (exponent : Expr) (range : Range) : Prop :=
  ∃ i body node, r.Stands base i (.framed .superscript body) ∧
    range = .ofWidth i (Element.framed .superscript body).width ∧
    Reading.ReadAs o i (.framed .superscript body) (.superscript node range) ∧ node.expr = exponent

namespace Reading

open Placed

/-- Expressions from intervals one after another lie one behind the other. -/
theorem arranged_of_spread {raised : Expr → Range → Prop} {i j : Nat} {es : List Placed}
    (h : Spread (fun i j e => Arranged raised i j e.expr) i es j) :
    (es.map (·.expr)).Pairwise Before ∧ ∀ e ∈ es.map (·.expr), Arranged raised i j e := by
  induction es generalizing i with
  | nil => exact ⟨.nil, List.forall_mem_nil _⟩
  | cons e es ih =>
    obtain ⟨k, he, hes⟩ := h
    obtain ⟨hbefore, hall⟩ := ih hes
    have hkj : k ≤ j := hes.le fun _ _ _ h => h.le
    refine ⟨List.pairwise_cons.2 ⟨fun b hb => he.liesIn.before (hall b hb).liesIn, hbefore⟩, ?_⟩
    refine List.forall_mem_cons.2 ⟨he.mono (Nat.le_refl i) hkj, fun b hb => ?_⟩
    exact (hall b hb).mono he.le (Nat.le_refl j)

/-- Neither quotients nor relations are powers. -/
theorem ne_exponent_of_isRelation {op : BinaryOp} (h : op = .divide ∨ op.isRelation) : op ≠ .exponent := by
  rintro rfl
  rcases h with h | h <;> cases h

/-- All constructions of reading keep expressions arranged. -/
theorem located_arranged (o : Options) (base : Nat) (r : Row) :
    Located o base r fun i j e => Arranged (r.Raises o base) i j e.expr where
  mono i i' j j' e hi hj h := h.mono hi hj
  operand node function range h := h
  inverse name named exponent raised _ h hr := arranged_inverse h hr
  call i k j target args ht ha := arranged_apply ht ha
  join i k j op l r sign? hop _ hl hr := by
    have hne : op ≠ .exponent := by rcases hop with rfl | rfl <;> decide
    exact arranged_join hne hl hr sign?
  pair i k j op l r c sign hop _ _ hl hr := arranged_pair (ne_exponent_of_isRelation hop) hl hr sign
  negate i j e c sign _ _ hs h := arranged_negate hs h
  power i j e exponent raised hx h hj := by
    obtain ⟨hexponent, k, body, hstands, hrange, hread⟩ := hx
    exact h.power hj hexponent ⟨k, body, exponent, hstands, hrange, hread, rfl⟩
  factorial i j e c sign _ _ h hs := arranged_factorial h hs
  name run s function range _ _ _ := arranged_symbol s (Nat.le_refl _) (Nat.le_refl _)
  number run v range _ _ _ := arranged_number v (Nat.le_refl _) (Nat.le_refl _)
  error range := arranged_error (Nat.le_refl _) (Nat.le_refl _)
  fraction i above below num den _ hnum hden :=
    arranged_pair (by decide) (hnum.mono (Nat.le_refl _) (by omega)) hden _
  enclosed i frame body s inner _ _ h := by
    obtain ⟨hi, hj⟩ := arranged_bounds h
    have hin : (Range.ofWidth i (Row.width body + 2)).contains inner.range := by
      rw [Range.contains_iff]
      simp only [Range.ofWidth]
      omega
    have hinner := h.mono (Nat.le_succ i) (show i + 1 + Row.width body ≤ i + Row.width body + 2 by omega)
    have hname : Arranged (r.Raises o base) i (i + (Row.width body + 2))
        (.symbol s (some (.ofWidth i (Row.width body + 2)))) :=
      arranged_symbol s (Nat.le_refl _) (Nat.le_refl _)
    exact hname.call (hinner.alone inner.range?_expr) ⟨_, rfl, Range.contains_self _⟩ hin (Nat.le_refl _)
      (Nat.le_refl _)
  tuple i j items range _ h hi hj := by
    obtain ⟨hbefore, hall⟩ := arranged_of_spread h
    refine arranged_tuple hbefore (fun e he => (hall e he).mono hi hj) ?_ ⟨Nat.le_refl _, Nat.le_refl _⟩
    intro e he
    obtain ⟨s, hs, hstart, hstop⟩ := ((hall e he).mono hi hj).liesIn
    exact ⟨s, hs, Range.contains_iff.2 ⟨hstart, hstop⟩⟩

end Reading

/-- **Geometry.**  Under a table whose functions have names, every layout is read as an expression in which
each node lies well to those directly below it: operands and items in order, an operator in the span of its
first and its last operand, a power in the range of the superscript that was read as its exponent, and every
node around the nodes below it, the base of a power aside. -/
theorem readLayout_spaced {o : Options} (ho : o.functions.HasNames) (row : Row) :
    ∃ found e, readLayout o row = ⟨found, .ok e⟩ ∧ ∀ n ∈ e.expr.walk, n.Spaced (row.Raises o 0) := by
  obtain ⟨found, e, h⟩ := Reading.exists_of_isOk (readLayout_isOk ho row)
  have harranged := (Reading.located_arranged o 0 row).expression h
  exact ⟨found, e, h, fun n hn => (harranged n hn).2⟩

/-- A sum of a power and a sum in brackets, which becomes one sum of three. -/
theorem readLayout_spaced_of_sum :
    let row : Row := [.glyph 'x', .framed .superscript [.glyph '2'], .glyph '+',
      .framed .brackets [.glyph 'y', .glyph '+', .glyph 'z']]
    FunctionTable.standard.HasNames ∧ ∃ e args, readLayout {} row = .ok e ∧ args.length = 3 ∧
      e.expr = .binary .add args (some (.ofWidth 1 8)) (some (.ofWidth 4 1)) ∧
      ∀ n ∈ e.expr.walk, n.Spaced (row.Raises {} 0) := by
  intro row
  have hnames := FunctionTable.hasNames_standard
  let square : Expr := .binary .exponent [.symbol "x" (some (.ofWidth 0 1)),
    .number (.int 2) (some (.ofWidth 2 1))] (some (.ofWidth 1 3)) none
  let args : List Expr := [square, .symbol "y" (some (.ofWidth 6 1)), .symbol "z" (some (.ofWidth 8 1))]
  have hrow : readLayout {} row =
      .ok ⟨.binary .add args (some (.ofWidth 1 8)) (some (.ofWidth 4 1)), .ofWidth 1 8, rfl⟩ := by cbv
  obtain ⟨found, e, h, hspaced⟩ := readLayout_spaced (o := {}) hnames row
  rw [hrow] at h
  cases h
  exact ⟨hnames, _, args, hrow, rfl, rfl, hspaced⟩

namespace Reading

/-- **Bounds.**  Whatever is read from a row that starts at an index lies between that index and the end of
the row, nodes and complaints; from a group also on the indices of the glyphs around it. -/
theorem reading_inside {o : Options} (ho : o.functions.HasNames) (row : Row) (b : Nat) :
    (∃ found e, expressionAt o b row = ⟨found, .ok e⟩ ∧
      (∀ n ∈ e.expr.walk, n.LiesIn b (b + Row.width row)) ∧ Inside (.ofWidth b (Row.width row)) found) ∧
    (1 ≤ b → ∃ found e, groupAt o b row = ⟨found, .ok e⟩ ∧
      (∀ n ∈ e.expr.walk, n.LiesIn (b - 1) (b + Row.width row + 1)) ∧
      Inside (.ofWidth (b - 1) (Row.width row + 2)) found) := by
  constructor
  · obtain ⟨found, e, h⟩ := exists_of_isOk (expressionAt_isOk ho b row)
    have hexpr := h
    rw [expressionAt_natural] at hexpr
    have harranged := (located_arranged o b row).expression hexpr
    exact ⟨found, e, h, fun n hn => (harranged n hn).1, ((closed_matched o).rowExpression hexpr).2⟩
  · intro hb
    obtain ⟨i, rfl⟩ : ∃ i, b = i + 1 := ⟨b - 1, by omega⟩
    obtain ⟨found, e, h⟩ := exists_of_isOk (groupAt_isOk ho i row)
    have hgroup := h
    rw [groupAt_natural] at hgroup
    have harranged := (located_arranged o (i + 1) row).group hgroup
    have hend : i + (Row.width row + 2) = i + 1 + Row.width row + 1 := by omega
    rw [hend] at harranged
    exact ⟨found, e, h, fun n hn => (harranged n hn).1, ((closed_matched o).anchored.rowGroup hgroup).2⟩

/-- A sign alone, as an expression and as a group. -/
theorem reading_inside_of_sign :
    FunctionTable.standard.HasNames ∧ 1 ≤ 3 ∧
      (∃ found e, expressionAt {} (3 : Nat) [.glyph '*'] = ⟨found, .ok e⟩ ∧
        (∀ n ∈ e.expr.walk, n.LiesIn 3 4) ∧ Inside (.ofWidth 3 1) found ∧ found.length = 1) ∧
      ∃ found e, groupAt {} (3 : Nat) [.glyph '*'] = ⟨found, .ok e⟩ ∧
        (∀ n ∈ e.expr.walk, n.LiesIn 2 5) ∧ Inside (.ofWidth 2 3) found ∧ e.range = .ofWidth 2 3 := by
  have hnames := FunctionTable.hasNames_standard
  have hb : 1 ≤ 3 := by decide
  obtain ⟨⟨found, e, h, hin, hfound⟩, hgroup⟩ := reading_inside (o := {}) hnames [.glyph '*'] 3
  obtain ⟨found', e', h', hin', hfound'⟩ := hgroup hb
  have hrow : expressionAt {} (3 : Nat) [.glyph '*'] =
      ⟨[⟨.unexpected (.codePoint "*"), .ofWidth 3 1⟩], .ok (.error (.ofWidth 3 1))⟩ := by cbv
  have hrow' : groupAt {} (3 : Nat) [.glyph '*'] =
      ⟨[⟨.unexpected (.codePoint "*"), .ofWidth 3 1⟩], .ok (.error (.ofWidth 2 3))⟩ := by cbv
  have hfirst := h
  have hsecond := h'
  rw [hrow] at hfirst
  rw [hrow'] at hsecond
  cases hfirst
  cases hsecond
  exact ⟨hnames, hb, ⟨_, _, h, hin, hfound, rfl⟩, ⟨_, _, h', hin', hfound', rfl⟩⟩

end Reading

end PlanarMath
