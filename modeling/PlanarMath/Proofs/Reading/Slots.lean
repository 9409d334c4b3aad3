import PlanarMath.Proofs.Layout.Slots
import PlanarMath.Proofs.Reading.Constructs
import PlanarMath.Proofs.Reading.SourceMap

/-!
# The slots that expressions point to

The slots of a layout take up its indices, one each, and reading counts the indices in the same way: the
bar of a fraction is the slot between its numerator and its denominator, wherever the fraction is nested.
-/

namespace PlanarMath

open Layout

namespace Expr

/-- The sign of a division that has one has a property. -/
def DivideSign (P : Range → Prop) : Expr → Prop
  | binary .divide _ _ (some sign) => P sign
  | _ => True

/-- The divisions in a mapped expression have signs that are spelt, or are bars of fractions. -/
theorem Mapped.divideSign {table : FunctionTable} {base : Nat} {r : Row} {e : Expr} (h : e.Mapped table base r) :
    ∀ n ∈ e.walk, n.DivideSign fun sign => r.Signs base BinaryOp.divide.glyphs sign ∨ r.Bar base sign := by
  induction h with
  | number | symbol | error => exact List.forall_mem_singleton.2 trivial
  | unary _ _ ih => exact forall_walk_unary.2 ⟨trivial, ih⟩
  | @binary op args range? sign? _ hsign ih =>
    refine forall_walk_binary.2 ⟨?_, ih⟩
    unfold DivideSign
    split
    · next sign heq =>
      cases heq
      exact (hsign sign rfl).imp_right And.right
    · trivial
  | tuple _ ih => exact forall_walk_tuple.2 ⟨trivial, ih⟩
  | call _ _ iht iha => exact forall_walk_call.2 ⟨trivial, iht, forall_walk_tuple.2 ⟨trivial, iha⟩⟩
  | applied _ _ ih =>
    exact forall_walk_call.2 ⟨trivial, List.forall_mem_singleton.2 trivial, forall_walk_tuple.2 ⟨trivial, ih⟩⟩

end Expr

/-- The bar of a fraction of a layout is its separator there. -/
theorem Layout.Row.Bar.separator {base : Nat} {r : Row} {range : Range} (h : r.Bar base range) :
    ∃ (path : List Nat) (bar : Nat), range = .ofWidth bar 1 ∧ ⟨path, .separator, bar⟩ ∈ Row.slots [] 0 base r := by
  obtain ⟨i, above, below, hx, rfl⟩ := h
  obtain ⟨path, hall⟩ := hx.slots
  refine ⟨path, i + 1 + Row.width above, rfl, hall _ ?_⟩
  rw [Element.slots, Element.startOf_numerator]
  simp

namespace Reading

variable {o : Options} {level i : Nat} {above below : List Element} {found : List Diagnostic} {t : Token}

/-- A fraction that is not nested too deep is a division whose sign is the separator of the fraction. -/
theorem sign_of_fraction (h : o.isTooDeep level = none)
    (ht : elementToken o level i (.fraction above below) = ⟨found, .ok t⟩) :
    ∃ node num den range bar, t = .operand node false (.ofWidth i (Element.fraction above below).width) ∧
      node.expr = .binary .divide [num, den] range (some (.ofWidth bar 1)) ∧
      ∀ path, ⟨path, .separator, bar⟩ ∈ (Element.fraction above below).slots path i := by
  rw [elementToken_fraction h] at ht
  obtain ⟨first, num, more, -, ht, -⟩ := Report.andThen_eq_ok.1 ht
  obtain ⟨den, -, rfl⟩ := Report.map_eq_ok.1 ht
  refine ⟨_, num.expr, den.expr, _, i + 1 + Row.width above, rfl, rfl, fun path => ?_⟩
  rw [Element.slots, Element.startOf_numerator]
  simp

/-- **Indices.**  The slots of a layout that starts at any integer take up its indices, one each and in
order, and no others.  The containers of an element stand strictly inside it, from one to the next there is
one index, and this index is the sign of the division that a fraction is read as: of every division in what
is read from a layout the sign is a glyph, or the separator of a fraction. -/
theorem indices_partition (r : Row) :
    (∀ b : Int, (Row.slots [] 0 b r).map (·.index) = indices b (Row.width r) ∧
      ∀ i, (Row.slots [] 0 b r).countP (·.index = i) = if b ≤ i ∧ i < b + Row.width r then 1 else 0) ∧
    (∀ x : Element, x.offsets.length = x.containers.length ∧
      ∀ k offset c, (x.offsets.zip x.containers)[k]? = some (offset, c) →
        0 < offset ∧ offset + Row.width c < x.width ∧
        ∀ offset' c', (x.offsets.zip x.containers)[k + 1]? = some (offset', c') →
          offset' = offset + Row.width c + 1) ∧
    (∀ (o : Options) (level i : Nat) above below found t, o.isTooDeep level = none →
      elementToken o level i (.fraction above below) = ⟨found, .ok t⟩ →
      ∃ node num den range bar, t = .operand node false (.ofWidth i (Element.fraction above below).width) ∧
        node.expr = .binary .divide [num, den] range (some (.ofWidth bar 1)) ∧
        ∀ path, ⟨path, .separator, bar⟩ ∈ (Element.fraction above below).slots path i) ∧
    ∀ table limit? base found e,
      expression { functions := table, limit? := limit? } base r = ⟨found, .ok e⟩ →
      ∀ args range? sign, .binary .divide args range? (some sign) ∈ e.expr.walk →
        r.Signs base BinaryOp.divide.glyphs sign ∨
        ∃ (path : List Nat) (bar : Nat), sign = .ofWidth bar 1 ∧ ⟨path, .separator, bar⟩ ∈ Row.slots [] 0 base r := by
  refine ⟨?_, ?_, ?_, ?_⟩
  · intro b
    exact ⟨Row.index_slots [] 0 b r, fun i => Row.countP_index_slots [] 0 b i r⟩
  · intro x
    refine ⟨x.length_offsets, fun k offset c h => ?_⟩
    obtain ⟨hstart, hstop⟩ := x.container_inside h
    exact ⟨hstart, hstop, fun offset' c' h' => x.container_next h h'⟩
  · intro o level i above below found t hdeep ht
    exact sign_of_fraction hdeep ht
  · intro table limit? base found e h args range? sign hn
    have hmapped := ((located_mapped table limit? base r).expression h).mapped
    exact (hmapped.divideSign _ hn).imp_right Row.Bar.separator

/-- A fraction that starts at four, divided by a number. -/
theorem indices_partition_of_quotient :
    let fraction : Element := .fraction [.glyph 'y'] [.glyph '3']
    let row : Row := [fraction, .glyph '/', .glyph '2']
    let bar : Range := .ofWidth 6 1
    (Row.slots [] 0 4 row).countP (·.index = 6) = 1 ∧
    (fraction.offsets.zip fraction.containers)[0]? = some (1, [.glyph 'y']) ∧
    (fraction.offsets.zip fraction.containers)[1]? = some (3, [.glyph '3']) ∧
    3 = 1 + Row.width [.glyph 'y'] + 1 ∧
    (∃ t, elementToken {} 0 4 fraction = ⟨[], .ok t⟩ ∧
      ∃ node num den range bar, t = .operand node false (.ofWidth 4 fraction.width) ∧
        node.expr = .binary .divide [num, den] range (some (.ofWidth bar 1)) ∧
        ∀ path, ⟨path, .separator, bar⟩ ∈ fraction.slots path 4) ∧
    ∃ e args range?, expression {} 4 row = ⟨[], .ok e⟩ ∧ .binary .divide args range? (some bar) ∈ e.expr.walk ∧
      (row.Signs 4 BinaryOp.divide.glyphs bar ∨
        ∃ (path : List Nat) (k : Nat), bar = .ofWidth k 1 ∧ ⟨path, .separator, k⟩ ∈ Row.slots [] 0 4 row) := by
  intro fraction row bar
  let quotient : Placed := ⟨.binary .divide [.symbol "y" (some (.ofWidth 5 1)),
    .number (.int 3) (some (.ofWidth 7 1))] (some (.ofWidth 5 3)) (some bar), .ofWidth 5 3, rfl⟩
  let e : Placed := ⟨.binary .divide [quotient.expr, .number (.int 2) (some (.ofWidth 10 1))]
    (some (.ofWidth 5 6)) (some (.ofWidth 9 1)), .ofWidth 5 6, rfl⟩
  have htoken : elementToken {} 0 4 fraction = ⟨[], .ok (.operand quotient false (.ofWidth 4 5))⟩ := by cbv
  have hrow : expression {} 4 row = ⟨[], .ok e⟩ := by cbv
  have hwalk : quotient.expr ∈ e.expr.walk := by decide
  obtain ⟨hslots, hcontainers, hfraction, hsigns⟩ := indices_partition row
  refine ⟨(hslots 4).2 6, rfl, rfl, ((hcontainers fraction).2 0 1 _ rfl).2.2 3 _ rfl, ?_, ?_⟩
  · exact ⟨_, htoken, hfraction {} 0 4 _ _ _ _ rfl htoken⟩
  · exact ⟨e, _, _, hrow, hwalk, hsigns .standard none 4 [] e hrow _ _ bar hwalk⟩

end Reading

end PlanarMath
