import Mathlib
import PlanarMath.Proofs.Expr.NormalForm
import PlanarMath.Proofs.Reading.Kept
import PlanarMath.Proofs.Reading.Total

/-!
# What is read is in normal form

Every rule of the grammar and every construct of a layout gives an expression in normal form when its parts
are.  The names of functions are not read as expressions: they come into a tree as the target of a call
only, alone or as an inverse, and so inverses are nowhere else.
-/

namespace PlanarMath.Reading

open Grammar Layout Placed

/-- The constructions of the grammar keep expressions in normal form. -/
theorem kept_isNormal_grammar : Grammar.Kept (Token.Holds IsSymbol Placed.IsNormal) Placed.IsNormal where
  operand node range h := h
  group node function range h ht := by
    cases function with
    | false => exact h
    | true =>
      have hname : node.expr.isSymbol := h
      cases he : node.expr with
      | symbol s r => rw [he] at ht; cases ht
      | _ => rw [he] at hname; cases hname
  call name named args hn ha := ha.apply hn.isTarget
  inverseCall name named raised args hn ha := ha.apply (hn.isTarget_inverse named raised)
  join op l r sign? hop hl hr := hl.join hop hr sign?
  pair op l r sign hop hl hr := by
    refine isNormal_pair ?_ hl hr _ _
    rcases hop with rfl | hop
    · rfl
    · exact Expr.isVariadic_of_isRelation hop
  negate e sign h := h.negate sign
  power e exponent raised hx h := isNormal_pair rfl h hx _ _
  factorial e sign h := h.factorial sign

/-- All constructions of reading do. -/
theorem kept_isNormal (o : Options) : Kept o IsSymbol Placed.IsNormal where
  toKept := kept_isNormal_grammar
  function run s range _ _ := rfl
  letter c range _ := Expr.isNormal_symbol _
  number run v range _ _ := Expr.isNormal_number v
  error range := Expr.isNormal_error
  enclosed frame s range inner _ hinner := Expr.isNormal_call.2 ⟨rfl, Expr.isNormal_tuple.2
    ⟨List.cons_ne_nil _ _, List.forall_mem_singleton.2 hinner⟩⟩
  tuple range items hne hitems := by
    refine Expr.isNormal_tuple.2 ⟨by simpa using hne, ?_⟩
    intro e he
    obtain ⟨x, hx, rfl⟩ := List.mem_map.1 he
    exact hitems x hx

/-- **Normal form.**  Under a table whose functions have names, every layout is read as an expression in
normal form, whatever the limit, the reader of numbers, and the complaints. -/
theorem readLayout_isNormal {o : Options} (ho : o.functions.HasNames) (row : Row) :
    ∃ found e, readLayout o row = ⟨found, .ok e⟩ ∧ e.expr.IsNormal := by
  obtain ⟨found, e, h⟩ := exists_of_isOk (readLayout_isOk ho row)
  exact ⟨found, e, h, (kept_isNormal o).readLayout h⟩

/-- A sum from which a sum in brackets is taken, one of a number that is subtracted and of the inverse of a
function. -/
theorem readLayout_isNormal_of_difference :
    let row : Row := [.framed .brackets [.glyph 'a', .glyph '+', .glyph 'b'], .glyph '-', .glyph '5',
      .glyph '-', .glyph 's', .glyph 'i', .glyph 'n', .framed .superscript [.glyph '-', .glyph '1'],
      .glyph 'x']
    FunctionTable.standard.HasNames ∧ ∃ e args r s, readLayout {} row = .ok e ∧
      e.expr = .binary .add args r s ∧ args.length = 4 ∧ e.expr.IsNormal := by
  intro row
  have hnames := FunctionTable.hasNames_standard
  let inverse : Expr := .unary .inverse (.symbol "sin" (some (.ofWidth 8 3))) (some (.ofWidth 8 7)) none
  let call : Expr := .call inverse [.symbol "x" (some (.ofWidth 15 1))] (some (.ofWidth 15 1))
    (some (.ofWidth 8 8))
  let args : List Expr := [.symbol "a" (some (.ofWidth 1 1)), .symbol "b" (some (.ofWidth 3 1)),
    .number (.int (-5)) (some (.ofWidth 5 2)), .unary .negate call (some (.ofWidth 7 9)) (some (.ofWidth 7 1))]
  have hrow : readLayout {} row =
      .ok ⟨.binary .add args (some (.ofWidth 1 15)) (some (.ofWidth 7 1)), .ofWidth 1 15, rfl⟩ := by cbv
  obtain ⟨found, e, h, hnormal⟩ := readLayout_isNormal (o := {}) hnames row
  rw [hrow] at h
  cases h
  exact ⟨hnames, _, args, _, _, hrow, rfl, rfl, hnormal⟩

end PlanarMath.Reading
