import PlanarMath.Proofs.Expr.Walk

/-!
# Well-formed expressions

An expression is well-formed when each of its nodes keeps the rules of its record, and carries a range.
All constructions of reading keep that, the ones that are checked included: on well-formed operands
joining and negating are never refused.

    name of a symbol            not empty
    operands of a sum, product  two or more
    operands of the others      two
    items, arguments            one or more
-/

namespace PlanarMath

/-- Sums and products may have the operands of two sides, each of which gives one at least. -/
theorem BinaryOp.allows_add {op : BinaryOp} (hop : op = .add ∨ op = .multiply) {m n : Nat} (hm : 1 ≤ m)
    (hn : 1 ≤ n) : op.allows (m + n) := by
  have htwo : 2 ≤ m + n := by omega
  rcases hop with rfl | rfl <;> simp [allows, isVariadic, htwo]

namespace Expr

/-- The rules of the record of an expression, those of its parts aside: a symbol has a name, a sum and a product
have two operands at least, every other operator has two, and groups and argument lists are not empty. -/
def keepsRules : Expr → Bool
  | symbol name _ => name != ""
  | binary .add args _ _ | binary .multiply args _ _ => 2 ≤ args.length
  | binary _ args _ _ => args.length = 2
  | tuple items _ => !items.isEmpty
  | call _ args _ _ => !args.isEmpty
  | _ => true

/-- The rule about operands is the one that records are checked by. -/
theorem keepsRules_binary (op : BinaryOp) (args : List Expr) (r s : Option Range) :
    (binary op args r s).keepsRules = op.allows args.length := by
  have htwo : ∀ n : Nat, decide (n = 2) = (decide (2 ≤ n) && n == 2) := fun n => by
    by_cases h : n = 2 <;> simp [h]
  cases op with
  | add | multiply => simp [keepsRules, BinaryOp.allows, BinaryOp.isVariadic]
  | _ => simpa [keepsRules, BinaryOp.allows, BinaryOp.isVariadic] using htwo args.length

/-- All nodes keep the rules of their records, and carry a range. -/
def WellFormed (e : Expr) : Prop := ∀ n ∈ e.walk, n.keepsRules ∧ n.range?.isSome

/-! ## Node by node -/

variable {args : List Expr} {r s : Option Range}

theorem wellFormed_number (v : Number) (range : Range) : (number v (some range)).WellFormed := by
  simp [WellFormed, walk_number, keepsRules, Expr.range?]

theorem wellFormed_symbol {name : String} (h : name ≠ "") (range : Range) :
    (symbol name (some range)).WellFormed := by
  simp [WellFormed, walk_symbol, keepsRules, Expr.range?, h]

theorem wellFormed_error (range : Range) : (error (some range)).WellFormed := by
  simp [WellFormed, walk_error, keepsRules, Expr.range?]

theorem wellFormed_unary {op : UnaryOp} {arg : Expr} :
    (unary op arg r s).WellFormed ↔ r.isSome ∧ arg.WellFormed := by
  unfold WellFormed
  rw [forall_walk_unary]
  simp [keepsRules, Expr.range?]

theorem wellFormed_binary {op : BinaryOp} :
    (binary op args r s).WellFormed ↔
      op.allows args.length ∧ r.isSome ∧ ∀ e ∈ args, e.WellFormed := by
  unfold WellFormed
  rw [forall_walk_binary, keepsRules_binary, and_assoc]
  rfl

theorem wellFormed_tuple : (tuple args r).WellFormed ↔ args ≠ [] ∧ r.isSome ∧ ∀ e ∈ args, e.WellFormed := by
  unfold WellFormed
  rw [forall_walk_tuple, and_assoc]
  simp [keepsRules, Expr.range?]

theorem wellFormed_call {target : Expr} :
    (call target args s r).WellFormed ↔
      r.isSome ∧ target.WellFormed ∧ (tuple args s).WellFormed := by
  have hrules : (tuple args s).WellFormed → (call target args s r).keepsRules := by
    intro h
    simpa [keepsRules] using (wellFormed_tuple.1 h).1
  unfold WellFormed at hrules ⊢
  rw [forall_walk_call]
  constructor
  · rintro ⟨⟨-, hr⟩, ht, ha⟩
    exact ⟨hr, ht, ha⟩
  · rintro ⟨hr, ht, ha⟩
    exact ⟨⟨hrules ha, hr⟩, ht, ha⟩

/-- What an expression contributes to an operator is well-formed, and there is something. -/
theorem WellFormed.operandsUnder {e : Expr} (h : e.WellFormed) (op : BinaryOp) :
    (∀ a ∈ e.operandsUnder op, a.WellFormed) ∧ 1 ≤ (e.operandsUnder op).length := by
  rcases e.operandsUnder_cases op with ho | ⟨args, r, s, rfl, ho⟩
  · rw [ho]
    exact ⟨List.forall_mem_singleton.2 h, Nat.le_refl _⟩
  · rw [ho]
    obtain ⟨hallows, -, hargs⟩ := wellFormed_binary.1 h
    simp only [BinaryOp.allows, Bool.and_eq_true, decide_eq_true_eq] at hallows
    exact ⟨hargs, by omega⟩

theorem WellFormed.arguments {e : Expr} (h : e.WellFormed) :
    e.arguments ≠ [] ∧ ∀ a ∈ e.arguments, a.WellFormed := by
  unfold Expr.arguments
  split
  · obtain ⟨hne, -, hargs⟩ := wellFormed_tuple.1 h
    exact ⟨hne, hargs⟩
  · exact ⟨List.cons_ne_nil _ _, List.forall_mem_singleton.2 h⟩

end Expr

namespace Placed

open PlanarMath.Expr

/-- A well-formed expression in its place. -/
def WellFormed (e : Placed) : Prop := e.expr.WellFormed

variable {l r e name args : Placed}

theorem allows_join {op : BinaryOp} (hop : op = .add ∨ op = .multiply) (hl : l.WellFormed)
    (hr : r.WellFormed) : op.allows (l.expr.operandsUnder op ++ r.expr.operandsUnder op).length := by
  rw [List.length_append]
  exact BinaryOp.allows_add hop (Expr.WellFormed.operandsUnder hl op).2
    (Expr.WellFormed.operandsUnder hr op).2

theorem WellFormed.join {op : BinaryOp} (hop : op = .add ∨ op = .multiply) (hl : l.WellFormed)
    (hr : r.WellFormed) (sign? : Option Range) : (l.join op r sign?).WellFormed :=
  wellFormed_binary.2 ⟨allows_join hop hl hr, rfl, List.forall_mem_append.2
    ⟨(Expr.WellFormed.operandsUnder hl op).1, (Expr.WellFormed.operandsUnder hr op).1⟩⟩

theorem WellFormed.pair (op : BinaryOp) (hl : l.WellFormed) (hr : r.WellFormed) (sign : Range) :
    (l.pair op r sign).WellFormed := by
  refine wellFormed_binary.2 ⟨by cases op <;> rfl, rfl, ?_⟩
  exact List.forall_mem_cons.2 ⟨hl, List.forall_mem_singleton.2 hr⟩

theorem WellFormed.power (hl : l.WellFormed) (hr : r.WellFormed) (raised : Range) :
    (l.power r raised).WellFormed := by
  refine wellFormed_binary.2 ⟨rfl, rfl, ?_⟩
  exact List.forall_mem_cons.2 ⟨hl, List.forall_mem_singleton.2 hr⟩

theorem WellFormed.negate (h : e.WellFormed) (minus : Range) : (e.negate minus).WellFormed := by
  show (e.expr.negation _ _).WellFormed
  unfold negation
  split
  · exact wellFormed_number _ _
  · exact wellFormed_unary.2 ⟨rfl, h⟩

theorem WellFormed.factorial (h : e.WellFormed) (sign : Range) : (e.factorial sign).WellFormed :=
  wellFormed_unary.2 ⟨rfl, h⟩

theorem WellFormed.inverse (h : name.WellFormed) (named raised : Range) :
    (name.inverse named raised).WellFormed := wellFormed_unary.2 ⟨rfl, h⟩

theorem WellFormed.apply (hn : name.WellFormed) (ha : args.WellFormed) : (name.apply args).WellFormed := by
  unfold WellFormed
  obtain ⟨hne, hargs⟩ := Expr.WellFormed.arguments ha
  rw [apply_expr]
  exact wellFormed_call.2 ⟨rfl, hn, wellFormed_tuple.2 ⟨hne, rfl, hargs⟩⟩

theorem placed?_expr (e : Placed) : e.expr.placed? = some e := by
  obtain ⟨expr, range, h⟩ := e
  unfold placed?
  split
  · next r hr =>
    obtain rfl : r = range := by simpa [hr] using h
    rfl
  · next hr => rw [hr] at h; cases h

/-- Joining well-formed expressions is not refused. -/
theorem join?_eq_ok {op : BinaryOp} (hop : op = .add ∨ op = .multiply) (hl : l.WellFormed)
    (hr : r.WellFormed) (sign? : Option Range) :
    join? op l.expr r.expr sign? = .ok (l.join op r sign?).expr := by
  unfold join?
  rw [placed?_expr, placed?_expr]
  exact if_pos (allows_join hop hl hr)

/-- Negating an expression in its place is not refused. -/
theorem negate?_eq_ok (e : Placed) (minus : Range) : negate? minus e.expr = .ok (e.negate minus).expr := by
  unfold negate?
  rw [placed?_expr]

end Placed

end PlanarMath
