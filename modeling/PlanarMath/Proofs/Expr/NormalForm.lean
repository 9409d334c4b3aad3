import PlanarMath.Proofs.Display.Regular
import PlanarMath.Proofs.Expr.WellFormed

/-!
# Normal forms of expressions

The shapes that renderers and converters rely on.  Sums hold no sums and products no products, signs are
folded into numbers, and inverses are written of names alone, where something is called.

    (Add (Add a b) c)      is not in normal form      (Add a b c)      is
    (Neg 5)                is not                     -5               is
    (Add (Inv sin) 1)      is not                     ((Inv sin) 1)    is

Nodes are looked at one at a time (`inForm`).  What stands below a node may be anything but an inverse, the
target of a call aside; so the node at the top must not be one either.
-/

namespace PlanarMath

namespace Expr

/-- The inverse of something. -/
def isInverse : Expr → Bool
  | unary .inverse .. => true
  | _ => false

/-- A name. -/
def isSymbol : Expr → Bool
  | symbol .. => true
  | _ => false

/-- What may be called: a name, or the inverse of one. -/
def isTarget : Expr → Bool
  | symbol .. => true
  | unary .inverse arg _ _ => arg.isSymbol
  | _ => false

/-- An operand that an operator may have: no inverse, and nothing that should have been spliced. -/
def fitsUnder (op : BinaryOp) (a : Expr) : Bool := !a.isInverse && !(op.isVariadic && a.isUnder op)

/-- The shape of a node in normal form, that of its parts aside. -/
def inForm : Expr → Bool
  | number .. | symbol .. | error _ => true
  | unary .negate arg _ _ => !arg.isInverse && !arg.isNumber
  | unary .factorial arg _ _ => !arg.isInverse
  | unary .inverse arg _ _ => arg.isSymbol
  | binary op args _ _ => op.allows args.length && args.all (fitsUnder op)
  | tuple items _ => !items.isEmpty && items.all (!·.isInverse)
  | call target args _ _ => target.isTarget && !args.isEmpty && args.all (!·.isInverse)

/-- All nodes have the shapes of the normal form, and the node at the top is no inverse. -/
def IsNormal (e : Expr) : Prop := e.isInverse = false ∧ ∀ n ∈ e.walk, n.inForm

instance (e : Expr) : Decidable e.IsNormal :=
  inferInstanceAs (Decidable (e.isInverse = false ∧ ∀ n ∈ e.walk, n.inForm))

/-! ## Node by node -/

variable {args : List Expr} {r s : Option Range}

theorem isNormal_number (v : Number) : (number v r).IsNormal := by
  simp [IsNormal, walk_number, isInverse, inForm]

theorem isNormal_symbol (name : String) : (symbol name r).IsNormal := by
  simp [IsNormal, walk_symbol, isInverse, inForm]

theorem isNormal_error : (error r).IsNormal := by
  simp [IsNormal, walk_error, isInverse, inForm]

theorem isNormal_unary {op : UnaryOp} {arg : Expr} :
    (unary op arg r s).IsNormal ↔
      op ≠ .inverse ∧ (op = .negate → arg.isNumber = false) ∧ arg.IsNormal := by
  unfold IsNormal
  rw [forall_walk_unary]
  cases op <;> simp [isInverse, inForm, and_assoc, and_left_comm]

/-- Expressions are in normal form when none is an inverse and all of their nodes have the shapes. -/
theorem forall_isNormal {es : List Expr} :
    (∀ e ∈ es, e.IsNormal) ↔ (∀ e ∈ es, e.isInverse = false) ∧ ∀ e ∈ es, ∀ n ∈ e.walk, n.inForm :=
  ⟨fun h => ⟨fun e he => (h e he).1, fun e he => (h e he).2⟩, fun h e he => ⟨h.1 e he, h.2 e he⟩⟩

theorem inForm_binary {op : BinaryOp} :
    (binary op args r s).inForm ↔ op.allows args.length ∧
      (op.isVariadic → ∀ a ∈ args, a.isUnder op = false) ∧ ∀ a ∈ args, a.isInverse = false := by
  show (op.allows args.length && args.all (fitsUnder op)) = true ↔ _
  cases hv : op.isVariadic <;> simp [fitsUnder, hv, forall_and, and_comm]

theorem inForm_tuple : (tuple args r).inForm ↔ args ≠ [] ∧ ∀ a ∈ args, a.isInverse = false := by
  show (!args.isEmpty && args.all (!·.isInverse)) = true ↔ _
  simp

theorem isNormal_binary {op : BinaryOp} :
    (binary op args r s).IsNormal ↔ op.allows args.length ∧
      (op.isVariadic → ∀ a ∈ args, a.isUnder op = false) ∧ ∀ a ∈ args, a.IsNormal := by
  rw [forall_isNormal]
  unfold IsNormal
  rw [forall_walk_binary, inForm_binary, and_assoc, and_assoc]
  exact and_iff_right rfl

theorem isNormal_tuple : (tuple args r).IsNormal ↔ args ≠ [] ∧ ∀ a ∈ args, a.IsNormal := by
  rw [forall_isNormal]
  unfold IsNormal
  rw [forall_walk_tuple, inForm_tuple, and_assoc]
  exact and_iff_right rfl

/-- What may be called has nodes in the shapes of the normal form. -/
theorem forall_walk_isTarget {target : Expr} (h : target.isTarget) : ∀ n ∈ target.walk, n.inForm := by
  cases target with
  | symbol name r => exact (isNormal_symbol name).2
  | unary op arg r s =>
    cases op with
    | inverse =>
      cases arg with
      | symbol name r => exact forall_walk_unary.2 ⟨rfl, (isNormal_symbol name).2⟩
      | _ => cases h
    | _ => cases h
  | _ => cases h

theorem isNormal_call {target : Expr} :
    (call target args s r).IsNormal ↔ target.isTarget ∧ (tuple args s).IsNormal := by
  unfold IsNormal
  rw [forall_walk_call]
  constructor
  · rintro ⟨-, hn, -, ha⟩
    simp only [inForm, Bool.and_eq_true] at hn
    exact ⟨hn.1.1, rfl, ha⟩
  · rintro ⟨ht, -, ha⟩
    refine ⟨rfl, ?_, forall_walk_isTarget ht, ha⟩
    have hargs := ha _ (mem_walk_self _)
    simp only [inForm, Bool.and_eq_true] at hargs ⊢
    exact ⟨⟨ht, hargs.1⟩, hargs.2⟩

/-- What an expression in normal form contributes to a sum or a product: one operand at least, all in
normal form and none under the same operator. -/
theorem IsNormal.operandsUnder {e : Expr} {op : BinaryOp} (h : e.IsNormal) (hop : op.isVariadic) :
    1 ≤ (e.operandsUnder op).length ∧
      ∀ a ∈ e.operandsUnder op, a.isUnder op = false ∧ a.IsNormal := by
  unfold Expr.operandsUnder
  split
  · next op' args r s =>
    by_cases heq : op' = op
    · subst heq
      rw [if_pos rfl]
      obtain ⟨hallows, hspliced, hargs⟩ := isNormal_binary.1 h
      simp only [BinaryOp.allows, Bool.and_eq_true, decide_eq_true_eq] at hallows
      exact ⟨by omega, fun a ha => ⟨hspliced hop a ha, hargs a ha⟩⟩
    · rw [if_neg heq]
      exact ⟨Nat.le_refl _, List.forall_mem_singleton.2 ⟨by simpa [isUnder] using heq, h⟩⟩
  · next hne =>
    refine ⟨Nat.le_refl _, List.forall_mem_singleton.2 ⟨?_, h⟩⟩
    cases e with
    | binary op' args r s => exact absurd rfl (hne op' args r s)
    | _ => rfl

theorem IsNormal.arguments {e : Expr} (h : e.IsNormal) :
    e.arguments ≠ [] ∧ ∀ a ∈ e.arguments, a.IsNormal := by
  unfold Expr.arguments
  split
  · exact isNormal_tuple.1 h
  · exact ⟨List.cons_ne_nil _ _, List.forall_mem_singleton.2 h⟩

end Expr

namespace Placed

open PlanarMath.Expr

/-- An expression in normal form in its place. -/
def IsNormal (e : Placed) : Prop := e.expr.IsNormal

/-- A name in its place. -/
def IsSymbol (e : Placed) : Prop := e.expr.isSymbol

variable {l r e name target args : Placed}

theorem IsNormal.join {op : BinaryOp} (hop : op = .add ∨ op = .multiply) (hl : l.IsNormal)
    (hr : r.IsNormal) (sign? : Option Range) : (l.join op r sign?).IsNormal := by
  have hv : op.isVariadic := by rcases hop with rfl | rfl <;> rfl
  obtain ⟨hl, hls⟩ := Expr.IsNormal.operandsUnder hl hv
  obtain ⟨hr, hrs⟩ := Expr.IsNormal.operandsUnder hr hv
  have hall := List.forall_mem_append.2 ⟨hls, hrs⟩
  refine isNormal_binary.2 ⟨?_, fun _ a ha => (hall a ha).1, fun a ha => (hall a ha).2⟩
  rw [List.length_append]
  exact BinaryOp.allows_add hop hl hr

/-- An operator that is neither a sum nor a product takes two operands as they are. -/
theorem isNormal_pair {op : BinaryOp} (hop : op.isVariadic = false) {a b : Expr} (ha : a.IsNormal)
    (hb : b.IsNormal) (r s : Option Range) : (Expr.binary op [a, b] r s).IsNormal := by
  refine isNormal_binary.2 ⟨by cases op <;> rfl, ?_, ?_⟩
  · intro hv
    rw [hop] at hv
    cases hv
  · exact List.forall_mem_cons.2 ⟨ha, List.forall_mem_singleton.2 hb⟩

theorem IsNormal.negate (h : e.IsNormal) (minus : Range) : (e.negate minus).IsNormal := by
  show (e.expr.negation _ _).IsNormal
  unfold negation
  split
  · exact isNormal_number _
  · next hne =>
    refine isNormal_unary.2 ⟨by decide, fun _ => ?_, h⟩
    cases he : e.expr with
    | number v r => exact absurd he (hne v r)
    | _ => rfl

theorem IsNormal.factorial (h : e.IsNormal) (sign : Range) : (e.factorial sign).IsNormal :=
  isNormal_unary.2 ⟨by decide, fun hn => absurd hn (by decide), h⟩

/-- A name and its inverse may be called. -/
theorem IsSymbol.isTarget (h : name.IsSymbol) : name.expr.isTarget := by
  unfold IsSymbol at h
  cases he : name.expr with
  | symbol s r => rfl
  | _ => rw [he] at h; cases h

theorem IsSymbol.isTarget_inverse (h : name.IsSymbol) (named raised : Range) :
    (name.inverse named raised).expr.isTarget := h

theorem IsNormal.apply (ht : target.expr.isTarget) (ha : args.IsNormal) : (target.apply args).IsNormal := by
  unfold IsNormal
  rw [apply_expr]
  exact isNormal_call.2 ⟨ht, isNormal_tuple.2 (Expr.IsNormal.arguments ha)⟩

end Placed

end PlanarMath
