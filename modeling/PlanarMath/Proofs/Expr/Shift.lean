import PlanarMath.Proofs.Expr.Relabel

/-!
# Expressions further on

An expression that is read `k` indices further on has all its ranges `k` indices further on, those of the
signs and of the arguments of calls included.  Moving on is a relabelling of ranges, so no construction of
expressions depends on where it stands.

    2 + x  in 0..5, the sign in 2..3        shift 4        2 + x  in 4..9, the sign in 6..7
-/

namespace PlanarMath

namespace Range

/-- The range `k` indices further on. -/
def shift (k : Nat) (r : Range) : Range :=
  ⟨r.start + k, r.stop + k, Nat.add_le_add_right r.start_le_stop k⟩

theorem shift_span (k : Nat) (a b : Range) : (a.span b).shift k = (a.shift k).span (b.shift k) := by
  simp only [shift, span, mk.injEq]
  omega

theorem shift_ofWidth (k i width : Nat) : (ofWidth i width).shift k = ofWidth (i + k) width := by
  have hstop : i + width + k = i + k + width := by omega
  simp only [shift, ofWidth, hstop]

end Range

/-- All ranges `k` indices further on. -/
def Relabelling.shift (k : Nat) : Relabelling :=
  .ofRange (Range.shift k) (Range.shift_span k) fun r => Range.shift_ofWidth k r.stop 0

namespace Expr

mutual

/-- The expression `k` indices further on. -/
def shift (k : Nat) : Expr → Expr
  | number v r => number v (r.map (Range.shift k))
  | symbol name r => symbol name (r.map (Range.shift k))
  | unary op arg r sign => unary op (shift k arg) (r.map (Range.shift k)) (sign.map (Range.shift k))
  | binary op args r sign => binary op (shiftAll k args) (r.map (Range.shift k)) (sign.map (Range.shift k))
  | tuple items r => tuple (shiftAll k items) (r.map (Range.shift k))
  | call target args argsRange r =>
    call (shift k target) (shiftAll k args) (argsRange.map (Range.shift k)) (r.map (Range.shift k))
  | error r => error (r.map (Range.shift k))

/-- Expressions `k` indices further on. -/
def shiftAll (k : Nat) : List Expr → List Expr
  | [] => []
  | e :: es => shift k e :: shiftAll k es

end

mutual

theorem shift_eq_relabel (k : Nat) : ∀ e : Expr, e.shift k = e.relabel (.shift k)
  | number v r | symbol v r | error r => rfl
  | unary op arg r sign => by
    rw [shift, shift_eq_relabel k arg]
    rfl
  | binary op args r sign => by
    rw [shift, shiftAll_eq_relabelAll k args]
    rfl
  | tuple items r => by
    rw [shift, shiftAll_eq_relabelAll k items]
    rfl
  | call target args argsRange r => by
    rw [shift, shift_eq_relabel k target, shiftAll_eq_relabelAll k args]
    rfl

theorem shiftAll_eq_relabelAll (k : Nat) : ∀ es : List Expr, shiftAll k es = relabelAll (.shift k) es
  | [] => rfl
  | e :: es => by rw [shiftAll, shift_eq_relabel k e, shiftAll_eq_relabelAll k es, relabelAll]

end

end Expr

namespace Placed

/-- The expression with its range `k` indices further on. -/
def shift (k : Nat) (e : Placed) : Placed where
  expr := e.expr.shift k
  range := e.range.shift k
  range?_expr := by rw [Expr.shift_eq_relabel, Expr.range?_relabel, e.range?_expr]; rfl

theorem shift_eq_relabel (k : Nat) : shift k = relabel (.shift k) := by
  funext e
  exact eq_of_expr (e.expr.shift_eq_relabel k)

theorem shift_pair (k : Nat) (op : BinaryOp) (left right : Placed) (sign : Range) :
    (left.pair op right sign).shift k = (left.shift k).pair op (right.shift k) (sign.shift k) := by
  rw [shift_eq_relabel, relabel_pair]
  rfl

end Placed

end PlanarMath
