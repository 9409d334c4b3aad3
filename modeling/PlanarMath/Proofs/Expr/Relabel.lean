import PlanarMath.Expr.Combine
import PlanarMath.Grammar.Level

/-!
# Relabelled expressions

A relabelling writes other ranges and other glyphs in place of those of a layout, in such a way that reading
cannot tell: the span of two ranges goes to the span of what they go to, a glyph goes to one of the same
meaning, and one without a meaning of its own stays.  No construction of expressions looks at a range, so each
gives, for what is relabelled, what it gives before, relabelled.

    shift 4      2 + x  in 0..5     to     2 + x  in 4..9
    collapse     2 + x  in 0..5     to     2 + x  in 0..0
-/

namespace PlanarMath

/-- Other ranges and glyphs that mean the same to the grammar. -/
structure Relabelling where
  range : Range → Range
  glyph : Char → Char
  range_span : ∀ a b, range (a.span b) = (range a).span (range b)
  /-- The end of a range goes to the end of the range it goes to. -/
  range_end : ∀ r : Range, range (.ofWidth r.stop 0) = .ofWidth (range r).stop 0
  roleOf_glyph : ∀ c, Grammar.roleOf (glyph c) = Grammar.roleOf c
  glyph_of_plain : ∀ c, Grammar.roleOf c = .plain → glyph c = c

/-- Other ranges, and the same glyphs. -/
def Relabelling.ofRange (range : Range → Range)
    (hspan : ∀ a b, range (a.span b) = (range a).span (range b))
    (hend : ∀ r : Range, range (.ofWidth r.stop 0) = .ofWidth (range r).stop 0) : Relabelling where
  range := range
  glyph := id
  range_span := hspan
  range_end := hend
  roleOf_glyph _ := rfl
  glyph_of_plain _ _ := rfl

variable (ρ : Relabelling)

namespace Expr

mutual

/-- The expression with other ranges. -/
def relabel (ρ : Relabelling) : Expr → Expr
  | number v r => number v (r.map ρ.range)
  | symbol name r => symbol name (r.map ρ.range)
  | unary op arg r sign => unary op (relabel ρ arg) (r.map ρ.range) (sign.map ρ.range)
  | binary op args r sign => binary op (relabelAll ρ args) (r.map ρ.range) (sign.map ρ.range)
  | tuple items r => tuple (relabelAll ρ items) (r.map ρ.range)
  | call target args argsRange r =>
    call (relabel ρ target) (relabelAll ρ args) (argsRange.map ρ.range) (r.map ρ.range)
  | error r => error (r.map ρ.range)

/-- Expressions with other ranges. -/
def relabelAll (ρ : Relabelling) : List Expr → List Expr
  | [] => []
  | e :: es => relabel ρ e :: relabelAll ρ es

end

theorem relabelAll_eq_map (es : List Expr) : relabelAll ρ es = es.map (relabel ρ) := by
  induction es with
  | nil => rfl
  | cons e es ih => rw [relabelAll, ih, List.map_cons]

theorem range?_relabel (e : Expr) : (e.relabel ρ).range? = e.range?.map ρ.range := by
  cases e <;> rfl

theorem isTuple_relabel (e : Expr) : (e.relabel ρ).isTuple = e.isTuple := by
  cases e <;> rfl

theorem isMinusOne_relabel (e : Expr) : (e.relabel ρ).isMinusOne = e.isMinusOne := by
  cases e <;> rfl

theorem operandsUnder_relabel (op : BinaryOp) (e : Expr) :
    (e.relabel ρ).operandsUnder op = (e.operandsUnder op).map (relabel ρ) := by
  cases e with
  | binary op' args r sign =>
    simp only [relabel, operandsUnder]
    split
    · exact relabelAll_eq_map ρ args
    · rfl
  | _ => rfl

theorem negation_relabel (whole minus : Range) (e : Expr) :
    (e.negation whole minus).relabel ρ = (e.relabel ρ).negation (ρ.range whole) (ρ.range minus) := by
  cases e <;> rfl

mutual

/-- A relabelling that leaves ranges alone leaves expressions alone. -/
theorem relabel_of_id (h : ∀ r, ρ.range r = r) : ∀ e : Expr, e.relabel ρ = e
  | number v r | symbol v r | error r => by
    simp only [relabel, funext h, Option.map_id']
  | unary op arg r sign => by
    simp only [relabel, funext h, Option.map_id', relabel_of_id h arg]
  | binary op args r sign => by
    simp only [relabel, funext h, Option.map_id', relabelAll_of_id h args]
  | tuple items r => by
    simp only [relabel, funext h, Option.map_id', relabelAll_of_id h items]
  | call target args argsRange r => by
    simp only [relabel, funext h, Option.map_id', relabel_of_id h target, relabelAll_of_id h args]

theorem relabelAll_of_id (h : ∀ r, ρ.range r = r) : ∀ es : List Expr, relabelAll ρ es = es
  | [] => rfl
  | e :: es => by rw [relabelAll, relabel_of_id h e, relabelAll_of_id h es]

end

end Expr

namespace Placed

/-- The range of an expression is told by the expression. -/
theorem eq_of_expr {a b : Placed} (h : a.expr = b.expr) : a = b := by
  obtain ⟨e, r, hr⟩ := a
  obtain ⟨e', r', hr'⟩ := b
  obtain rfl : e = e' := h
  rw [hr] at hr'
  cases hr'
  rfl

/-- The expression with its range, relabelled. -/
def relabel (ρ : Relabelling) (e : Placed) : Placed where
  expr := e.expr.relabel ρ
  range := ρ.range e.range
  range?_expr := by rw [Expr.range?_relabel, e.range?_expr]; rfl

theorem relabel_of_id (h : ∀ r, ρ.range r = r) (e : Placed) : e.relabel ρ = e :=
  eq_of_expr (Expr.relabel_of_id ρ h e.expr)

theorem relabel_negate (minus : Range) (e : Placed) :
    (e.negate minus).relabel ρ = (e.relabel ρ).negate (ρ.range minus) := by
  apply eq_of_expr
  simp only [relabel, negate, Expr.negation_relabel, ρ.range_span]

theorem relabel_join (op : BinaryOp) (left right : Placed) (sign? : Option Range) :
    (left.join op right sign?).relabel ρ = (left.relabel ρ).join op (right.relabel ρ) (sign?.map ρ.range) := by
  apply eq_of_expr
  simp only [relabel, join, Expr.relabel, Expr.relabelAll_eq_map, Expr.operandsUnder_relabel, List.map_append,
    Option.map_some, ρ.range_span]

theorem relabel_pair (op : BinaryOp) (left right : Placed) (sign : Range) :
    (left.pair op right sign).relabel ρ = (left.relabel ρ).pair op (right.relabel ρ) (ρ.range sign) := by
  apply eq_of_expr
  simp only [relabel, pair, Expr.relabel, Expr.relabelAll, Option.map_some, ρ.range_span]

theorem relabel_power (base exponent : Placed) (raised : Range) :
    (base.power exponent raised).relabel ρ =
      (base.relabel ρ).power (exponent.relabel ρ) (ρ.range raised) := rfl

theorem relabel_factorial (e : Placed) (sign : Range) :
    (e.factorial sign).relabel ρ = (e.relabel ρ).factorial (ρ.range sign) := by
  apply eq_of_expr
  simp only [relabel, factorial, Expr.relabel, Option.map_some, Option.map_none, ρ.range_span]

theorem relabel_inverse (name : Placed) (named raised : Range) :
    (name.inverse named raised).relabel ρ = (name.relabel ρ).inverse (ρ.range named) (ρ.range raised) := by
  apply eq_of_expr
  simp only [relabel, inverse, Expr.relabel, Option.map_some, Option.map_none, ρ.range_span]

theorem relabel_apply (target args : Placed) :
    (target.apply args).relabel ρ = (target.relabel ρ).apply (args.relabel ρ) := by
  apply eq_of_expr
  obtain ⟨e, r, hr⟩ := args
  cases e <;>
    simp only [relabel, apply, Expr.relabel, Expr.relabelAll, Option.map_some, ρ.range_span]

end Placed

end PlanarMath
