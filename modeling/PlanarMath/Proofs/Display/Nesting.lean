import PlanarMath.Proofs.Display.Layers
import PlanarMath.Proofs.Display.Outline

/-!
# Relations nested to the right

Every expression has a sibling with all relations nested to the right, and both have the same formula.  So
formulas do not tell expressions in which a relation has a relation on its left from their siblings, and
the outlines of the two differ.

    (= (= a b) c)      written   a = b = c
    (= a (= b c))      written   a = b = c
-/

namespace PlanarMath.Expr

open Formula

/-! ## The nesting -/

/-- A relation of two things, where a relation on the left gives up its right side. -/
def relate (op : BinaryOp) (r s : Option Range) (right : Expr) : Expr → Expr
  | l@(binary op' [a, b] r' s') =>
    if op'.isRelation then binary op' [a, relate op r s right b] r' s' else binary op [l, right] r s
  | l => binary op [l, right] r s

/-- An operator around operands, nested to the right if it is a relation. -/
def nested (op : BinaryOp) (r s : Option Range) : List Expr → Expr
  | [a, b] => if op.isRelation then relate op r s b a else binary op [a, b] r s
  | args => binary op args r s

mutual

/-- The expression with its relations nested to the right. -/
def nestRight : Expr → Expr
  | unary op arg r s => unary op (nestRight arg) r s
  | binary op args r s => nested op r s (nestRightAll args)
  | tuple items r => tuple (nestRightAll items) r
  | call target args i r => call target (nestRightAll args) i r
  | number v r => number v r
  | symbol name r => symbol name r
  | error r => error r

/-- A list of expressions with their relations nested to the right. -/
def nestRightAll : List Expr → List Expr
  | [] => []
  | e :: es => nestRight e :: nestRightAll es

end

variable {op : BinaryOp} {r s : Option Range}

theorem nestRight_of_isRelation (h : op.isRelation) (a b : Expr) :
    (binary op [a, b] r s).nestRight = relate op r s b.nestRight a.nestRight := by
  show nested op r s [a.nestRight, b.nestRight] = _
  rw [nested, if_pos h]

theorem nestRight_of_not_isRelation (h : op.isRelation = false) (args : List Expr) :
    (binary op args r s).nestRight = binary op (nestRightAll args) r s := by
  show nested op r s (nestRightAll args) = _
  unfold nested
  split
  · next h' => rw [h, if_neg Bool.false_ne_true, h']
  · rfl

theorem nestRightAll_eq_map (es : List Expr) : nestRightAll es = es.map nestRight := by
  induction es with
  | nil => rfl
  | cons e es ih => rw [nestRightAll, List.map_cons, ih]

theorem relate_of_isRelation {op' : BinaryOp} (h : op'.isRelation) (right a b : Expr) (r' s' : Option Range) :
    relate op r s right (binary op' [a, b] r' s') = binary op' [a, relate op r s right b] r' s' := by
  rw [relate, if_pos h]

theorem relate_cases (op : BinaryOp) (r s : Option Range) (right l : Expr) :
    relate op r s right l = binary op [l, right] r s ∨
      ∃ op' a b r' s', op'.isRelation ∧ l = binary op' [a, b] r' s' := by
  by_cases h : ∃ op' a b r' s', op'.isRelation ∧ l = binary op' [a, b] r' s'
  · exact .inr h
  · refine .inl ?_
    unfold relate
    split
    · next op' a b r' s' => rw [if_neg fun hop => h ⟨op', a, b, r', s', hop, rfl⟩]
    · rfl

theorem relate_of_not_isRelation {l : Expr} (h : l.isRelation = false) (right : Expr) :
    relate op r s right l = binary op [l, right] r s := by
  rcases relate_cases op r s right l with he | ⟨op', a, b, r', s', hop, rfl⟩
  · exact he
  · exact absurd hop (by simpa [isRelation] using h)

/-- A relation nested to the right is one of the same operands. -/
theorem relate_eq (h : op.isRelation) (r s : Option Range) (right l : Expr) :
    ∃ op' a b r' s', op'.isRelation ∧ relate op r s right l = binary op' [a, b] r' s' := by
  rcases relate_cases op r s right l with he | ⟨op', a, b, r', s', hop, rfl⟩
  · exact ⟨op, l, right, r, s, h, he⟩
  · exact ⟨op', a, _, r', s', hop, relate_of_isRelation hop right a b r' s'⟩

/-! ## Formulas of siblings -/

/-- Expressions with the same formula, alone and in every place. -/
structure Alike (e f : Expr) : Prop where
  display : e.display = f.display
  term : displayTerms [e] = displayTerms [f]
  isAtomic : e.isAtomic = f.isAtomic
  isSum : e.isSum = f.isSum
  isRelation : e.isRelation = f.isRelation

theorem Alike.refl (e : Expr) : e.Alike e := ⟨rfl, rfl, rfl, rfl, rfl⟩

theorem Alike.trans {e f g : Expr} (h : e.Alike f) (h' : f.Alike g) : e.Alike g where
  display := h.display.trans h'.display
  term := h.term.trans h'.term
  isAtomic := h.isAtomic.trans h'.isAtomic
  isSum := h.isSum.trans h'.isSum
  isRelation := h.isRelation.trans h'.isRelation

/-- A term of a sum is written without looking at those behind it. -/
theorem displayTerms_cons (e : Expr) (es : List Expr) :
    displayTerms (e :: es) = displayTerms [e] ++ displayTerms es := by
  by_cases ha : e.isAdded
  · rw [displayTerms_of_isAdded ha, displayTerms_of_isAdded ha, displayTerms, String.append_empty]
  · cases e with
    | number v r => rw [displayTerms, displayTerms, displayTerms, String.append_empty]
    | unary op a r s =>
      cases op with
      | negate => rw [displayTerms, displayTerms, displayTerms, String.append_empty]
      | factorial | inverse => exact absurd rfl ha
    | symbol | binary | tuple | call | error => exact absurd rfl ha

/-- Expressions that are added are alike when they are alone, and need parentheses in the same places. -/
theorem Alike.of_isAdded {e f : Expr} (he : e.isAdded) (hf : f.isAdded) (hd : e.display = f.display)
    (ha : e.isAtomic = f.isAtomic) (hs : e.isSum = f.isSum) (hr : e.isRelation = f.isRelation) :
    e.Alike f where
  display := hd
  term := by rw [displayTerms_of_isAdded he, displayTerms_of_isAdded hf, hd, hr]
  isAtomic := ha
  isSum := hs
  isRelation := hr

section
variable {f : Expr → Expr} {es : List Expr}

theorem displayItems_congr (h : ∀ e ∈ es, (f e).Alike e) : displayItems (es.map f) = displayItems es := by
  induction es with
  | nil => rfl
  | cons e es ih =>
    obtain ⟨he, hes⟩ := List.forall_mem_cons.1 h
    cases es with
    | nil => rw [List.map_cons, List.map_nil, displayItems, displayItems, he.display]
    | cons =>
      have ih := ih hes
      rw [List.map_cons] at ih ⊢
      rw [List.map_cons, displayItems_cons, displayItems_cons, he.display, ih]

theorem displayFactors_congr (h : ∀ e ∈ es, (f e).Alike e) :
    displayFactors (es.map f) = displayFactors es := by
  induction es with
  | nil => rfl
  | cons e es ih =>
    obtain ⟨he, hes⟩ := List.forall_mem_cons.1 h
    cases es with
    | nil =>
      rw [List.map_cons, List.map_nil, displayFactors, displayFactors, he.display, he.isSum, he.isRelation]
    | cons =>
      have ih := ih hes
      rw [List.map_cons] at ih ⊢
      rw [List.map_cons, displayFactors_cons, displayFactors_cons, he.display, he.isSum, he.isRelation, ih]

theorem displayTerms_congr (h : ∀ e ∈ es, (f e).Alike e) : displayTerms (es.map f) = displayTerms es := by
  induction es with
  | nil => rfl
  | cons e es ih =>
    obtain ⟨he, hes⟩ := List.forall_mem_cons.1 h
    rw [List.map_cons, displayTerms_cons, he.term, ih hes, ← displayTerms_cons]

theorem displaySum_congr (h : ∀ e ∈ es, (f e).Alike e) : displaySum (es.map f) = displaySum es := by
  cases es with
  | nil => rfl
  | cons e es =>
    obtain ⟨he, hes⟩ := List.forall_mem_cons.1 h
    rw [List.map_cons, displaySum, displaySum, he.display, he.isRelation, displayTerms_congr hes]

theorem displayLast_cons (tight : Bool) (x y : Expr) (ys : List Expr) :
    displayLast tight (x :: y :: ys) = displayLast tight (y :: ys) := by
  rw [displayLast]
  exact List.cons_ne_nil _ _

theorem displayLast_congr (tight : Bool) (h : ∀ e ∈ es, (f e).Alike e) :
    displayLast tight (es.map f) = displayLast tight es := by
  induction es with
  | nil => rfl
  | cons e es ih =>
    obtain ⟨he, hes⟩ := List.forall_mem_cons.1 h
    cases es with
    | nil => rw [List.map_cons, List.map_nil, displayLast, displayLast, he.display, he.isAtomic]
    | cons =>
      have ih := ih hes
      rw [List.map_cons] at ih ⊢
      rw [List.map_cons, displayLast_cons, displayLast_cons, ih]

theorem displayPair_congr (tight : Bool) (sign : String) (h : ∀ e ∈ es, (f e).Alike e) :
    displayPair tight sign (es.map f) = displayPair tight sign es := by
  cases es with
  | nil => rfl
  | cons e es =>
    obtain ⟨he, hes⟩ := List.forall_mem_cons.1 h
    rw [List.map_cons, displayPair, displayPair, he.display, he.isAtomic, displayLast_congr tight hes]

theorem Alike.unary {a b : Expr} (op : UnaryOp) (r s : Option Range) (h : a.Alike b) :
    (unary op a r s).Alike (unary op b r s) where
  display := by cases op <;> rw [Expr.display, Expr.display, h.display, h.isAtomic]
  term := by
    cases op with
    | negate => rw [displayTerms, displayTerms, displayTerms, displayTerms, h.display, h.isSum, h.isRelation]
    | factorial | inverse =>
      rw [displayTerms_of_isAdded rfl, displayTerms_of_isAdded rfl, Expr.display, Expr.display, h.display,
        h.isAtomic]
      rfl
  isAtomic := rfl
  isSum := rfl
  isRelation := rfl

theorem Alike.tuple (r : Option Range) (h : ∀ e ∈ es, (f e).Alike e) :
    (tuple (es.map f) r).Alike (tuple es r) :=
  .of_isAdded rfl rfl (by rw [Expr.display, Expr.display, displayItems_congr h]) rfl rfl rfl

theorem Alike.call (target : Expr) (i r : Option Range) (h : ∀ e ∈ es, (f e).Alike e) :
    (call target (es.map f) i r).Alike (call target es i r) :=
  .of_isAdded rfl rfl (by rw [Expr.display, Expr.display, displayItems_congr h]) rfl rfl rfl

theorem Alike.binary (op : BinaryOp) (r s : Option Range) (h : ∀ e ∈ es, (f e).Alike e) :
    (binary op (es.map f) r s).Alike (binary op es r s) := by
  refine .of_isAdded rfl rfl ?_ rfl rfl rfl
  cases op with
  | add => rw [Expr.display, Expr.display, displaySum_congr h]
  | multiply => rw [Expr.display, Expr.display, displayFactors_congr h]
  | divide | exponent | equal | lessThan | greaterThan | lessThanEqual | greaterThanEqual =>
    simp only [Expr.display]
    exact displayPair_congr _ _ h

end

theorem formula_relate (h : op.isRelation) (right l : Expr) :
    (relate op r s right l).formula = l.formula ++ (relation op ++ right.formula) := by
  rcases relate_cases op r s right l with he | ⟨op', a, b, r', s', hop, rfl⟩
  · rw [he, display_relation h]
  · have ih := formula_relate h right b
    rw [relate_of_isRelation hop, display_relation hop, display_relation hop, ih]
    simp only [List.append_assoc]
termination_by sizeOf l
decreasing_by
  subst_vars
  simp
  omega

theorem alike_relate (h : op.isRelation) (right l : Expr) :
    (relate op r s right l).Alike (binary op [l, right] r s) := by
  have hformula := formula_relate (r := r) (s := s) h right l
  rw [← display_relation (s := r) (i := s) h] at hformula
  obtain ⟨op', a, b, r', s', hop, he⟩ := relate_eq h r s right l
  rw [he] at hformula ⊢
  refine .of_isAdded rfl rfl (String.toList_inj.1 hformula) rfl ?_ ?_
  · cases op <;> cases h <;> cases op' <;> first | rfl | cases hop
  · exact hop.trans h.symm

/-! ## Siblings -/

mutual

/-- **Siblings** have the same formula, in every place. -/
theorem alike_nestRight : ∀ {e : Expr}, e.Regular false → e.nestRight.Alike e
  | number .., _ | symbol .., _ | error _, _ => .refl _
  | .unary op arg r s, h => .unary op r s (alike_nestRight h.2.2)
  | .tuple items r, h => by
    rw [nestRight, nestRightAll_eq_map]
    exact .tuple r (alike_nestRightAll h.2)
  | .call target args i r, h => by
    rw [nestRight, nestRightAll_eq_map]
    exact .call target i r (alike_nestRightAll h.2.2)
  | .binary op args r s, h => by
    have hargs := alike_nestRightAll h.2.2.2
    by_cases hop : op.isRelation
    · obtain ⟨a, b, rfl⟩ := pair_of_allows h.1 (isVariadic_of_isRelation hop)
      rw [nestRight_of_isRelation hop]
      exact (alike_relate hop _ _).trans (.binary op r s hargs)
    · rw [Bool.not_eq_true] at hop
      rw [nestRight_of_not_isRelation hop, nestRightAll_eq_map]
      exact .binary op r s hargs

theorem alike_nestRightAll : ∀ {es : List Expr}, RegularAll false es → ∀ e ∈ es, e.nestRight.Alike e
  | [], _ => List.forall_mem_nil _
  | _ :: _, h => List.forall_mem_cons.2 ⟨alike_nestRight h.1, alike_nestRightAll h.2⟩

end

end PlanarMath.Expr
