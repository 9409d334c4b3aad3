import PlanarMath.Proofs.Display.Nesting

/-!
# What siblings share, and when they are the same

Nesting relations to the right makes a regular expression upright, and moves neither its numbers nor
anything else: the outline keeps its size.  Upright expressions are their own siblings, and they alone have
the outline of their sibling.

    outline (nestRight e) = outline e   ↔   e is upright      (e regular)
-/

namespace PlanarMath.Expr

variable {op : BinaryOp} {r s : Option Range}

/-! ## Regularity -/

theorem isUnder_of_isRelation {op' : BinaryOp} (h : op'.isRelation) (hv : op.isVariadic) (args : List Expr) :
    (binary op' args r s).isUnder op = false := by
  cases op <;> cases hv <;> cases op' <;> first | rfl | cases h

theorem isNumber_nestRight {e : Expr} (h : e.Regular false) : e.nestRight.isNumber = e.isNumber := by
  cases e with
  | binary op args r s =>
    by_cases hop : op.isRelation
    · obtain ⟨a, b, rfl⟩ := pair_of_allows h.1 (isVariadic_of_isRelation hop)
      obtain ⟨op', a', b', r', s', -, he⟩ := relate_eq hop r s b.nestRight a.nestRight
      rw [nestRight_of_isRelation hop, he]
      rfl
    · rw [Bool.not_eq_true] at hop
      rw [nestRight_of_not_isRelation hop]
      rfl
  | _ => rfl

theorem isUnder_nestRight {e : Expr} (h : e.Regular false) (hv : op.isVariadic) :
    e.nestRight.isUnder op = e.isUnder op := by
  cases e with
  | binary op' args r s =>
    by_cases hop : op'.isRelation
    · obtain ⟨a, b, rfl⟩ := pair_of_allows h.1 (isVariadic_of_isRelation hop)
      obtain ⟨op'', a', b', r', s', hop', he⟩ := relate_eq hop r s b.nestRight a.nestRight
      rw [nestRight_of_isRelation hop, he, isUnder_of_isRelation hop' hv, isUnder_of_isRelation hop hv]
    · rw [Bool.not_eq_true] at hop
      rw [nestRight_of_not_isRelation hop]
      rfl
  | _ => rfl

/-- A relation of two upright expressions is upright when its left side is no relation. -/
theorem regular_relation (h : op.isRelation) {a b : Expr} (hl : a.isRelation = false) (ha : a.Regular true)
    (hb : b.Regular true) : (binary op [a, b] r s).Regular true := by
  refine regular_pair (isVariadic_of_isRelation h) (fun _ => ?_) ha hb
  rw [leansLeft, hl, Bool.and_false]

theorem regular_relate (h : op.isRelation) {right l : Expr} (hr : right.Regular true) (hl : l.Regular true) :
    (relate op r s right l).Regular true := by
  by_cases hrel : l.isRelation
  · match l, hrel with
    | binary op' args r' s', hop =>
      obtain ⟨a, b, rfl, ha, hb⟩ := hl.exists_pair (isVariadic_of_isRelation hop)
      have hleft : a.isRelation = false := Regular.left hop hl
      rw [relate_of_isRelation hop]
      exact regular_relation hop hleft ha (regular_relate h hr hb)
  · rw [Bool.not_eq_true] at hrel
    rw [relate_of_not_isRelation hrel]
    exact regular_relation h hrel hl hr
termination_by sizeOf l
decreasing_by
  subst_vars
  simp
  omega

mutual

/-- Siblings of regular expressions are regular and upright. -/
theorem regular_nestRight : ∀ {e : Expr}, e.Regular false → e.nestRight.Regular true
  | number .., h | symbol .., h | error _, h => h
  | unary op arg r s, h => by
    refine ⟨h.1, ?_, regular_nestRight h.2.2⟩
    rw [isNumber_nestRight h.2.2]
    exact h.2.1
  | tuple items r, h => by
    refine ⟨?_, regularAll_nestRight h.2⟩
    rw [nestRightAll_eq_map, Ne, List.map_eq_nil_iff]
    exact h.1
  | call target args i r, h => by
    refine ⟨h.1, ?_, regularAll_nestRight h.2.2⟩
    rw [nestRightAll_eq_map, Ne, List.map_eq_nil_iff]
    exact h.2.1
  | binary op args r s, h => by
    have hargs := regularAll_nestRight h.2.2.2
    by_cases hop : op.isRelation
    · obtain ⟨a, b, rfl⟩ := pair_of_allows h.1 (isVariadic_of_isRelation hop)
      rw [nestRight_of_isRelation hop]
      exact regular_relate hop hargs.2.1 hargs.1
    · rw [Bool.not_eq_true] at hop
      rw [nestRight_of_not_isRelation hop]
      refine ⟨?_, ?_, ?_, hargs⟩
      · rw [nestRightAll_eq_map, List.length_map]
        exact h.1
      · intro hv a ha
        rw [nestRightAll_eq_map] at ha
        obtain ⟨b, hb, rfl⟩ := List.mem_map.1 ha
        rw [isUnder_nestRight (regularAll_iff.1 h.2.2.2 b hb) hv]
        exact h.2.1 hv b hb
      · exact fun _ => leansLeft_of_not_isRelation hop _ r s

theorem regularAll_nestRight : ∀ {es : List Expr}, RegularAll false es → RegularAll true (nestRightAll es)
  | [], _ => trivial
  | _ :: _, h => ⟨regular_nestRight h.1, regularAll_nestRight h.2⟩

end

mutual

/-- Upright expressions are their own siblings. -/
theorem nestRight_eq_self : ∀ {e : Expr}, e.Regular true → e.nestRight = e
  | number .., _ | symbol .., _ | error _, _ => rfl
  | unary op arg r s, h => by rw [nestRight, nestRight_eq_self h.2.2]
  | tuple items r, h => by rw [nestRight, nestRightAll_eq_self h.2]
  | call target args i r, h => by rw [nestRight, nestRightAll_eq_self h.2.2]
  | binary op args r s, h => by
    have hargs := nestRightAll_eq_self h.2.2.2
    by_cases hop : op.isRelation
    · obtain ⟨a, b, rfl⟩ := pair_of_allows h.1 (isVariadic_of_isRelation hop)
      have hleft : a.isRelation = false := Regular.left hop h
      simp only [nestRightAll, List.cons.injEq, and_true] at hargs
      rw [nestRight_of_isRelation hop, hargs.1, hargs.2, relate_of_not_isRelation hleft]
    · rw [Bool.not_eq_true] at hop
      rw [nestRight_of_not_isRelation hop, hargs]

theorem nestRightAll_eq_self : ∀ {es : List Expr}, RegularAll true es → nestRightAll es = es
  | [], _ => rfl
  | _ :: _, h => by rw [nestRightAll, nestRight_eq_self h.1, nestRightAll_eq_self h.2]

end

/-! ## Numbers -/

theorem numbers_relate (right l : Expr) :
    (relate op r s right l).numbers = l.numbers ++ right.numbers := by
  rcases relate_cases op r s right l with he | ⟨op', a, b, r', s', hop, rfl⟩
  · rw [he]
    simp [numbers, numbersAll]
  · have ih := numbers_relate right b
    rw [relate_of_isRelation hop]
    simp [numbers, numbersAll, ih]
termination_by sizeOf l
decreasing_by
  subst_vars
  simp
  omega

mutual

/-- Siblings have the same numbers. -/
theorem numbers_nestRight : ∀ {e : Expr}, e.Regular false → e.nestRight.numbers = e.numbers
  | number .., _ | symbol .., _ | error _, _ => rfl
  | unary op arg r s, h => by rw [nestRight, numbers, numbers, numbers_nestRight h.2.2]
  | tuple items r, h => numbersAll_nestRight h.2
  | call target args i r, h => congrArg (target.numbers ++ ·) (numbersAll_nestRight h.2.2)
  | binary op args r s, h => by
    have hargs := numbersAll_nestRight h.2.2.2
    by_cases hop : op.isRelation
    · obtain ⟨a, b, rfl⟩ := pair_of_allows h.1 (isVariadic_of_isRelation hop)
      simp only [nestRightAll, numbersAll, List.append_nil] at hargs
      rw [nestRight_of_isRelation hop, numbers_relate, hargs]
      simp [numbers, numbersAll]
    · rw [Bool.not_eq_true] at hop
      rw [nestRight_of_not_isRelation hop]
      exact hargs

theorem numbersAll_nestRight : ∀ {es : List Expr}, RegularAll false es →
    numbersAll (nestRightAll es) = numbersAll es
  | [], _ => rfl
  | e :: es, h => by
    rw [nestRightAll, numbersAll, numbersAll, numbers_nestRight h.1, numbersAll_nestRight h.2]

end

/-! ## Outlines -/

theorem sizeOf_binaryOp (op : BinaryOp) : sizeOf op = 1 := by
  cases op <;> rfl

theorem sizeOf_outline_relate (right l : Expr) :
    sizeOf (relate op r s right l).outline = sizeOf (binary op [l, right] r s).outline := by
  rcases relate_cases op r s right l with he | ⟨op', a, b, r', s', hop, rfl⟩
  · rw [he]
  · have ih := sizeOf_outline_relate right b
    rw [relate_of_isRelation hop]
    simp [outline, outlineAll, sizeOf_binaryOp] at ih ⊢
    omega
termination_by sizeOf l
decreasing_by
  subst_vars
  simp
  omega

theorem sizeOf_group {xs ys : List Outline} (hl : xs.length = ys.length) (h : sizeOf xs = sizeOf ys) :
    sizeOf (Outline.group xs) = sizeOf (Outline.group ys) := by
  match xs, ys, hl with
  | [], [], _ => rfl
  | [x], [y], _ => simpa [Outline.group] using h
  | _ :: _ :: _, _ :: _ :: _, _ => simpa [Outline.group] using h

theorem length_outlineAll_nestRightAll (es : List Expr) :
    (outlineAll (nestRightAll es)).length = (outlineAll es).length := by
  simp [outlineAll_eq_map, nestRightAll_eq_map]

mutual

/-- The outlines of siblings have the same size. -/
theorem sizeOf_outline_nestRight : ∀ {e : Expr}, e.Regular false →
    sizeOf e.nestRight.outline = sizeOf e.outline
  | number .., _ | symbol .., _ | error _, _ => rfl
  | unary op arg r s, h => by simp [nestRight, outline, sizeOf_outline_nestRight h.2.2]
  | tuple items r, h => sizeOf_group (length_outlineAll_nestRightAll items) (sizeOf_outlineAll_nestRight h.2)
  | call target args i r, h => by simp [nestRight, outline, sizeOf_outlineAll_nestRight h.2.2]
  | binary op args r s, h => by
    have hargs := sizeOf_outlineAll_nestRight h.2.2.2
    by_cases hop : op.isRelation
    · obtain ⟨a, b, rfl⟩ := pair_of_allows h.1 (isVariadic_of_isRelation hop)
      rw [nestRight_of_isRelation hop, sizeOf_outline_relate]
      simp [nestRightAll, outline, outlineAll] at hargs ⊢
      omega
    · rw [Bool.not_eq_true] at hop
      rw [nestRight_of_not_isRelation hop]
      simp [outline, hargs]

theorem sizeOf_outlineAll_nestRight : ∀ {es : List Expr}, RegularAll false es →
    sizeOf (outlineAll (nestRightAll es)) = sizeOf (outlineAll es)
  | [], _ => rfl
  | e :: es, h => by
    simp [nestRightAll, outlineAll, sizeOf_outline_nestRight h.1, sizeOf_outlineAll_nestRight h.2]

end

theorem group_inj {xs ys : List Outline} (hl : xs.length = ys.length)
    (h : Outline.group xs = Outline.group ys) : xs = ys := by
  match xs, ys, hl with
  | [], [], _ => rfl
  | [x], [y], _ => exact congrArg (fun z => [z]) h
  | _ :: _ :: _, _ :: _ :: _, _ => exact Outline.tuple.inj h

/-- A relation on the left makes a difference to the outline. -/
theorem isRelation_left_of_outline {a b : Expr} (hop : op.isRelation) (ha : a.Regular false)
    (h : (binary op [a, b] r s).nestRight.outline = (binary op [a, b] r s).outline) :
    a.isRelation = false := by
  rw [← Bool.not_eq_true]
  intro hrel
  -- the first side of `a` is all that is left of `a`, and it is smaller
  match a, hrel with
  | binary op' args r' s', hop' =>
    have hsize := sizeOf_outline_nestRight ha
    obtain ⟨c, d, rfl⟩ := pair_of_allows ha.1 (isVariadic_of_isRelation hop')
    obtain ⟨op'', c', d', r'', s'', hop'', he⟩ := relate_eq hop' r' s' d.nestRight c.nestRight
    rw [nestRight_of_isRelation hop', he] at hsize
    rw [nestRight_of_isRelation hop, nestRight_of_isRelation hop', he, relate_of_isRelation hop''] at h
    have hleft : c'.outline = (binary op' [c, d] r' s').outline := by
      simp only [outline, outlineAll, Outline.binary.injEq, List.cons.injEq] at h ⊢
      exact h.2.1
    rw [← hleft] at hsize
    simp [outline, outlineAll] at hsize
    omega

mutual

/-- Only upright expressions have the outlines of their siblings. -/
theorem regular_of_outline : ∀ {e : Expr}, e.Regular false → e.nestRight.outline = e.outline →
    e.Regular true
  | number .., h, _ | symbol .., h, _ | error _, h, _ => h
  | unary op arg r s, h, he => ⟨h.1, h.2.1, regular_of_outline h.2.2 (Outline.unary.inj he).2⟩
  | tuple items r, h, he =>
    ⟨h.1, regularAll_of_outline h.2 (group_inj (length_outlineAll_nestRightAll items) he)⟩
  | call target args i r, h, he => ⟨h.1, h.2.1, regularAll_of_outline h.2.2 (Outline.call.inj he).2⟩
  | binary op args r s, h, he => by
    by_cases hop : op.isRelation
    · obtain ⟨a, b, rfl, ha, hb⟩ := h.exists_pair (isVariadic_of_isRelation hop)
      have hleft := isRelation_left_of_outline hop ha he
      have hleft' : a.nestRight.isRelation = false := (alike_nestRight ha).isRelation.trans hleft
      rw [nestRight_of_isRelation hop, relate_of_not_isRelation hleft'] at he
      simp only [outline, outlineAll, Outline.binary.injEq, List.cons.injEq, true_and, and_true] at he
      exact regular_relation hop hleft (regular_of_outline ha he.1) (regular_of_outline hb he.2)
    · rw [Bool.not_eq_true] at hop
      rw [nestRight_of_not_isRelation hop] at he
      exact ⟨h.1, h.2.1, fun _ => leansLeft_of_not_isRelation hop args r s,
        regularAll_of_outline h.2.2.2 (Outline.binary.inj he).2⟩

theorem regularAll_of_outline : ∀ {es : List Expr}, RegularAll false es →
    outlineAll (nestRightAll es) = outlineAll es → RegularAll true es
  | [], _, _ => trivial
  | _ :: _, h, he =>
    ⟨regular_of_outline h.1 (List.cons.inj he).1, regularAll_of_outline h.2 (List.cons.inj he).2⟩

end

end PlanarMath.Expr
