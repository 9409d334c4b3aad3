import PlanarMath.Proofs.Display.Formula
import PlanarMath.Proofs.Display.Regular
import PlanarMath.Proofs.Number.Text

/-!
# The layers of an expression

Every regular expression, as the formula that its text is: an operand whose operation binds no tighter
than the place it stands in is an item in parentheses behind an empty word.

    place       is in parentheses when it is
    head        no atom
    factor      a sum or a relation
    product     a sum or a relation
    sum         a relation
-/

namespace PlanarMath

/-- One thing, and more behind it, with nothing to tell between them. -/
def Joined.of {α : Type} (x : α) (xs : List α) : Joined Unit α := ⟨x, xs.map fun a => ((), a)⟩

namespace Expr

open Formula Text

/-! ## Layers -/

/-- An expression in parentheses. -/
def grouped (e : Expr) : Head Expr := ⟨[], some (false, .of e [])⟩

/-- An operand next to a power, a fraction bar, a sign or a factorial. -/
def headOf : Expr → Head Expr
  | number v r => if v.isNonnegative then ⟨v.text.toList, none⟩ else grouped (number v r)
  | symbol name _ => ⟨name.toList, none⟩
  | error _ => ⟨['?'], none⟩
  | tuple (x :: xs) _ => ⟨[], some (false, .of x xs)⟩
  | call (symbol name _) (x :: xs) _ _ => ⟨name.toList, some (false, .of x xs)⟩
  | call (unary .inverse (symbol name _) _ _) (x :: xs) _ _ => ⟨name.toList, some (true, .of x xs)⟩
  | e => grouped e

/-- A factor of a product. -/
def factorOf : Expr → Factor Expr
  | number v _ => ⟨⟨v.text.toList, none⟩, .none⟩
  | unary .negate a _ _ => ⟨⟨'-' :: a.headOf.word, a.headOf.tail⟩, .none⟩
  | unary .factorial a _ _ => ⟨a.headOf, .factorial⟩
  | binary .divide [a, b] _ _ => ⟨a.headOf, .divided b.headOf⟩
  | binary .exponent [a, b] _ _ => ⟨a.headOf, .power b.headOf⟩
  | e => ⟨e.headOf, .none⟩

/-- The first term of a sum, and what a later one is without its sign. -/
def productOf : Expr → Product Expr
  | binary .multiply (x :: xs) _ _ => .of x.factorOf (xs.map factorOf)
  | e => .of e.factorOf []

/-- A later term of a sum, with its sign. -/
def termOf : Expr → Bool × Product Expr
  | unary .negate a _ _ => (true, a.productOf)
  | number v r =>
    if v.isNegative then (true, (number v.neg r).productOf) else (false, (number v r).productOf)
  | e => (false, e.productOf)

/-- A side of a relation. -/
def sumOf : Expr → Sum Expr
  | binary .add (x :: xs) _ _ => ⟨x.productOf, xs.map termOf⟩
  | e => ⟨e.productOf, []⟩

/-- A whole expression. -/
def chainOf : Expr → Chain Expr
  | e@(binary op [l, r] _ _) =>
    if op.isRelation then ⟨l.sumOf, (op, r.chainOf.first) :: r.chainOf.rest⟩ else ⟨e.sumOf, []⟩
  | e => ⟨e.sumOf, []⟩

theorem chainOf_of_isRelation {op : BinaryOp} (h : op.isRelation) (l r : Expr) (s i : Option Range) :
    (binary op [l, r] s i).chainOf = ⟨l.sumOf, (op, r.chainOf.first) :: r.chainOf.rest⟩ := by
  rw [chainOf, if_pos h]

theorem chainOf_of_not_isRelation {e : Expr} (h : e.isRelation = false) : e.chainOf = ⟨e.sumOf, []⟩ := by
  unfold chainOf
  split
  · next op l r s i =>
    rw [if_neg]
    simpa [isRelation] using h
  · rfl

theorem headOf_of_not_isAtomic {e : Expr} (h : e.isAtomic = false) : e.headOf = e.grouped := by
  cases e with
  | number v r => exact if_neg (by simpa [isAtomic] using h)
  | unary | binary => rfl
  | symbol | tuple | call | error => cases h

theorem productOf_of_not_multiply {e : Expr} (h : e.isUnder .multiply = false) :
    e.productOf = .of e.factorOf [] := by
  cases e with
  | binary op => cases op <;> first | rfl | cases h
  | _ => rfl

/-! ## Texts -/

/-- The formula of an expression, as a list of characters. -/
def formula (e : Expr) : List Char := e.display.toList

theorem displayItems_cons (x y : Expr) (ys : List Expr) :
    displayItems (x :: y :: ys) = display x ++ ", " ++ displayItems (y :: ys) := rfl

theorem displayFactors_cons (x y : Expr) (ys : List Expr) :
    displayFactors (x :: y :: ys) =
      parenthesised (x.isSum || x.isRelation) (display x) ++ " * " ++ displayFactors (y :: ys) := rfl

theorem toList_parenthesised (needed : Bool) (e : Expr) :
    (parenthesised needed e.display).toList =
      if needed then '(' :: (e.formula ++ [')']) else e.formula := by
  cases needed <;> simp [parenthesised, formula]

theorem text_grouped (e : Expr) : e.grouped.text formula = '(' :: (e.formula ++ [')']) := by
  simp [grouped, Head.text, tailText, opening, Joined.of, Joined.text, Joined.textAfter]

theorem text_items (x : Expr) (xs : List Expr) :
    (Joined.of x xs).text formula comma = (displayItems (x :: xs)).toList := by
  induction xs generalizing x with
  | nil => simp [Joined.of, Joined.text, Joined.textAfter, displayItems, formula]
  | cons y ys ih =>
    have hy := ih y
    unfold Joined.of Joined.text at hy ⊢
    rw [displayItems_cons]
    simp [Joined.textAfter, comma, ← hy, formula]

theorem text_headOf {e : Expr} {u : Bool} (h : e.Regular u) :
    e.headOf.text formula = (parenthesised (!e.isAtomic) e.display).toList := by
  by_cases ha : e.isAtomic
  · rw [ha]
    show _ = e.display.toList
    cases e with
    | number v r =>
      rw [headOf, if_pos (show v.isNonnegative from ha)]
      simp [Head.text, tailText, display]
    | symbol name r => simp [headOf, Head.text, tailText, display]
    | error r => simp [headOf, Head.text, tailText, display]
    | tuple items r =>
      obtain ⟨x, xs, rfl⟩ := List.exists_cons_of_ne_nil h.1
      simp [headOf, Head.text, tailText, opening, text_items, display]
    | call target args s r =>
      obtain ⟨ht, hne, -⟩ := h
      obtain ⟨x, xs, rfl⟩ := List.exists_cons_of_ne_nil hne
      cases ht with
      | name => simp [headOf, Head.text, tailText, opening, text_items, display]
      | inverse =>
        simp [headOf, Head.text, tailText, opening, text_items, display, parenthesised, isAtomic]
    | unary | binary => cases ha
  · rw [Bool.not_eq_true] at ha
    rw [headOf_of_not_isAtomic ha, text_grouped, toList_parenthesised, ha]
    rfl

theorem text_factorOf_of_head {e : Expr} {u : Bool} (h : e.Regular u) (he : e.factorOf = ⟨e.headOf, .none⟩)
    (hp : (!e.isAtomic) = (e.isSum || e.isRelation)) :
    e.factorOf.text formula = (parenthesised (e.isSum || e.isRelation) e.display).toList := by
  rw [he, ← hp, ← text_headOf h]
  simp [Factor.text, Suffix.text]

theorem text_factorOf {e : Expr} {u : Bool} (h : e.Regular u) (hm : e.isUnder .multiply = false) :
    e.factorOf.text formula = (parenthesised (e.isSum || e.isRelation) e.display).toList := by
  cases e with
  | number v r =>
    show (v.text.toList ++ []) ++ [] = v.text.toList
    rw [List.append_nil, List.append_nil]
  | symbol | tuple | call | error => exact text_factorOf_of_head h rfl rfl
  | unary op a r s =>
    have ha := text_headOf h.2.2
    cases op with
    | inverse => exact absurd rfl h.1
    | negate =>
      show '-' :: (a.headOf.text formula ++ []) = ("-" ++ parenthesised (!a.isAtomic) a.display).toList
      rw [List.append_nil, ha, String.toList_append]
      rfl
    | factorial =>
      show a.headOf.text formula ++ ['!'] = (parenthesised (!a.isAtomic) a.display ++ "!").toList
      rw [ha, String.toList_append]
      rfl
  | binary op args r s =>
    cases op with
    | multiply => cases hm
    | divide =>
      obtain ⟨a, b, rfl, ha, hb⟩ := h.exists_pair rfl
      have ha := text_headOf ha
      have hb := text_headOf hb
      show a.headOf.text formula ++ ([' ', '/', ' '] ++ b.headOf.text formula) =
        (parenthesised (!a.isAtomic) a.display ++ " / " ++ parenthesised (!b.isAtomic) b.display).toList
      rw [ha, hb]
      simp
    | exponent =>
      obtain ⟨a, b, rfl, ha, hb⟩ := h.exists_pair rfl
      have ha := text_headOf ha
      have hb := text_headOf hb
      show a.headOf.text formula ++ ('^' :: b.headOf.text formula) =
        (parenthesised (!a.isAtomic) a.display ++ "^" ++ parenthesised (!b.isAtomic) b.display).toList
      rw [ha, hb]
      simp
    | add | equal | lessThan | greaterThan | lessThanEqual | greaterThanEqual =>
      exact text_factorOf_of_head h rfl rfl

theorem text_factors {x : Expr} {xs : List Expr} {u : Bool}
    (h : ∀ a ∈ x :: xs, a.Regular u ∧ a.isUnder .multiply = false) :
    Product.text formula (.of x.factorOf (xs.map factorOf)) = (displayFactors (x :: xs)).toList := by
  induction xs generalizing x with
  | nil =>
    obtain ⟨hx, hm⟩ := h x (by simp)
    have := text_factorOf hx hm
    simp [Product.text, Joined.of, Joined.text, Joined.textAfter, displayFactors, this]
  | cons y ys ih =>
    obtain ⟨hx, hm⟩ := h x (by simp)
    have hy := ih fun a ha => h a (List.mem_cons_of_mem _ ha)
    have hx := text_factorOf hx hm
    unfold Product.text Joined.of Joined.text at hy ⊢
    rw [displayFactors_cons]
    simp [Joined.textAfter, times, ← hy, hx]

theorem text_productOf {e : Expr} {u : Bool} (h : e.Regular u) :
    e.productOf.text formula = (parenthesised (e.isSum || e.isRelation) e.display).toList := by
  by_cases hm : e.isUnder .multiply
  · obtain ⟨x, y, ys, r, s, rfl, hargs⟩ := h.exists_operands rfl hm
    show Product.text formula (.of x.factorOf ((y :: ys).map factorOf)) = (displayFactors (x :: y :: ys)).toList
    exact text_factors hargs
  · rw [Bool.not_eq_true] at hm
    rw [← text_factorOf h hm, productOf_of_not_multiply hm]
    simp [Product.text, Joined.of, Joined.text, Joined.textAfter]

theorem isSum_eq (e : Expr) : e.isSum = e.isUnder .add := by
  cases e <;> rfl

/-- A term of a sum that is added as it is, wherever it stands. -/
def isAdded : Expr → Bool
  | number .. => false
  | unary .negate .. => false
  | _ => true

theorem termOf_of_isAdded {e : Expr} (h : e.isAdded) : e.termOf = (false, e.productOf) := by
  cases e with
  | number => cases h
  | unary op => cases op <;> first | rfl | cases h
  | _ => rfl

theorem displayTerms_of_isAdded {e : Expr} (h : e.isAdded) (es : List Expr) :
    displayTerms (e :: es) = " + " ++ parenthesised e.isRelation e.display ++ displayTerms es := by
  rw [displayTerms]
  · rintro a r s rfl
    cases h
  · rintro v r rfl
    cases h

/-- A later term of a sum, with its sign in front. -/
theorem text_termOf {e : Expr} {u : Bool} (h : e.Regular u) (hs : e.isUnder .add = false) (es : List Expr) :
    sign e.termOf.1 ++ (e.termOf.2.text formula ++ (displayTerms es).toList) =
      (displayTerms (e :: es)).toList := by
  have he := text_productOf h
  rw [isSum_eq, hs, Bool.false_or] at he
  by_cases ha : e.isAdded
  · rw [termOf_of_isAdded ha, displayTerms_of_isAdded ha, he]
    simp [sign]
  · cases e with
    | number v r =>
      by_cases hv : v.isNegative
      · have hneg := text_productOf (u := u) (e := number v.neg r) trivial
        rw [termOf, if_pos hv, hneg, displayTerms, if_pos hv]
        simp [sign, isSum, isRelation, parenthesised, display]
      · rw [termOf, if_neg hv, he, displayTerms, if_neg hv]
        simp [sign, isRelation, parenthesised, display]
    | unary op a r s =>
      cases op with
      | negate =>
        rw [termOf, text_productOf h.2.2, displayTerms]
        simp [sign]
      | factorial | inverse => exact absurd rfl ha
    | symbol | tuple | call | error | binary => exact absurd rfl ha

theorem text_terms {es : List Expr} {u : Bool} (h : ∀ a ∈ es, a.Regular u ∧ a.isUnder .add = false) :
    Joined.textAfter (Product.text formula) sign (es.map termOf) = (displayTerms es).toList := by
  induction es with
  | nil => simp [Joined.textAfter, displayTerms]
  | cons e es ih =>
    obtain ⟨he, hs⟩ := h e List.mem_cons_self
    have ih := ih fun a ha => h a (List.mem_cons_of_mem _ ha)
    rw [List.map_cons, Joined.textAfter, ih, text_termOf he hs]

theorem sumOf_of_not_isSum {e : Expr} (h : e.isSum = false) : e.sumOf = ⟨e.productOf, []⟩ := by
  cases e with
  | binary op => cases op <;> first | rfl | cases h
  | _ => rfl

theorem text_sumOf {e : Expr} {u : Bool} (h : e.Regular u) :
    e.sumOf.text formula = (parenthesised e.isRelation e.display).toList := by
  by_cases hs : e.isSum
  · rw [isSum_eq] at hs
    obtain ⟨x, y, ys, r, s, rfl, hargs⟩ := h.exists_operands rfl hs
    obtain ⟨⟨hx, hsum⟩, hys⟩ := List.forall_mem_cons.1 hargs
    have hfirst := text_productOf hx
    rw [isSum_eq, hsum, Bool.false_or] at hfirst
    show x.productOf.text formula ++ Joined.textAfter (Product.text formula) sign ((y :: ys).map termOf) =
      (parenthesised x.isRelation x.display ++ displayTerms (y :: ys)).toList
    rw [hfirst, text_terms hys, String.toList_append]
  · rw [Bool.not_eq_true] at hs
    have he := text_productOf h
    rw [hs, Bool.false_or] at he
    rw [sumOf_of_not_isSum hs, ← he]
    simp [Sum.text, Joined.text, Joined.textAfter]

/-- The formula of a relation has its sign between the sides, and no parentheses around either. -/
theorem display_relation {op : BinaryOp} (h : op.isRelation) (l r : Expr) (s i : Option Range) :
    formula (binary op [l, r] s i) = l.formula ++ (relation op ++ r.formula) := by
  cases op <;> cases h <;> simp [formula, display, displayPair, displayLast, relation, parenthesised]

/-- **The layers of an expression** have its formula as their text. -/
theorem text_chainOf {e : Expr} (h : e.Regular true) : e.chainOf.text formula = e.formula := by
  by_cases hrel : e.isRelation
  · match e, hrel with
    | binary op args s i, hop =>
      obtain ⟨l, r, rfl, hl, hr⟩ := h.exists_pair (isVariadic_of_isRelation hop)
      have hleft : l.isRelation = false := Regular.left hop h
      have htext := text_sumOf hl
      rw [hleft] at htext
      have ih := text_chainOf hr
      rw [chainOf_of_isRelation hop, display_relation hop, ← ih]
      show l.sumOf.text formula ++ (relation op ++ (r.chainOf.first.text formula ++ _)) = _
      rw [htext]
      rfl
  · rw [Bool.not_eq_true] at hrel
    have htext := text_sumOf h
    rw [hrel] at htext
    rw [chainOf_of_not_isRelation hrel]
    show e.sumOf.text formula ++ [] = e.formula
    rw [htext, List.append_nil]
    rfl
termination_by sizeOf e
decreasing_by
  subst_vars
  simp
  omega

end Expr

end PlanarMath
