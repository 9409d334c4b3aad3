import PlanarMath.Expr.Basic

/-!
# Outlines

What is left of an expression without the ranges of its nodes and without groups of a single item, in two
forms: the skeleton is an expression again, and the outline has the texts of numbers in their place.  A
group that holds the arguments of a call is kept, since it is no item of its own.

    expression        skeleton        outline
    (Add (x) 1.50)    (Add x 1.5)     (Add x "1.5")

The outline is that of the skeleton, and tells it where no two numbers have one text.
-/

namespace PlanarMath

/-- An expression without ranges, without groups of a single item, and with numbers as they are
written. -/
inductive Outline where
  | number (text : List Char)
  | symbol (name : List Char)
  | unary (op : UnaryOp) (arg : Outline)
  | binary (op : BinaryOp) (args : List Outline)
  | tuple (items : List Outline)
  | call (target : Outline) (args : List Outline)
  | error

/-- A group: a single item stands for itself. -/
def Outline.group : List Outline → Outline
  | [x] => x
  | xs => .tuple xs

namespace Expr

/-- A group without a range: a single item stands for itself. -/
def group : List Expr → Expr
  | [e] => e
  | es => tuple es none

mutual

/-- The expression without ranges, with groups of a single item as that item. -/
def skeleton : Expr → Expr
  | number v _ => number v none
  | symbol name _ => symbol name none
  | unary op arg _ _ => unary op (skeleton arg) none none
  | binary op args _ _ => binary op (skeletonAll args) none none
  | tuple items _ => group (skeletonAll items)
  | call target args _ _ => call (skeleton target) (skeletonAll args) none none
  | error _ => error none

/-- The skeletons of a list of expressions. -/
def skeletonAll : List Expr → List Expr
  | [] => []
  | e :: es => skeleton e :: skeletonAll es

end

mutual

/-- The outline of an expression. -/
def outline : Expr → Outline
  | number v _ => .number v.text.toList
  | symbol name _ => .symbol name.toList
  | unary op arg _ _ => .unary op (outline arg)
  | binary op args _ _ => .binary op (outlineAll args)
  | tuple items _ => .group (outlineAll items)
  | call target args _ _ => .call (outline target) (outlineAll args)
  | error _ => .error

/-- The outlines of a list of expressions. -/
def outlineAll : List Expr → List Outline
  | [] => []
  | e :: es => outline e :: outlineAll es

end

mutual

/-- The numbers in an expression, in the order of the document. -/
def numbers : Expr → List Number
  | number v _ => [v]
  | symbol .. | error _ => []
  | unary _ arg _ _ => numbers arg
  | binary _ args _ _ => numbersAll args
  | tuple items _ => numbersAll items
  | call target args _ _ => numbers target ++ numbersAll args

/-- The numbers in a list of expressions. -/
def numbersAll : List Expr → List Number
  | [] => []
  | e :: es => numbers e ++ numbersAll es

end

theorem outlineAll_eq_map (es : List Expr) : outlineAll es = es.map outline := by
  induction es with
  | nil => rfl
  | cons e es ih => rw [outlineAll, List.map_cons, ih]

/-! ## Skeletons and outlines -/

theorem outline_group (es : List Expr) : (group es).outline = .group (outlineAll es) := by
  match es with
  | [] | [_] | _ :: _ :: _ => rfl

mutual

theorem outline_skeleton : ∀ e : Expr, e.skeleton.outline = e.outline
  | number .. | symbol .. | error _ => rfl
  | unary op arg _ _ => congrArg (Outline.unary op) (outline_skeleton arg)
  | binary op args _ _ => congrArg (Outline.binary op) (outlineAll_skeletonAll args)
  | tuple items _ => by rw [skeleton, outline_group, outlineAll_skeletonAll items, outline]
  | call target args _ _ => by
    rw [skeleton, outline, outline_skeleton target, outlineAll_skeletonAll args, outline]

theorem outlineAll_skeletonAll : ∀ es : List Expr, outlineAll (skeletonAll es) = outlineAll es
  | [] => rfl
  | e :: es => by rw [skeletonAll, outlineAll, outline_skeleton e, outlineAll_skeletonAll es, outlineAll]

end

end Expr

namespace Outline

mutual

/-- The skeleton of an outline, when a number is known by its text. -/
def toExpr (value : List Char → Number) : Outline → Expr
  | number w => .number (value w) none
  | symbol w => .symbol (String.ofList w) none
  | unary op arg => .unary op (toExpr value arg) none none
  | binary op args => .binary op (toExprAll value args) none none
  | tuple items => .tuple (toExprAll value items) none
  | call target args => .call (toExpr value target) (toExprAll value args) none none
  | error => .error none

/-- The skeletons of a list of outlines. -/
def toExprAll (value : List Char → Number) : List Outline → List Expr
  | [] => []
  | x :: xs => toExpr value x :: toExprAll value xs

end

theorem toExpr_group (value : List Char → Number) (xs : List Outline) :
    (group xs).toExpr value = .group (toExprAll value xs) := by
  match xs with
  | [] | [_] | _ :: _ :: _ => rfl

end Outline

namespace Expr

variable {value : List Char → Number}

mutual

theorem toExpr_outline : ∀ {e : Expr}, (∀ v ∈ e.numbers, value v.text.toList = v) →
    e.outline.toExpr value = e.skeleton
  | number v _, h => by
    rw [outline, Outline.toExpr, h v (List.mem_singleton_self v), skeleton]
  | symbol name _, _ => by rw [outline, Outline.toExpr, String.ofList_toList, skeleton]
  | error _, _ => rfl
  | unary op arg _ _, h => by
    have harg : ∀ v ∈ arg.numbers, value v.text.toList = v := h
    rw [outline, Outline.toExpr, toExpr_outline harg, skeleton]
  | binary op args _ _, h => by
    have hargs : ∀ v ∈ numbersAll args, value v.text.toList = v := h
    rw [outline, Outline.toExpr, toExprAll_outlineAll hargs, skeleton]
  | tuple items _, h => by
    have hitems : ∀ v ∈ numbersAll items, value v.text.toList = v := h
    rw [outline, Outline.toExpr_group, toExprAll_outlineAll hitems, skeleton]
  | call target args _ _, h => by
    obtain ⟨ht, ha⟩ := List.forall_mem_append.1 h
    rw [outline, Outline.toExpr, toExpr_outline ht, toExprAll_outlineAll ha, skeleton]

theorem toExprAll_outlineAll : ∀ {es : List Expr}, (∀ v ∈ numbersAll es, value v.text.toList = v) →
    Outline.toExprAll value (outlineAll es) = skeletonAll es
  | [], _ => rfl
  | e :: es, h => by
    obtain ⟨he, hes⟩ := List.forall_mem_append.1 h
    rw [outlineAll, Outline.toExprAll, toExpr_outline he, toExprAll_outlineAll hes, skeletonAll]

end

/-- No two different numbers of a list have the same text. -/
def ToldByText (vs : List Number) : Prop := ∀ v ∈ vs, ∀ w ∈ vs, v.text = w.text → v = w

/-- Numbers that their texts tell can be found by them. -/
theorem ToldByText.exists_value {vs : List Number} (h : ToldByText vs) :
    ∃ value : List Char → Number, ∀ v ∈ vs, value v.text.toList = v := by
  let value (w : List Char) : Number := (vs.find? fun v => v.text.toList = w).getD (.int 0)
  refine ⟨value, ?_⟩
  intro v hv
  show (vs.find? fun u => u.text.toList = v.text.toList).getD (.int 0) = v
  cases hf : vs.find? fun u => u.text.toList = v.text.toList with
  | none =>
    have hne := List.find?_eq_none.1 hf v hv
    simp at hne
  | some u =>
    have hu : u.text.toList = v.text.toList := by simpa using List.find?_some hf
    exact h u (List.mem_of_find?_eq_some hf) v hv (String.toList_inj.1 hu)

/-- **Outlines** tell skeletons, where texts tell numbers. -/
theorem skeleton_eq_of_outline {e f : Expr} (h : ToldByText (e.numbers ++ f.numbers))
    (ho : e.outline = f.outline) : e.skeleton = f.skeleton := by
  obtain ⟨value, hvalue⟩ := h.exists_value
  obtain ⟨he, hf⟩ := List.forall_mem_append.1 hvalue
  rw [← toExpr_outline he, ho, toExpr_outline hf]

end Expr

end PlanarMath
