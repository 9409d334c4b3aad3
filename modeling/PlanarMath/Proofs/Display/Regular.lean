import PlanarMath.Expr.Display
import PlanarMath.Proofs.Expr.Walk
import PlanarMath.Text.Letter

/-!
# Regular expression trees

What the formulas of expressions are read back from.  An expression is regular when its symbols are single
letters, its calls are of functions or their inverses, its sums hold no sums and its products no products,
and no number is negated.  It is upright when no relation has a relation on its left: a chain of relations
is written without parentheses, and so it tells only where it is nested to the right.

    regular, upright      a = (b = c)   written   a = b = c
    regular, leaning      (a = b) = c   written   a = b = c
-/

namespace PlanarMath

/-- A text of one or more letters. -/
def Text.IsLetters (w : List Char) : Prop := w ≠ [] ∧ ∀ c ∈ w, isLetter c

namespace Expr

/-- A number literal. -/
def isNumber : Expr → Bool
  | number .. => true
  | _ => false

/-- An expression under a given operator. -/
def isUnder (op : BinaryOp) : Expr → Bool
  | binary op' .. => op' == op
  | _ => false

/-- A relation with a relation on its left. -/
def leansLeft : Expr → Bool
  | binary op (l :: _) _ _ => op.isRelation && l.isRelation
  | _ => false

/-- No relation has a relation on its left. -/
def Upright (e : Expr) : Prop := ∀ n ∈ e.walk, n.leansLeft = false

instance (e : Expr) : Decidable e.Upright :=
  inferInstanceAs (Decidable (∀ n ∈ e.walk, n.leansLeft = false))

/-- The name of a function, or the inverse of one. -/
inductive IsFunction : Expr → Prop
  | name {s r} : Text.IsLetters s.toList → IsFunction (symbol s r)
  | inverse {s r r' i} : Text.IsLetters s.toList → IsFunction (unary .inverse (symbol s r) r' i)

mutual

/-- Regular expressions, and the regular ones that are upright. -/
def Regular (upright : Bool) : Expr → Prop
  | number .. => True
  | symbol name _ => ∃ c, Text.isLetter c ∧ name.toList = [c]
  | error _ => True
  | unary op arg _ _ => op ≠ .inverse ∧ (op = .negate → arg.isNumber = false) ∧ Regular upright arg
  | binary op args r s =>
    op.allows args.length ∧ (op.isVariadic → ∀ a ∈ args, a.isUnder op = false) ∧
      (upright → (binary op args r s).leansLeft = false) ∧ RegularAll upright args
  | tuple items _ => items ≠ [] ∧ RegularAll upright items
  | call target args _ _ => target.IsFunction ∧ args ≠ [] ∧ RegularAll upright args

/-- Lists of regular expressions. -/
def RegularAll (upright : Bool) : List Expr → Prop
  | [] => True
  | e :: es => Regular upright e ∧ RegularAll upright es

end

theorem regularAll_iff {upright : Bool} {es : List Expr} :
    RegularAll upright es ↔ ∀ e ∈ es, e.Regular upright := by
  induction es with
  | nil => simp [RegularAll]
  | cons e es ih => simp [RegularAll, ih]

theorem leansLeft_of_not_isRelation {op : BinaryOp} (h : op.isRelation = false) (args : List Expr)
    (r s : Option Range) : (binary op args r s).leansLeft = false := by
  cases args with
  | nil => rfl
  | cons l rest => rw [leansLeft, h, Bool.false_and]

/-- The left side of a relation in an upright expression. -/
theorem Regular.left {op : BinaryOp} (hop : op.isRelation) {l : Expr} {rest : List Expr} {r s : Option Range}
    (h : (binary op (l :: rest) r s).Regular true) : l.isRelation = false := by
  have hleans := h.2.2.1 rfl
  rwa [leansLeft, hop, Bool.true_and] at hleans

/-- Operators that are neither a sum nor a product have two operands. -/
theorem pair_of_allows {op : BinaryOp} {args : List Expr} (h : op.allows args.length)
    (hv : op.isVariadic = false) : ∃ l r, args = [l, r] := by
  simp only [BinaryOp.allows, hv, Bool.false_or, Bool.and_eq_true, beq_iff_eq] at h
  match args, h.2 with
  | [l, r], _ => exact ⟨l, r, rfl⟩

/-- All operators have two operands at least. -/
theorem two_of_allows {op : BinaryOp} {args : List Expr} (h : op.allows args.length) :
    ∃ x y ys, args = x :: y :: ys := by
  cases args with
  | nil => cases h
  | cons x args =>
    cases args with
    | nil => cases h
    | cons y ys => exact ⟨x, y, ys, rfl⟩

theorem isVariadic_of_isRelation {op : BinaryOp} (h : op.isRelation) : op.isVariadic = false := by
  cases op <;> first | rfl | cases h

section
variable {e : Expr} {op : BinaryOp} {u : Bool}

/-- The two operands of an operator that is neither a sum nor a product are regular. -/
theorem Regular.exists_pair {args : List Expr} {r s : Option Range} (h : (binary op args r s).Regular u)
    (hv : op.isVariadic = false) : ∃ a b, args = [a, b] ∧ a.Regular u ∧ b.Regular u := by
  obtain ⟨a, b, rfl⟩ := pair_of_allows h.1 hv
  obtain ⟨ha, hb, -⟩ := h.2.2.2
  exact ⟨a, b, rfl, ha, hb⟩

/-- The operands of a sum or a product are two at least, and all are regular and of another kind. -/
theorem Regular.exists_operands (h : e.Regular u) (hv : op.isVariadic) (hu : e.isUnder op) :
    ∃ x y ys r s, e = binary op (x :: y :: ys) r s ∧ ∀ a ∈ x :: y :: ys, a.Regular u ∧ a.isUnder op = false := by
  cases e with
  | binary op' args r s =>
    obtain rfl : op' = op := by simpa [isUnder] using hu
    obtain ⟨x, y, ys, rfl⟩ := two_of_allows h.1
    exact ⟨x, y, ys, r, s, rfl, fun a ha => ⟨regularAll_iff.1 h.2.2.2 a ha, h.2.1 hv a ha⟩⟩
  | _ => cases hu

end

/-- An operator with two operands, of which the first is no relation under a relation. -/
theorem regular_pair {op : BinaryOp} {a b : Expr} {r s : Option Range} {u : Bool}
    (hop : op.isVariadic = false) (hl : u → (binary op [a, b] r s).leansLeft = false) (ha : a.Regular u)
    (hb : b.Regular u) : (binary op [a, b] r s).Regular u := by
  refine ⟨by cases op <;> rfl, ?_, hl, ha, hb, trivial⟩
  intro hv
  rw [hop] at hv
  cases hv

mutual

theorem Regular.upright : ∀ {e : Expr}, e.Regular false → e.Upright → e.Regular true
  | number .., h, _ => h
  | symbol .., h, _ => h
  | error _, h, _ => h
  | unary op arg r s, h, hu => by
    have hargs : arg.Upright := (forall_walk_unary.1 hu).2
    exact ⟨h.1, h.2.1, Regular.upright h.2.2 hargs⟩
  | binary op args r s, h, hu => by
    have hargs : ∀ n ∈ walkAll args, n.leansLeft = false := fun n hn => hu n (List.mem_cons_of_mem _ hn)
    exact ⟨h.1, h.2.1, fun _ => hu _ (mem_walk_self _), RegularAll.upright h.2.2.2 hargs⟩
  | tuple items r, h, hu => by
    have hitems : ∀ n ∈ walkAll items, n.leansLeft = false := fun n hn => hu n (List.mem_cons_of_mem _ hn)
    exact ⟨h.1, RegularAll.upright h.2 hitems⟩
  | call target args i r, h, hu => by
    have hargs : ∀ n ∈ walkAll args, n.leansLeft = false :=
      fun n hn => hu n (by rw [walk_call, walk_tuple]; simp [hn])
    exact ⟨h.1, h.2.1, RegularAll.upright h.2.2 hargs⟩

theorem RegularAll.upright : ∀ {es : List Expr}, RegularAll false es →
    (∀ n ∈ walkAll es, n.leansLeft = false) → RegularAll true es
  | [], _, _ => trivial
  | e :: es, h, hu => by
    rw [walkAll_cons] at hu
    obtain ⟨he, hes⟩ := List.forall_mem_append.1 hu
    exact ⟨Regular.upright h.1 he, RegularAll.upright h.2 hes⟩

end

mutual

theorem Regular.upright_walk : ∀ {e : Expr}, e.Regular true → e.Upright
  | number .., _ | symbol .., _ | error _, _ => List.forall_mem_singleton.2 rfl
  | unary op arg r s, h => by
    unfold Upright
    rw [walk_unary]
    exact List.forall_mem_cons.2 ⟨rfl, Regular.upright_walk h.2.2⟩
  | binary op args r s, h => by
    unfold Upright
    rw [walk_binary]
    exact List.forall_mem_cons.2 ⟨h.2.2.1 rfl, RegularAll.upright_walk h.2.2.2⟩
  | tuple items r, h => by
    unfold Upright
    rw [walk_tuple]
    exact List.forall_mem_cons.2 ⟨rfl, RegularAll.upright_walk h.2⟩
  | call target args i r, h => by
    unfold Upright
    rw [walk_call, walk_tuple]
    refine List.forall_mem_cons.2 ⟨rfl, List.forall_mem_append.2
      ⟨?_, List.forall_mem_cons.2 ⟨rfl, RegularAll.upright_walk h.2.2⟩⟩⟩
    cases h.1 with
    | name => exact List.forall_mem_singleton.2 rfl
    | inverse => exact List.forall_mem_cons.2 ⟨rfl, List.forall_mem_singleton.2 rfl⟩

theorem RegularAll.upright_walk : ∀ {es : List Expr}, RegularAll true es →
    ∀ n ∈ walkAll es, n.leansLeft = false
  | [], _ => List.forall_mem_nil _
  | e :: es, h => by
    rw [walkAll_cons]
    exact List.forall_mem_append.2 ⟨Regular.upright_walk h.1, RegularAll.upright_walk h.2⟩

end

/-- Upright expressions among the regular ones. -/
theorem Regular.upright_iff {e : Expr} (h : e.Regular false) : e.Regular true ↔ e.Upright :=
  ⟨Regular.upright_walk, Regular.upright h⟩

end Expr

end PlanarMath
