import PlanarMath.Expr.Combine

/-!
# What is below an expression

The nodes of an expression, and those of what is put together from several.  Splicing drops a node and
keeps all below it, and a sign that is folded into a number drops nothing.  So whatever is found only where
nothing is below (`Atomic`) is gathered from the parts of an expression one after another: its errors, for
instance.

    gather f (join l r)   =  gather f l ++ gather f r
    gather f (apply t a)  =  gather f t ++ gather f a
    gather f (negate e)   =  gather f e
-/

namespace PlanarMath

namespace Expr

/-! ## Nodes -/

section
variable {args : List Expr} {r s : Option Range}

theorem walk_number (v : Number) : (number v r).walk = [number v r] := rfl

theorem walk_symbol (name : String) : (symbol name r).walk = [symbol name r] := rfl

theorem walk_error : (error r).walk = [error r] := rfl

theorem walk_unary (op : UnaryOp) (arg : Expr) : (unary op arg r s).walk = unary op arg r s :: arg.walk := rfl

theorem walk_binary (op : BinaryOp) : (binary op args r s).walk = binary op args r s :: walkAll args := rfl

theorem walk_tuple : (tuple args r).walk = tuple args r :: walkAll args := rfl

theorem walk_call (target : Expr) :
    (call target args s r).walk = call target args s r :: target.walk ++ (tuple args s).walk := rfl

theorem walkAll_nil : walkAll [] = [] := rfl

theorem walkAll_cons (e : Expr) : walkAll (e :: args) = e.walk ++ walkAll args := rfl

end

theorem walkAll_append (es fs : List Expr) : walkAll (es ++ fs) = walkAll es ++ walkAll fs := by
  induction es with
  | nil => rfl
  | cons e es ih => rw [List.cons_append, walkAll_cons, walkAll_cons, ih, List.append_assoc]

theorem mem_walkAll {n : Expr} {es : List Expr} : n ∈ walkAll es ↔ ∃ e ∈ es, n ∈ walk e := by
  induction es with
  | nil => simp [walkAll_nil]
  | cons e es ih => simp [walkAll_cons, ih]

/-- An expression is one of its own nodes. -/
theorem mem_walk_self (e : Expr) : e ∈ e.walk := by
  cases e <;> exact List.mem_cons_self

/-! ## What holds of all nodes -/

section
variable {P : Expr → Prop} {args : List Expr} {r s : Option Range}

theorem forall_walkAll : (∀ n ∈ walkAll args, P n) ↔ ∀ e ∈ args, ∀ n ∈ e.walk, P n := by
  simp only [mem_walkAll]
  constructor
  · intro h e he n hn
    exact h n ⟨e, he, hn⟩
  · rintro h n ⟨e, he, hn⟩
    exact h e he n hn

theorem forall_walk_unary {op : UnaryOp} {arg : Expr} :
    (∀ n ∈ (unary op arg r s).walk, P n) ↔ P (unary op arg r s) ∧ ∀ n ∈ arg.walk, P n := by
  rw [walk_unary, List.forall_mem_cons]

theorem forall_walk_binary {op : BinaryOp} :
    (∀ n ∈ (binary op args r s).walk, P n) ↔
      P (binary op args r s) ∧ ∀ e ∈ args, ∀ n ∈ e.walk, P n := by
  rw [walk_binary, List.forall_mem_cons, forall_walkAll]

theorem forall_walk_tuple :
    (∀ n ∈ (tuple args r).walk, P n) ↔ P (tuple args r) ∧ ∀ e ∈ args, ∀ n ∈ e.walk, P n := by
  rw [walk_tuple, List.forall_mem_cons, forall_walkAll]

theorem forall_walk_call {target : Expr} :
    (∀ n ∈ (call target args s r).walk, P n) ↔
      P (call target args s r) ∧ (∀ n ∈ target.walk, P n) ∧ ∀ n ∈ (tuple args s).walk, P n := by
  rw [walk_call, List.cons_append, List.forall_mem_cons, List.forall_mem_append]

end

/-- The operands that an expression contributes are the expression, or all that is directly below. -/
theorem operandsUnder_cases (op : BinaryOp) (e : Expr) :
    e.operandsUnder op = [e] ∨
      ∃ args r s, e = binary op args r s ∧ e.operandsUnder op = args := by
  unfold operandsUnder
  split
  · split
    · next args r s h =>
      subst h
      exact .inr ⟨args, r, s, rfl, rfl⟩
    · exact .inl rfl
  · exact .inl rfl

/-! ## Arguments -/

/-- The arguments that an expression stands for behind a function. -/
def arguments : Expr → List Expr
  | tuple items _ => items
  | e => [e]

end Expr

theorem Placed.apply_expr (target args : Placed) :
    (target.apply args).expr = .call target.expr args.expr.arguments (some args.range)
      (some (target.range.span args.range)) := by
  obtain ⟨e, range, h⟩ := args
  cases e <;> rfl

/-! ## Gathering -/

namespace Expr

section
variable {α : Type} {f : Expr → Option α}

/-- What is found at the nodes of an expression, in the order of the document. -/
def gather (f : Expr → Option α) (e : Expr) : List α := e.walk.filterMap f

/-- What is found in a list of expressions. -/
def gatherAll (f : Expr → Option α) (es : List Expr) : List α := (walkAll es).filterMap f

/-- Only where nothing is below an expression something is found, whatever the sign of a number. -/
structure Atomic (f : Expr → Option α) : Prop where
  unary : ∀ op arg r s, f (unary op arg r s) = none
  binary : ∀ op args r s, f (binary op args r s) = none
  tuple : ∀ items r, f (tuple items r) = none
  call : ∀ target args i r, f (call target args i r) = none
  negate : ∀ v r s, f (number v.neg r) = f (number v s)

theorem gatherAll_cons (f : Expr → Option α) (e : Expr) (es : List Expr) :
    gatherAll f (e :: es) = gather f e ++ gatherAll f es := by
  simp [gatherAll, gather, walkAll_cons]

theorem gatherAll_append (f : Expr → Option α) (es fs : List Expr) :
    gatherAll f (es ++ fs) = gatherAll f es ++ gatherAll f fs := by
  simp [gatherAll, walkAll_append]

theorem gatherAll_singleton (f : Expr → Option α) (e : Expr) : gatherAll f [e] = gather f e := by
  rw [gatherAll_cons, gatherAll, walkAll_nil, List.filterMap_nil, List.append_nil]

theorem gather_unary (hf : Atomic f) (op : UnaryOp) (arg : Expr) (r s : Option Range) :
    gather f (unary op arg r s) = gather f arg := by
  rw [gather, walk_unary, List.filterMap_cons_none (hf.unary ..), gather]

theorem gather_binary (hf : Atomic f) (op : BinaryOp) (args : List Expr) (r s : Option Range) :
    gather f (binary op args r s) = gatherAll f args := by
  rw [gather, walk_binary, List.filterMap_cons_none (hf.binary ..), gatherAll]

theorem gather_tuple (hf : Atomic f) (items : List Expr) (r : Option Range) :
    gather f (tuple items r) = gatherAll f items := by
  rw [gather, walk_tuple, List.filterMap_cons_none (hf.tuple ..), gatherAll]

theorem gather_call (hf : Atomic f) (target : Expr) (args : List Expr) (i r : Option Range) :
    gather f (call target args i r) = gather f target ++ gatherAll f args := by
  rw [gather, walk_call, List.cons_append, List.filterMap_cons_none (hf.call ..), List.filterMap_append,
    walk_tuple, List.filterMap_cons_none (hf.tuple ..), gather, gatherAll]

/-- Nothing is lost by splicing. -/
theorem gatherAll_operandsUnder (hf : Atomic f) (op : BinaryOp) (e : Expr) :
    gatherAll f (e.operandsUnder op) = gather f e := by
  rcases e.operandsUnder_cases op with h | ⟨args, r, s, rfl, h⟩
  · rw [h, gatherAll_singleton]
  · rw [h, gather_binary hf]

theorem gather_negation (hf : Atomic f) (whole minus : Range) (e : Expr) :
    gather f (e.negation whole minus) = gather f e := by
  unfold negation
  split
  · next v r => simp only [gather, walk_number, List.filterMap_cons, hf.negate v (some whole) r]
  · rw [gather_unary hf]

theorem gatherAll_arguments (hf : Atomic f) (e : Expr) : gatherAll f e.arguments = gather f e := by
  cases e with
  | tuple items r => rw [gather_tuple hf, arguments]
  | _ => exact gatherAll_singleton f _

end

/-! ## Errors -/

/-- The range of an error. -/
def asError? : Expr → Option (Option Range)
  | error r => some r
  | _ => none

theorem atomic_asError? : Atomic asError? where
  unary _ _ _ _ := rfl
  binary _ _ _ _ := rfl
  tuple _ _ := rfl
  call _ _ _ _ := rfl
  negate _ _ _ := rfl

/-- The ranges of the errors among the nodes of an expression, in the order of the document. -/
def errors (e : Expr) : List (Option Range) := e.walk.filterMap asError?

/-- The ranges of the errors in a list of expressions. -/
def errorsAll (es : List Expr) : List (Option Range) := (walkAll es).filterMap asError?

theorem mem_errors {e : Expr} {r : Option Range} : r ∈ e.errors ↔ error r ∈ e.walk := by
  unfold errors
  rw [List.mem_filterMap]
  constructor
  · rintro ⟨n, hn, h⟩
    cases n <;> simp only [asError?, Option.some.injEq, reduceCtorEq] at h
    rwa [← h]
  · intro h
    exact ⟨_, h, rfl⟩

@[simp] theorem errorsAll_nil : errorsAll [] = [] := rfl

@[simp] theorem errorsAll_cons (e : Expr) (es : List Expr) :
    errorsAll (e :: es) = e.errors ++ errorsAll es := gatherAll_cons asError? e es

@[simp] theorem errors_error (r : Option Range) : (error r).errors = [r] := rfl

@[simp] theorem errors_symbol (name : String) (r : Option Range) : (symbol name r).errors = [] := rfl

@[simp] theorem errors_tuple (items : List Expr) (r : Option Range) :
    (tuple items r).errors = errorsAll items := gather_tuple atomic_asError? items r

@[simp] theorem errors_call (target : Expr) (args : List Expr) (i r : Option Range) :
    (call target args i r).errors = target.errors ++ errorsAll args :=
  gather_call atomic_asError? target args i r

end Expr

namespace Placed

open PlanarMath.Expr

section
variable {α : Type} {f : Expr → Option α} (hf : Atomic f)
include hf

theorem gather_negate (minus : Range) (e : Placed) : gather f (e.negate minus).expr = gather f e.expr :=
  gather_negation hf _ _ e.expr

theorem gather_join (op : BinaryOp) (l r : Placed) (sign? : Option Range) :
    gather f (l.join op r sign?).expr = gather f l.expr ++ gather f r.expr := by
  rw [join, gather_binary hf, gatherAll_append, gatherAll_operandsUnder hf, gatherAll_operandsUnder hf]

theorem gather_pair (op : BinaryOp) (l r : Placed) (sign : Range) :
    gather f (l.pair op r sign).expr = gather f l.expr ++ gather f r.expr := by
  rw [pair, gather_binary hf, gatherAll_cons, gatherAll_singleton]

theorem gather_power (base exponent : Placed) (raised : Range) :
    gather f (base.power exponent raised).expr = gather f base.expr ++ gather f exponent.expr := by
  rw [power, gather_binary hf, gatherAll_cons, gatherAll_singleton]

theorem gather_factorial (e : Placed) (sign : Range) :
    gather f (e.factorial sign).expr = gather f e.expr := gather_unary hf ..

theorem gather_inverse (name : Placed) (named raised : Range) :
    gather f (name.inverse named raised).expr = gather f name.expr := gather_unary hf ..

theorem gather_apply (target args : Placed) :
    gather f (target.apply args).expr = gather f target.expr ++ gather f args.expr := by
  rw [apply_expr, gather_call hf, gatherAll_arguments hf]

end

@[simp] theorem errors_negate (minus : Range) (e : Placed) : (e.negate minus).expr.errors = e.expr.errors :=
  gather_negate atomic_asError? minus e

@[simp] theorem errors_join (op : BinaryOp) (l r : Placed) (sign? : Option Range) :
    (l.join op r sign?).expr.errors = l.expr.errors ++ r.expr.errors :=
  gather_join atomic_asError? op l r sign?

@[simp] theorem errors_pair (op : BinaryOp) (l r : Placed) (sign : Range) :
    (l.pair op r sign).expr.errors = l.expr.errors ++ r.expr.errors :=
  gather_pair atomic_asError? op l r sign

@[simp] theorem errors_power (base exponent : Placed) (raised : Range) :
    (base.power exponent raised).expr.errors = base.expr.errors ++ exponent.expr.errors :=
  gather_power atomic_asError? base exponent raised

@[simp] theorem errors_factorial (e : Placed) (sign : Range) :
    (e.factorial sign).expr.errors = e.expr.errors := gather_factorial atomic_asError? e sign

@[simp] theorem errors_inverse (name : Placed) (named raised : Range) :
    (name.inverse named raised).expr.errors = name.expr.errors :=
  gather_inverse atomic_asError? name named raised

@[simp] theorem errors_apply (target args : Placed) :
    (target.apply args).expr.errors = target.expr.errors ++ args.expr.errors :=
  gather_apply atomic_asError? target args

end Placed

end PlanarMath
