import Mathlib.Data.List.Forall2
import PlanarMath.Algebra.Convert

/-!
# What is converted, and what stops a conversion

The conversion of an expression into a term of an algebra system, said of the nodes of the expression.  What a
call is made to is not converted, only looked up; all other nodes are met in the order of the document
(`Expr.outsideTargets`), and each can be converted or is an offence on its own (`IsConvertible`, `Offends`).

    met up to the first offence      the names among them become known, each as its own symbol
    the first offence                the warning
    no offence                       the term, which mirrors the expression node by node (`Mirrors`)

So a conversion is a visit of these nodes one after another (`convert_settles`), and all of the above holds of
every expression, table and environment (`convertWith_account`).
-/

namespace PlanarMath

mutual

/-- The expression and all below it but for the targets of calls, parents first. -/
def Expr.outsideTargets : Expr → List Expr
  | e@(.number ..) | e@(.symbol ..) | e@(.error ..) => [e]
  | e@(.unary _ arg _ _) => e :: arg.outsideTargets
  | e@(.binary _ args _ _) => e :: Expr.outsideTargetsAll args
  | e@(.tuple items _) => e :: Expr.outsideTargetsAll items
  | e@(.call _ args argsRange _) => e :: .tuple args argsRange :: Expr.outsideTargetsAll args

/-- The expressions of a list and all below them but for the targets of calls. -/
def Expr.outsideTargetsAll : List Expr → List Expr
  | [] => []
  | e :: es => e.outsideTargets ++ Expr.outsideTargetsAll es

end

namespace Algebra

/-! ## Nodes on their own -/

/-- What may be called: a function that has an operation, or the inverse of one whose inverse has one. -/
inductive Callable (functions : FunctionTable) : Expr → String → Prop
  | function {name op r} : operation? name = some op → Callable functions (.symbol name r) op
  | inverse {name other op r r' s} : functions.inverse name = some other → operation? other = some op →
      Callable functions (.unary .inverse (.symbol name r) r' s) op

/-- A node that can be converted when all below it can: no region that could not be read, no bare inverse, and
no call of anything that may not be called. -/
def IsConvertible (functions : FunctionTable) : Expr → Prop
  | .error _ => False
  | .unary .inverse _ _ _ => False
  | .call target _ _ _ => ∃ op, Callable functions target op
  | _ => True

/-- The warning about a node that cannot be converted. -/
inductive Offends (functions : FunctionTable) : Expr → Warning → Prop
  | unread {r} : Offends functions (.error r) .unread
  | bareInverse {arg r s} : Offends functions (.unary .inverse arg r s) .bareInverse
  | unknownFunction {name r args ar cr} : operation? name = none →
      Offends functions (.call (.symbol name r) args ar cr) (.unknownFunction name)
  | noInverse {name r r' s args ar cr} :
      (∀ other, functions.inverse name = some other → operation? other = none) →
      Offends functions (.call (.unary .inverse (.symbol name r) r' s) args ar cr) (.noInverse name)
  | notCallable {target args ar cr} : (∀ name r, target ≠ .symbol name r) →
      (∀ name r r' s, target ≠ .unary .inverse (.symbol name r) r' s) →
      Offends functions (.call target args ar cr) (.notCallable target.tag)

variable {functions : FunctionTable} {env : Environment}

/-- A target has an operation and nothing to warn of, or none and one warning. -/
theorem operationOf_cases (functions : FunctionTable) (target : Expr) :
    (∃ op, operationOf functions target = (some op, []) ∧ Callable functions target op) ∨
      ∃ w, operationOf functions target = .fail w ∧ (∀ op, ¬Callable functions target op) ∧
        ∀ args ar cr, Offends functions (.call target args ar cr) w := by
  unfold operationOf
  split
  · next name r =>
    split
    · next op hop => exact .inl ⟨op, rfl, .function hop⟩
    · next hop =>
      refine .inr ⟨_, rfl, fun op h => ?_, fun args ar cr => .unknownFunction hop⟩
      cases h with
      | function h => exact absurd (hop.symm.trans h) nofun
  · next name r r' s =>
    split
    · next op hop =>
      obtain ⟨other, hother, hop⟩ := Option.bind_eq_some_iff.1 hop
      exact .inl ⟨op, rfl, .inverse hother hop⟩
    · next hop =>
      have hnone : ∀ other, functions.inverse name = some other → operation? other = none := fun other hother => by
        rwa [hother, Option.bind_some] at hop
      refine .inr ⟨_, rfl, fun op h => ?_, fun args ar cr => .noInverse hnone⟩
      cases h with
      | inverse hother h => exact absurd ((hnone _ hother).symm.trans h) nofun
  · next hsymbol hinverse =>
    refine .inr ⟨_, rfl, fun op h => ?_, fun args ar cr => .notCallable hsymbol hinverse⟩
    cases h with
    | function => exact hsymbol _ _ rfl
    | inverse => exact hinverse _ _ _ _ rfl

theorem operationOf_eq_some_iff {target : Expr} {op : String} :
    operationOf functions target = (some op, []) ↔ Callable functions target op := by
  obtain ⟨other, heq, hother⟩ | ⟨w, heq, hnone, -⟩ := operationOf_cases functions target
  · rw [heq]
    constructor
    · intro h
      cases h
      exact hother
    · intro h
      cases h with
      | function h =>
        cases hother with
        | function h' => rw [Option.some.inj (h'.symm.trans h)]
      | inverse hi h =>
        cases hother with
        | inverse hi' h' =>
          cases Option.some.inj (hi'.symm.trans hi)
          rw [Option.some.inj (h'.symm.trans h)]
  · rw [heq]
    exact ⟨nofun, fun h => absurd h (hnone op)⟩

/-- The warning about a node, as it is found out. -/
def offence? (functions : FunctionTable) : Expr → Option Warning
  | .error _ => some .unread
  | .unary .inverse _ _ _ => some .bareInverse
  | .call target _ _ _ => match operationOf functions target with
    | (none, w :: _) => some w
    | _ => none
  | _ => none

theorem offence?_eq_some_iff {n : Expr} {w : Warning} : offence? functions n = some w ↔ Offends functions n w := by
  cases n with
  | call target args ar cr =>
    obtain ⟨op, heq, hop⟩ | ⟨v, heq, -, hv⟩ := operationOf_cases functions target
    · simp only [offence?, heq]
      refine ⟨nofun, fun h => ?_⟩
      cases h with
      | unknownFunction hnone =>
        cases hop with
        | function h => exact absurd (hnone.symm.trans h) nofun
      | noInverse hnone =>
        cases hop with
        | inverse hother h => exact absurd ((hnone _ hother).symm.trans h) nofun
      | notCallable hsymbol hinverse =>
        cases hop with
        | function => exact absurd rfl (hsymbol _ _)
        | inverse => exact absurd rfl (hinverse _ _ _ _)
    · simp only [offence?, heq, Outcome.fail, Option.some.injEq]
      constructor
      · rintro rfl
        exact hv args ar cr
      · intro h
        have hv := hv args ar cr
        cases h with
        | unknownFunction =>
          cases hv with
          | unknownFunction => rfl
          | notCallable hsymbol => exact absurd rfl (hsymbol _ _)
        | noInverse =>
          cases hv with
          | noInverse => rfl
          | notCallable _ hinverse => exact absurd rfl (hinverse _ _ _ _)
        | notCallable hsymbol hinverse =>
          cases hv with
          | unknownFunction => exact absurd rfl (hsymbol _ _)
          | noInverse => exact absurd rfl (hinverse _ _ _ _)
          | notCallable => rfl
  | unary op arg r s =>
    cases op with
    | inverse => exact ⟨fun h => by cases h; exact .bareInverse, fun h => by cases h; rfl⟩
    | _ => exact ⟨nofun, nofun⟩
  | error r => exact ⟨fun h => by cases h; exact .unread, fun h => by cases h; rfl⟩
  | _ => exact ⟨nofun, nofun⟩

theorem offence?_eq_none_iff {n : Expr} : offence? functions n = none ↔ IsConvertible functions n := by
  cases n with
  | call target args ar cr =>
    obtain ⟨op, heq, hop⟩ | ⟨w, heq, hnone, -⟩ := operationOf_cases functions target
    · simp only [offence?, heq, IsConvertible]
      exact ⟨fun _ => ⟨op, hop⟩, fun _ => trivial⟩
    · simp only [offence?, heq, Outcome.fail, IsConvertible]
      exact ⟨nofun, fun ⟨op, h⟩ => absurd h (hnone op)⟩
  | unary op arg r s => cases op <;> simp [offence?, IsConvertible]
  | _ => simp [offence?, IsConvertible]

instance (functions : FunctionTable) (n : Expr) : Decidable (IsConvertible functions n) :=
  decidable_of_iff _ offence?_eq_none_iff

/-! ## Names -/

namespace Environment

/-- The term that a name stands for: the known one, or else its own symbol. -/
def read (env : Environment) (name : String) : Term := (env.termOf? name).getD (.symbol name)

/-- The environment after a node is met, of which a name becomes known. -/
def meet (env : Environment) : Expr → Environment
  | .symbol name _ => (env.intern name).2
  | _ => env

theorem intern_fst (env : Environment) (name : String) : (env.intern name).1 = env.read name := by
  unfold intern read
  cases env.termOf? name <;> rfl

theorem termOf?_append_symbol (env : Environment) (name other : String) :
    termOf? (env ++ [(name, Term.symbol name)]) other =
      (env.termOf? other).or (if other = name then some (.symbol name) else none) := by
  rw [termOf?, List.lookup_append, List.lookup_cons, List.lookup_nil]
  by_cases h : other = name
  · simp [termOf?, h]
  · simp [termOf?, beq_false_of_ne h, h]

/-- Meeting a node adds its name, when it is one that was unknown, and nothing otherwise. -/
theorem meet_cases (env : Environment) (n : Expr) :
    (∃ name r, n = .symbol name r ∧ env.termOf? name = none ∧ env.meet n = env ++ [(name, Term.symbol name)]) ∨
      (∀ name r, n = .symbol name r → env.termOf? name ≠ none) ∧ env.meet n = env := by
  cases n with
  | symbol name r =>
    cases h : env.termOf? name with
    | none => exact .inl ⟨name, r, rfl, h, by rw [meet, intern, h]⟩
    | some t =>
      refine .inr ⟨?_, by rw [meet, intern, h]⟩
      rintro _ _ ⟨⟩
      simp [h]
  | _ => exact .inr ⟨nofun, rfl⟩

theorem read_meet (env : Environment) (n : Expr) : (env.meet n).read = env.read := by
  obtain ⟨name, r, -, hnone, hmeet⟩ | ⟨-, hmeet⟩ := meet_cases env n
  · funext other
    rw [hmeet, read, read, termOf?_append_symbol]
    by_cases ho : other = name
    · rw [ho, hnone, if_pos rfl, Option.none_or]
      rfl
    · rw [if_neg ho, Option.or_none]
  · rw [hmeet]

/-- Meeting nodes adds the names among them that were unknown, each once and as its own symbol. -/
theorem exists_added (env : Environment) (nodes : List Expr) :
    ∃ added : List String, nodes.foldl meet env = env ++ added.map (fun name => (name, Term.symbol name)) ∧
      added.Nodup ∧ ∀ name, name ∈ added ↔ env.termOf? name = none ∧ ∃ r, Expr.symbol name r ∈ nodes := by
  induction nodes generalizing env with
  | nil => exact ⟨[], by simp, List.nodup_nil, by simp⟩
  | cons n nodes ih =>
    obtain ⟨added, hknown, hnodup, hmem⟩ := ih (env.meet n)
    rw [List.foldl_cons, hknown]
    obtain ⟨name, r, rfl, hnone, hmeet⟩ | ⟨hold, hmeet⟩ := meet_cases env n
    · simp only [hmeet, termOf?_append_symbol] at hmem ⊢
      refine ⟨name :: added, by simp, List.nodup_cons.2 ⟨?_, hnodup⟩, fun other => ?_⟩
      · simp [hmem, hnone]
      · rw [List.mem_cons, hmem]
        by_cases ho : other = name
        · simp [ho, hnone]
        · simp [ho]
    · rw [hmeet] at hmem ⊢
      refine ⟨added, rfl, hnodup, fun other => ?_⟩
      rw [hmem]
      refine and_congr_right fun hnone => exists_congr fun r => ?_
      rw [List.mem_cons, or_iff_right fun heq => hold other r heq.symm hnone]

end Environment

/-! ## Visiting nodes -/

/-- The first offence of some nodes, and the environment after those before it. -/
def visit (functions : FunctionTable) (env : Environment) : List Expr → Option Warning × Environment
  | [] => (none, env)
  | n :: nodes => match offence? functions n with
    | some w => (some w, env)
    | none => visit functions (env.meet n) nodes

theorem visit_append (env : Environment) (nodes more : List Expr) :
    visit functions env (nodes ++ more) = match visit functions env nodes with
      | (some w, env) => (some w, env)
      | (none, env) => visit functions env more := by
  induction nodes generalizing env with
  | nil => rfl
  | cons n nodes ih =>
    rw [List.cons_append, visit, visit]
    cases offence? functions n with
    | some w => rfl
    | none => exact ih (env.meet n)

theorem visit_fst (env : Environment) (nodes : List Expr) :
    (visit functions env nodes).1 = nodes.findSome? (offence? functions) := by
  induction nodes generalizing env with
  | nil => rfl
  | cons n nodes ih =>
    rw [visit, List.findSome?_cons]
    cases offence? functions n with
    | some w => rfl
    | none => exact ih (env.meet n)

theorem visit_snd (env : Environment) (nodes : List Expr) :
    (visit functions env nodes).2 = (nodes.takeWhile (IsConvertible functions ·)).foldl Environment.meet env := by
  induction nodes generalizing env with
  | nil => rfl
  | cons n nodes ih =>
    rw [visit, List.takeWhile_cons]
    cases h : offence? functions n with
    | some w =>
      have hn : ¬IsConvertible functions n := by rw [← offence?_eq_none_iff, h]; nofun
      simp [hn]
    | none => simp [offence?_eq_none_iff.1 h, ih]

/-- A conversion ends as a visit of nodes does: with no term and one warning, about the node that stops it, or with
a term and none. -/
inductive Settles {α : Type} : Option Warning × Environment → Outcome α × Environment → Prop
  | stopped {w env} : Settles (some w, env) ((none, [w]), env)
  | done {a env} : Settles (none, env) ((some a, []), env)

theorem Settles.map {α β : Type} {visited : Option Warning × Environment} {x : Outcome α × Environment}
    (h : Settles visited x) (f : α → β) : Settles visited (x.1.map f, x.2) := by
  cases h with
  | stopped => exact .stopped
  | done => exact .done

/-- A node that is no name and no offence leaves no trace. -/
theorem visit_cons_plain {n : Expr} (nodes : List Expr) (hplain : offence? functions n = none)
    (hmeet : env.meet n = env) : visit functions env (n :: nodes) = visit functions env nodes := by
  rw [visit, hplain, hmeet]

mutual

/-- **Conversion is a visit** of the nodes outside the targets of calls, as far as its warnings and the names it
leaves are concerned. -/
theorem convert_settles (env : Environment) : ∀ e : Expr,
    Settles (visit functions env e.outsideTargets) (convert functions env e)
  | .number (.int n) r => .done
  | .number (.real x) r => .done
  | .symbol name r => .done
  | .error r => .stopped
  | .tuple items r => by
    rw [Expr.outsideTargets, visit_cons_plain _ (by rfl) (by rfl), convert]
    exact (convertAll_settles env items).map groupTerm
  | .unary .inverse arg r s => .stopped
  | .unary .negate arg r s | .unary .factorial arg r s => by
    rw [Expr.outsideTargets, visit_cons_plain _ (by rfl) (by rfl), convert]
    · exact (convert_settles env arg).map _
    · nofun
  | .binary op args r s => by
    rw [Expr.outsideTargets, visit_cons_plain _ (by rfl) (by rfl), convert]
    exact (convertAll_settles env args).map _
  | .call target args ar r => by
    rw [Expr.outsideTargets, convert]
    obtain ⟨op, heq, hop⟩ | ⟨w, heq, -, hw⟩ := operationOf_cases functions target
    · have hcall : offence? functions (.call target args ar r) = none := offence?_eq_none_iff.2 ⟨op, hop⟩
      rw [visit_cons_plain _ hcall (by rfl), visit_cons_plain _ (by rfl) (by rfl), heq]
      exact (convertAll_settles env args).map _
    · rw [visit, offence?_eq_some_iff.2 (hw args ar r), heq]
      exact .stopped

theorem convertAll_settles (env : Environment) : ∀ es : List Expr,
    Settles (visit functions env (Expr.outsideTargetsAll es)) (convertAll functions env es)
  | [] => .done
  | e :: es => by
    rw [convertAll, Expr.outsideTargetsAll, visit_append]
    have hhead := convert_settles env e
    generalize visit functions env e.outsideTargets = visited at hhead ⊢
    generalize convert functions env e = x at hhead ⊢
    cases hhead with
    | stopped => exact .stopped
    | @done t known => exact (convertAll_settles known es).map _

end

theorem convert_snd (env : Environment) (e : Expr) : (convert functions env e).2 =
    (e.outsideTargets.takeWhile (IsConvertible functions ·)).foldl Environment.meet env := by
  rw [← visit_snd]
  have h : Settles (visit functions env e.outsideTargets) (convert functions env e) := convert_settles env e
  generalize visit functions env e.outsideTargets = visited at h ⊢
  generalize convert functions env e = x at h ⊢
  cases h <;> rfl

/-- A conversion ends with a term and no warning, or without one and with the warning about the first offence. -/
theorem convert_cases (functions : FunctionTable) (env : Environment) (e : Expr) :
    (∃ t, (convert functions env e).1 = (some t, []) ∧ e.outsideTargets.findSome? (offence? functions) = none) ∨
      ∃ w, (convert functions env e).1 = (none, [w]) ∧
        e.outsideTargets.findSome? (offence? functions) = some w := by
  rw [← visit_fst env]
  have h : Settles (visit functions env e.outsideTargets) (convert functions env e) := convert_settles env e
  generalize visit functions env e.outsideTargets = visited at h ⊢
  generalize convert functions env e = x at h ⊢
  cases h with
  | stopped => exact .inr ⟨_, rfl, rfl⟩
  | done => exact .inl ⟨_, rfl, rfl⟩

/-! ## What the term is -/

/-- The term mirrors the expression: every node outside the targets of calls has the construction of its own kind
there, on the terms of its parts in their order, and a group of one has the term of what is in it. -/
inductive Mirrors (functions : FunctionTable) (read : String → Term) : Expr → Term → Prop
  | integer {n r} : Mirrors functions read (.number (.int n) r) (.integer n)
  | float {x r} : Mirrors functions read (.number (.real x) r) (.float x)
  | symbol {name r} : Mirrors functions read (.symbol name r) (read name)
  | group {e t r} : Mirrors functions read e t → Mirrors functions read (.tuple [e] r) t
  | tuple {items ts r} : items.length ≠ 1 → List.Forall₂ (Mirrors functions read) items ts →
      Mirrors functions read (.tuple items r) (.apply "Tuple" ts)
  | negate {e t r s} : Mirrors functions read e t →
      Mirrors functions read (.unary .negate e r s) (.apply "neg" [t])
  | factorial {e t r s} : Mirrors functions read e t →
      Mirrors functions read (.unary .factorial e r s) (.apply "factorial" [t])
  | sum {args ts r s} : List.Forall₂ (Mirrors functions read) args ts →
      Mirrors functions read (.binary .add args r s) (.apply "Add" ts)
  | product {args ts r s} : List.Forall₂ (Mirrors functions read) args ts →
      Mirrors functions read (.binary .multiply args r s) (.apply "Mul" ts)
  | quotient {args ts r s} : List.Forall₂ (Mirrors functions read) args ts →
      Mirrors functions read (.binary .divide args r s) (.apply "div" ts)
  | power {args ts r s} : List.Forall₂ (Mirrors functions read) args ts →
      Mirrors functions read (.binary .exponent args r s) (.apply "Pow" ts)
  | equation {args ts r s} : List.Forall₂ (Mirrors functions read) args ts →
      Mirrors functions read (.binary .equal args r s) (.apply "Eq" ts)
  | less {args ts r s} : List.Forall₂ (Mirrors functions read) args ts →
      Mirrors functions read (.binary .lessThan args r s) (.apply "Lt" ts)
  | greater {args ts r s} : List.Forall₂ (Mirrors functions read) args ts →
      Mirrors functions read (.binary .greaterThan args r s) (.apply "Gt" ts)
  | lessOrEqual {args ts r s} : List.Forall₂ (Mirrors functions read) args ts →
      Mirrors functions read (.binary .lessThanEqual args r s) (.apply "Le" ts)
  | greaterOrEqual {args ts r s} : List.Forall₂ (Mirrors functions read) args ts →
      Mirrors functions read (.binary .greaterThanEqual args r s) (.apply "Ge" ts)
  | call {target op args ts ar r} : Callable functions target op →
      List.Forall₂ (Mirrors functions read) args ts →
      Mirrors functions read (.call target args ar r) (.apply op ts)

theorem Mirrors.tuple_iff {read : String → Term} {items : List Expr} {r : Option Range} {t : Term} :
    Mirrors functions read (.tuple items r) t ↔
      ∃ ts, List.Forall₂ (Mirrors functions read) items ts ∧ groupTerm ts = t := by
  constructor
  · intro h
    cases h with
    | group he => exact ⟨[t], .cons he .nil, rfl⟩
    | @tuple _ ts _ hone hitems =>
      refine ⟨ts, hitems, ?_⟩
      rw [hitems.length_eq] at hone
      match ts, hone with
      | [], _ => rfl
      | _ :: _ :: _, _ => rfl
  · rintro ⟨ts, hitems, rfl⟩
    match ts, hitems with
    | [], .nil => exact .tuple (by simp) .nil
    | [t], .cons he .nil => exact .group he
    | _ :: _ :: _, .cons ht (.cons hu hrest) => exact .tuple (by simp) (.cons ht (.cons hu hrest))

theorem Mirrors.unary_iff {read : String → Term} {op : UnaryOp} {e : Expr} {r s : Option Range} {t : Term} :
    Mirrors functions read (.unary op e r s) t ↔
      op ≠ .inverse ∧ ∃ a, Mirrors functions read e a ∧ .apply (unaryOperation op) [a] = t := by
  constructor
  · intro h
    cases h with
    | negate he => exact ⟨nofun, _, he, rfl⟩
    | factorial he => exact ⟨nofun, _, he, rfl⟩
  · rintro ⟨hop, a, he, rfl⟩
    cases op with
    | negate => exact .negate he
    | factorial => exact .factorial he
    | inverse => exact absurd rfl hop

theorem Mirrors.binary_iff {read : String → Term} {op : BinaryOp} {args : List Expr} {r s : Option Range} {t : Term} :
    Mirrors functions read (.binary op args r s) t ↔
      ∃ ts, List.Forall₂ (Mirrors functions read) args ts ∧ .apply (binaryOperation op) ts = t := by
  constructor
  · intro h
    cases h <;> exact ⟨_, ‹List.Forall₂ (Mirrors functions read) args _›, rfl⟩
  · rintro ⟨ts, hargs, rfl⟩
    cases op with
    | add => exact .sum hargs
    | multiply => exact .product hargs
    | divide => exact .quotient hargs
    | exponent => exact .power hargs
    | equal => exact .equation hargs
    | lessThan => exact .less hargs
    | greaterThan => exact .greater hargs
    | lessThanEqual => exact .lessOrEqual hargs
    | greaterThanEqual => exact .greaterOrEqual hargs

theorem Outcome.map_fst_eq_some_iff {α β : Type} {f : α → β} {x : Outcome α} {b : β} :
    (x.map f).1 = some b ↔ ∃ a, x.1 = some a ∧ f a = b := Option.map_eq_some_iff

theorem Environment.read_foldl_meet (env : Environment) (nodes : List Expr) :
    (nodes.foldl meet env).read = env.read := by
  induction nodes generalizing env with
  | nil => rfl
  | cons n nodes ih => rw [List.foldl_cons, ih, read_meet]

theorem read_convert (env : Environment) (e : Expr) : (convert functions env e).2.read = env.read := by
  rw [convert_snd, Environment.read_foldl_meet]

mutual

/-- **A conversion gives the terms that mirror the expression.** -/
theorem convert_eq_some_iff (env : Environment) : ∀ {e : Expr} {t : Term},
    (convert functions env e).1.1 = some t ↔ Mirrors functions env.read e t
  | .number (.int n) r, t => ⟨fun h => by cases h; exact .integer, fun h => by cases h; rfl⟩
  | .number (.real x) r, t => ⟨fun h => by cases h; exact .float, fun h => by cases h; rfl⟩
  | .symbol name r, t => by
    have hread : (convert functions env (.symbol name r)).1.1 = some (env.read name) :=
      congrArg some (Environment.intern_fst env name)
    rw [hread]
    exact ⟨fun h => by cases h; exact .symbol, fun h => by cases h; rfl⟩
  | .error r, t => ⟨nofun, nofun⟩
  | .tuple items r, t => by
    simp only [convert, Outcome.map_fst_eq_some_iff, convertAll_eq_some_iff env, Mirrors.tuple_iff]
  | .unary .inverse arg r s, t => by
    rw [Mirrors.unary_iff]
    exact ⟨nofun, fun h => absurd rfl h.1⟩
  | .unary .negate arg r s, t | .unary .factorial arg r s, t => by
    rw [convert, Mirrors.unary_iff, Outcome.map_fst_eq_some_iff]
    · simp only [convert_eq_some_iff env, ne_eq, reduceCtorEq, not_false_eq_true, true_and]
    · nofun
  | .binary op args r s, t => by
    simp only [convert, Outcome.map_fst_eq_some_iff, convertAll_eq_some_iff env, Mirrors.binary_iff]
  | .call target args ar r, t => by
    rw [convert]
    obtain ⟨op, heq, hop⟩ | ⟨w, heq, hnone, -⟩ := operationOf_cases functions target
    · rw [heq]
      refine (Option.map_eq_some_iff (x := (convertAll functions env args).1.1)).trans ?_
      constructor
      · rintro ⟨ts, hts, rfl⟩
        exact .call hop ((convertAll_eq_some_iff env).1 hts)
      · intro h
        cases h with
        | call hop' hargs =>
          have hsame := heq.symm.trans (operationOf_eq_some_iff.2 hop')
          cases hsame
          exact ⟨_, (convertAll_eq_some_iff env).2 hargs, rfl⟩
    · rw [heq]
      refine ⟨nofun, fun h => ?_⟩
      cases h with
      | call hop => exact absurd hop (hnone _)

theorem convertAll_eq_some_iff (env : Environment) : ∀ {es : List Expr} {ts : List Term},
    (convertAll functions env es).1.1 = some ts ↔ List.Forall₂ (Mirrors functions env.read) es ts
  | [], ts => ⟨fun h => by cases h; exact .nil, fun h => by cases h; rfl⟩
  | e :: es, ts => by
    have hread : (convert functions env e).2.read = env.read := read_convert env e
    have hhead : ∀ t, (convert functions env e).1.1 = some t ↔ Mirrors functions env.read e t :=
      fun t => convert_eq_some_iff env
    rw [convertAll]
    generalize convert functions env e = x at hread hhead ⊢
    obtain ⟨⟨t?, warnings⟩, known⟩ := x
    cases t? with
    | none =>
      refine ⟨nofun, ?_⟩
      rintro (_ | ⟨he, _⟩)
      cases (hhead _).2 he
    | some t =>
      have htail : ∀ ts, (convertAll functions known es).1.1 = some ts ↔
          List.Forall₂ (Mirrors functions env.read) es ts := fun ts => hread ▸ convertAll_eq_some_iff known
      refine (Option.map_eq_some_iff (x := (convertAll functions known es).1.1)).trans ?_
      constructor
      · rintro ⟨us, hus, rfl⟩
        exact .cons ((hhead t).1 rfl) ((htail us).1 hus)
      · rintro (_ | ⟨he, hes⟩)
        cases (hhead _).2 he
        exact ⟨_, (htail _).2 hes, rfl⟩

end

/-! ## The account of a conversion -/

/-- What a conversion of an expression comes to: a term or none, the warnings, and the environment it leaves. -/
structure Account (functions : FunctionTable) (env : Environment) (e : Expr) (term? : Option Term)
    (warnings : List Warning) (known : Environment) : Prop where
  /-- There is a term and no warning, or no term and one warning. -/
  settles : (∃ t, term? = some t ∧ warnings = []) ∨ ∃ w, term? = none ∧ warnings = [w]
  /-- There is a term just when nothing is in the way. -/
  succeeds : (∃ t, term? = some t) ↔ ∀ n ∈ e.outsideTargets, IsConvertible functions n
  /-- The term is the one that mirrors the expression. -/
  mirrors : ∀ t, term? = some t ↔ Mirrors functions env.read e t
  /-- The warning is about the first node that is in the way. -/
  warns : ∀ w, warnings = [w] ↔ ∃ before n after, e.outsideTargets = before ++ n :: after ∧
    (∀ m ∈ before, IsConvertible functions m) ∧ Offends functions n w
  /-- What was known stays; the unknown names up to the first node in the way are added, each once. -/
  adds : ∃ added : List String, known = env ++ added.map (fun name => (name, Term.symbol name)) ∧ added.Nodup ∧
    ∀ name, name ∈ added ↔ env.termOf? name = none ∧
      ∃ r, Expr.symbol name r ∈ e.outsideTargets.takeWhile (IsConvertible functions ·)

/-- **Conversions are all or nothing, faithful, and precise in what stops them**, whatever the expression, the
table and the environment. -/
theorem convertWith_account (functions : FunctionTable) (env : Environment) (e : Expr) :
    let (term?, warnings, known) := convertWith true functions env e
    Account functions env e term? warnings known := by
  have hwarns : ∀ w, e.outsideTargets.findSome? (offence? functions) = some w ↔
      ∃ before n after, e.outsideTargets = before ++ n :: after ∧
        (∀ m ∈ before, IsConvertible functions m) ∧ Offends functions n w := fun w => by
    rw [List.findSome?_eq_some_iff]
    simp only [offence?_eq_none_iff, offence?_eq_some_iff, and_comm]
  have hsucceeds : e.outsideTargets.findSome? (offence? functions) = none ↔
      ∀ n ∈ e.outsideTargets, IsConvertible functions n := by
    rw [List.findSome?_eq_none_iff]
    simp only [offence?_eq_none_iff]
  change Account functions env e (convert functions env e).1.1 (convert functions env e).1.2 (convert functions env e).2
  refine ⟨?settles, ?succeeds, fun t => convert_eq_some_iff env, fun w => ?warns, ?adds⟩
  case settles =>
    obtain ⟨t, heq, -⟩ | ⟨w, heq, -⟩ := convert_cases functions env e
    · exact .inl ⟨t, congrArg Prod.fst heq, congrArg Prod.snd heq⟩
    · exact .inr ⟨w, congrArg Prod.fst heq, congrArg Prod.snd heq⟩
  case succeeds =>
    rw [← hsucceeds]
    obtain ⟨t, heq, hfirst⟩ | ⟨w, heq, hfirst⟩ := convert_cases functions env e
    · exact ⟨fun _ => hfirst, fun _ => ⟨t, congrArg Prod.fst heq⟩⟩
    · rw [heq, hfirst]
      exact ⟨nofun, nofun⟩
  case warns =>
    rw [← hwarns]
    obtain ⟨t, heq, hfirst⟩ | ⟨v, heq, hfirst⟩ := convert_cases functions env e
    · rw [heq, hfirst]
      exact ⟨nofun, nofun⟩
    · rw [heq, hfirst]
      simp
  case adds =>
    rw [convert_snd]
    exact Environment.exists_added env _

-- Names to the left of what stops a conversion become known, those to its right do not.
example : convertWith true .standard [] (.binary .add [.symbol "x" none, .error none, .symbol "y" none] none none) =
    (none, [.unread], [("x", .symbol "x")]) := rfl

end Algebra

end PlanarMath
