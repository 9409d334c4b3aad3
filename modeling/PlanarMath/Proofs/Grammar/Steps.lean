import PlanarMath.Grammar.Reader

/-!
# One step of each reader

What a reader does, without the bound that its recursion ends by: `view` is the outcome as a value with
the tokens left.  Each reader then has one equation, and what is proved about readers is proved from
these.

    (expression level ts).view  =  (operand ts).view, then (suffixes level · ·).view
    (suffixes level e ts).view  =  (suffix ts).view, then (suffixes level · ·).view   while ts goes on
-/

namespace PlanarMath.Grammar

/-! ## Outcomes -/

/-- An outcome as the value with the tokens that are left. -/
def Outcome.view {α : Type} {n : Nat} (o : Outcome α n) : Except Halt (α × List Token) :=
  match o with
  | .error h => .error h
  | .ok p => .ok (p.value, p.rest)

/-- Going on from a value and the tokens that are left. -/
def andThen {α β : Type} (r : Except Halt (α × List Token)) (f : α → List Token → Except Halt β) :
    Except Halt β :=
  match r with
  | .error h => .error h
  | .ok (a, us) => f a us

/-- The first token, if there is one, is of a class. -/
def startsWith (P : Token → Bool) : List Token → Bool
  | [] => false
  | t :: _ => P t

/-- An operand, whether or not it is the name of a function. -/
def isOperand : Token → Bool
  | .operand .. => true
  | _ => false

/-- A superscript. -/
def isSuperscript : Token → Bool
  | .superscript .. => true
  | _ => false

/-- An operand that is a parenthesised group. -/
def isGroup : Token → Bool
  | .operand node _ _ => node.expr.isTuple
  | _ => false

/-- A glyph that separates the items of a group. -/
def isComma : Token → Bool
  | .glyph c _ => roleOf c == .comma
  | _ => false

theorem isOperand_of_plain {ts : List Token} (h : startsWith Token.isPlainOperand ts) :
    startsWith isOperand ts := by
  match ts, h with
  | .operand node function range :: ts, _ => rfl

section
variable {α β : Type} {n : Nat}

@[simp] theorem andThen_error (h : Halt) (f : α → List Token → Except Halt β) :
    andThen (.error h) f = .error h := rfl

@[simp] theorem andThen_ok (a : α) (us : List Token) (f : α → List Token → Except Halt β) :
    andThen (.ok (a, us)) f = f a us := rfl

theorem andThen_eq_ok {r : Except Halt (α × List Token)} {f : α → List Token → Except Halt β} {b : β} :
    andThen r f = .ok b ↔ ∃ a us, r = .ok (a, us) ∧ f a us = .ok b := by
  rcases r with h | ⟨a, us⟩
  · simp
  · simp [and_assoc]

theorem view_eq_ok {o : Outcome α n} {a : α} {us : List Token} :
    o.view = .ok (a, us) ↔ ∃ h, o = .ok ⟨a, us, h⟩ := by
  rcases o with h | ⟨value, rest, shorter⟩
  · simp [Outcome.view]
  · simp only [Outcome.view, Except.ok.injEq, Prod.mk.injEq, Part.mk.injEq]
    constructor
    · rintro ⟨rfl, rfl⟩
      exact ⟨shorter, rfl, rfl⟩
    · rintro ⟨-, h⟩
      exact h

/-- What is left is less than the bound. -/
theorem length_lt_of_view {o : Outcome α n} {a : α} {us : List Token} (h : o.view = .ok (a, us)) :
    us.length < n := by
  obtain ⟨h, -⟩ := view_eq_ok.1 h
  exact h

end

/-! ## Equations -/

theorem view_target_superscript (name : Placed) (named : Range) (exponent : Placed) (raised : Range)
    (ts : List Token) :
    (target name named (.superscript exponent raised :: ts)).view =
      if exponent.expr.isMinusOne then .ok (name.inverse named raised, ts)
      else .error ⟨⟨.ambiguousExponent, raised⟩, ts⟩ := by
  simp only [target]
  split <;> rfl

theorem view_target_of_not_superscript (name : Placed) (named : Range) {ts : List Token}
    (h : startsWith isSuperscript ts = false) : (target name named ts).view = .ok (name, ts) := by
  unfold target
  split
  · simp [startsWith, isSuperscript] at h
  · rfl

section
variable (stop : Range)

theorem view_expression (level : Int) (ts : List Token) :
    (expression stop level ts).view =
      andThen (operand stop ts).view fun e us => (suffixes stop level e us).view := by
  rw [expression]
  cases operand stop ts with
  | error h => rfl
  | ok first =>
    simp only [Outcome.view, andThen_ok]
    cases suffixes stop level first.value first.rest <;> rfl

theorem view_operand_name (name : Placed) (named : Range) (ts : List Token) :
    (operand stop (.operand name true named :: ts)).view =
      andThen (target name named ts).view fun t us =>
        andThen (arguments stop us).view fun args vs => .ok (t.apply args, vs) := by
  rw [operand]
  cases target name named ts with
  | error h => rfl
  | ok t =>
    simp only [Outcome.view, andThen_ok]
    cases arguments stop t.rest <;> rfl

theorem view_operand_glyph (c : Char) (range : Range) (ts : List Token) :
    (operand stop (.glyph c range :: ts)).view =
      match roleOf c with
      | .plus => (expression stop signLevel ts).view
      | .minus => andThen (expression stop signLevel ts).view fun e us => .ok (e.negate range, us)
      | _ => .error (unexpected stop (.glyph c range :: ts)) := by
  rw [operand]
  cases hr : roleOf c <;> simp only [Outcome.view]
  · cases expression stop signLevel ts <;> rfl
  · cases expression stop signLevel ts <;> rfl

theorem view_arguments_group {args : Placed} (h : args.expr.isTuple) (function : Bool) (range : Range)
    (ts : List Token) :
    (arguments stop (.operand args function range :: ts)).view = .ok (args, ts) := by
  rw [arguments, if_pos h]
  rfl

theorem view_arguments_of_not_group {ts : List Token} (h : startsWith isGroup ts = false) :
    (arguments stop ts).view = (argument stop ts).view := by
  rw [arguments.eq_def]
  split
  · rw [if_neg (by simpa [startsWith, isGroup] using h)]
  · rfl

theorem view_argument (ts : List Token) :
    (argument stop ts).view =
      andThen (expression stop productLevel ts).view fun e us => (factors stop e us).view := by
  rw [argument]
  cases expression stop productLevel ts with
  | error h => rfl
  | ok first =>
    simp only [Outcome.view, andThen_ok]
    cases factors stop first.value first.rest <;> rfl

theorem view_factors (left : Placed) (ts : List Token) :
    (factors stop left ts).view =
      if startsWith Token.isPlainOperand ts then
        andThen (suffix stop ts).view fun s us => (factors stop (s.apply left) us).view
      else .ok (left, ts) := by
  cases ts with
  | nil => rw [factors]; rfl
  | cons t ts =>
    rw [factors, startsWith]
    split
    · cases suffix stop (t :: ts) with
      | error h => rfl
      | ok s =>
        simp only [Outcome.view, andThen_ok]
        cases factors stop (s.value.apply left) s.rest <;> rfl
    · rfl

theorem view_suffixes (level : Int) (left : Placed) (ts : List Token) :
    (suffixes stop level left ts).view =
      if goesOnWith level ts then
        andThen (suffix stop ts).view fun s us => (suffixes stop level (s.apply left) us).view
      else .ok (left, ts) := by
  cases ts with
  | nil => rw [suffixes]; rfl
  | cons t ts =>
    rw [suffixes, goesOnWith]
    split
    · cases suffix stop (t :: ts) with
      | error h => rfl
      | ok s =>
        simp only [Outcome.view, andThen_ok]
        cases suffixes stop level (s.value.apply left) s.rest <;> rfl
    · rfl

/-- The invariant of a loop over suffixes: what holds before and is kept by each suffix holds after, where
the loop no longer goes on. -/
theorem loop_invariant {loop : Placed → List Token → Except Halt (Placed × List Token)}
    {goes : List Token → Bool}
    (hloop : ∀ l ts, loop l ts =
      if goes ts then andThen (suffix stop ts).view fun s us => loop (s.apply l) us else .ok (l, ts))
    {P : Placed → List Token → Prop}
    (hstep : ∀ l ts s us, P l ts → goes ts → (suffix stop ts).view = .ok (s, us) → P (s.apply l) us)
    {l : Placed} {ts : List Token} (hl : P l ts) {e : Placed} {us : List Token}
    (h : loop l ts = .ok (e, us)) : P e us ∧ goes us = false := by
  induction hn : ts.length using Nat.strongRecOn generalizing l ts with
  | _ n ih =>
    rw [hloop] at h
    split at h
    · next hg =>
      obtain ⟨s, vs, hs, h⟩ := andThen_eq_ok.1 h
      have hlt := length_lt_of_view hs
      exact ih vs.length (by omega) (hstep l ts s vs hl hg hs) h rfl
    · next hg =>
      simp only [Except.ok.injEq, Prod.mk.injEq] at h
      obtain ⟨rfl, rfl⟩ := h
      exact ⟨hl, by simpa using hg⟩

theorem view_suffix_operand (node : Placed) (function : Bool) (range : Range) (ts : List Token) :
    (suffix stop (.operand node function range :: ts)).view =
      andThen (expression stop productLevel (.operand node function range :: ts)).view fun e us =>
        .ok (.product e none, us) := by
  rw [suffix]
  cases expression stop productLevel (.operand node function range :: ts) <;> rfl

theorem view_signed {n : Nat} (f : Placed → Suffix) (o : Outcome Placed n) :
    (signed f o).view = andThen o.view fun e us => .ok (f e, us) := by
  cases o <;> rfl

theorem view_suffix_glyph (c : Char) (range : Range) (ts : List Token) :
    (suffix stop (.glyph c range :: ts)).view =
      match roleOf c with
      | .factorial => .ok (.factorial range, ts)
      | .times => andThen (expression stop productLevel ts).view fun e us =>
          .ok (.product e (some range), us)
      | .divide => andThen (expression stop productLevel ts).view fun e us => .ok (.quotient e range, us)
      | .relation op => andThen (expression stop lowest ts).view fun e us => .ok (.relation op e range, us)
      | .plus => andThen (expression stop sumLevel ts).view fun e us => .ok (.sum e range, us)
      | .minus => andThen (expression stop sumLevel ts).view fun e us => .ok (.difference e range, us)
      | _ => .error (unexpected stop (.glyph c range :: ts)) := by
  rw [suffix]
  cases hr : roleOf c <;> simp only [← view_signed] <;> rfl

theorem view_items (ts : List Token) :
    (items stop ts).view =
      andThen (expression stop lowest ts).view fun e us =>
        if startsWith isComma us then andThen (items stop us.tail).view fun es vs => .ok (e :: es, vs)
        else .ok ([e], us) := by
  rw [items]
  cases expression stop lowest ts with
  | error h => rfl
  | ok p =>
    obtain ⟨e, us, hu⟩ := p
    simp only [Outcome.view, andThen_ok]
    cases us with
    | nil => rfl
    | cons t us =>
      cases t with
      | operand | superscript | subscript => rfl
      | glyph c r =>
        by_cases hc : roleOf c = .comma
        · simp only [startsWith, isComma, hc, beq_self_eq_true, if_true, List.tail_cons]
          cases items stop us <;> rfl
        · simp [startsWith, isComma, hc]

/-- The expressions that are read one after another, with a comma before each but the first. -/
inductive ReadsItems : List Token → List Placed → List Token → Prop
  | last {ts us e} : (expression stop lowest ts).view = .ok (e, us) → startsWith isComma us = false →
      ReadsItems ts [e] us
  | more {ts us vs e es} : (expression stop lowest ts).view = .ok (e, us) → startsWith isComma us →
      ReadsItems us.tail es vs → ReadsItems ts (e :: es) vs

theorem readsItems_of_view {ts us : List Token} {es : List Placed}
    (h : (items stop ts).view = .ok (es, us)) : ReadsItems stop ts es us := by
  induction hn : ts.length using Nat.strongRecOn generalizing ts es with
  | _ n ih =>
    rw [view_items, andThen_eq_ok] at h
    obtain ⟨e, vs, he, h⟩ := h
    have hlt := length_lt_of_view he
    split at h
    · next hc =>
      obtain ⟨fs, ws, hfs, h⟩ := andThen_eq_ok.1 h
      simp only [Except.ok.injEq, Prod.mk.injEq] at h
      obtain ⟨rfl, rfl⟩ := h
      exact .more he hc (ih vs.tail.length (by rw [List.length_tail]; omega) hfs rfl)
    · next hc =>
      simp only [Except.ok.injEq, Prod.mk.injEq] at h
      obtain ⟨rfl, rfl⟩ := h
      exact .last he (by simpa using hc)

end

end PlanarMath.Grammar
