import PlanarMath.Diagnostic
import PlanarMath.Grammar.Level
import PlanarMath.Grammar.Suffix

/-!
# Reading expressions

Tokens are read from left to right by binding level.  A reader takes a list of tokens and gives what it
has read with the tokens that are left, or the one complaint it stopped at.

    expression  an operand and all suffixes that bind tighter than the level
    operand     a plain operand, a function with its arguments, or a sign before an operand
    arguments   a group, or a product with the operands beside it up to the next function
    suffix      a factor, a term, a relation, a power or a factorial

Each reader that succeeds leaves fewer tokens than it was given, which is what the recursion ends by:
its measure counts the tokens, and where two readers start at the same token, their order.
-/

namespace PlanarMath.Grammar

/-- A reader that stopped: the complaint, and the tokens it had not taken. -/
structure Halt where
  diagnostic : Diagnostic
  rest : List Token
  deriving DecidableEq

/-- Something read, and the tokens that are left, fewer than the bound. -/
structure Part (α : Type) (bound : Nat) where
  value : α
  rest : List Token
  shorter : rest.length < bound

/-- The outcome of a reader. -/
abbrev Outcome (α : Type) (bound : Nat) := Except Halt (Part α bound)

/-- Stopping at the first of the tokens. -/
def unexpected (stop : Range) (ts : List Token) : Halt := ⟨.unexpected (Mark.first stop ts), ts⟩

/-- The target of a call, after the name of its function: raised to minus one it is the inverse. -/
def target (name : Placed) (named : Range) (ts : List Token) : Outcome Placed (ts.length + 1) :=
  match ts with
  | .superscript exponent raised :: rest =>
    if exponent.expr.isMinusOne then
      .ok ⟨name.inverse named raised, rest, by simp only [List.length_cons]; omega⟩
    else .error ⟨⟨.ambiguousExponent, raised⟩, rest⟩
  | ts => .ok ⟨name, ts, Nat.lt_succ_self _⟩

/-- The suffix made of what was read after its sign. -/
def signed {n : Nat} (f : Placed → Suffix) : Outcome Placed n → Outcome Suffix (n + 1)
  | .error h => .error h
  | .ok p => .ok ⟨f p.value, p.rest, Nat.lt_succ_of_lt p.shorter⟩

mutual

/-- An expression at a level. -/
def expression (stop : Range) (level : Int) (ts : List Token) : Outcome Placed ts.length :=
  match operand stop ts with
  | .error h => .error h
  | .ok first =>
    match suffixes stop level first.value first.rest with
    | .error h => .error h
    | .ok p => .ok ⟨p.value, p.rest, by have := p.shorter; have := first.shorter; omega⟩
termination_by 4 * ts.length + 1
decreasing_by
  · omega
  · have := first.shorter; omega

/-- An operand with the signs in front of it. -/
def operand (stop : Range) (ts : List Token) : Outcome Placed ts.length :=
  match ts with
  | .operand node false _ :: rest => .ok ⟨node, rest, Nat.lt_succ_self _⟩
  | .operand name true named :: rest =>
    match target name named rest with
    | .error h => .error h
    | .ok t =>
      match arguments stop t.rest with
      | .error h => .error h
      | .ok args => .ok ⟨t.value.apply args.value, args.rest, by
          have := args.shorter; have := t.shorter; simp only [List.length_cons]; omega⟩
  | .glyph c range :: rest =>
    match roleOf c with
    | .plus =>
      match expression stop signLevel rest with
      | .error h => .error h
      | .ok p => .ok ⟨p.value, p.rest, by have := p.shorter; simp only [List.length_cons]; omega⟩
    | .minus =>
      match expression stop signLevel rest with
      | .error h => .error h
      | .ok p => .ok ⟨p.value.negate range, p.rest, by
          have := p.shorter; simp only [List.length_cons]; omega⟩
    | _ => .error (unexpected stop (.glyph c range :: rest))
  | ts => .error (unexpected stop ts)
termination_by 4 * ts.length
decreasing_by
  · have := t.shorter; simp only [List.length_cons]; omega
  · simp only [List.length_cons]; omega
  · simp only [List.length_cons]; omega

/-- The arguments of a function: a group that stands first, or else a product without signs. -/
def arguments (stop : Range) (ts : List Token) : Outcome Placed ts.length :=
  match ts with
  | .operand node function range :: rest =>
    if node.expr.isTuple then .ok ⟨node, rest, Nat.lt_succ_self _⟩
    else argument stop (.operand node function range :: rest)
  | ts => argument stop ts
termination_by 4 * ts.length + 3
decreasing_by all_goals omega

/-- A product and the plain operands beside it. -/
def argument (stop : Range) (ts : List Token) : Outcome Placed ts.length :=
  match expression stop productLevel ts with
  | .error h => .error h
  | .ok first =>
    match factors stop first.value first.rest with
    | .error h => .error h
    | .ok p => .ok ⟨p.value, p.rest, by have := p.shorter; have := first.shorter; omega⟩
termination_by 4 * ts.length + 2
decreasing_by
  · omega
  · have := first.shorter; omega

/-- An expression with the plain operands beside it, and what is beside those. -/
def factors (stop : Range) (left : Placed) (ts : List Token) : Outcome Placed (ts.length + 1) :=
  match ts with
  | [] => .ok ⟨left, [], Nat.lt_succ_self _⟩
  | t :: rest =>
    if t.isPlainOperand then
      match suffix stop (t :: rest) with
      | .error h => .error h
      | .ok s =>
        match factors stop (s.value.apply left) s.rest with
        | .error h => .error h
        | .ok p => .ok ⟨p.value, p.rest, by have := p.shorter; have := s.shorter; omega⟩
    else .ok ⟨left, t :: rest, Nat.lt_succ_self _⟩
termination_by 4 * ts.length + 3
decreasing_by
  · omega
  · have := s.shorter; omega

/-- An expression with the suffixes that follow it at a level. -/
def suffixes (stop : Range) (level : Int) (left : Placed) (ts : List Token) :
    Outcome Placed (ts.length + 1) :=
  match ts with
  | [] => .ok ⟨left, [], Nat.lt_succ_self _⟩
  | t :: rest =>
    if goesOn level t then
      match suffix stop (t :: rest) with
      | .error h => .error h
      | .ok s =>
        match suffixes stop level (s.value.apply left) s.rest with
        | .error h => .error h
        | .ok p => .ok ⟨p.value, p.rest, by have := p.shorter; have := s.shorter; omega⟩
    else .ok ⟨left, t :: rest, Nat.lt_succ_self _⟩
termination_by 4 * ts.length + 3
decreasing_by
  · omega
  · have := s.shorter; omega

/-- One suffix. -/
def suffix (stop : Range) (ts : List Token) : Outcome Suffix ts.length :=
  match ts with
  | .operand node function range :: rest =>
    match expression stop productLevel (.operand node function range :: rest) with
    | .error h => .error h
    | .ok p => .ok ⟨.product p.value none, p.rest, p.shorter⟩
  | .superscript exponent raised :: rest => .ok ⟨.power exponent raised, rest, Nat.lt_succ_self _⟩
  | .glyph c range :: rest =>
    match roleOf c with
    | .factorial => .ok ⟨.factorial range, rest, Nat.lt_succ_self _⟩
    | .times => signed (.product · (some range)) (expression stop productLevel rest)
    | .divide => signed (.quotient · range) (expression stop productLevel rest)
    | .relation op => signed (.relation op · range) (expression stop lowest rest)
    | .plus => signed (.sum · range) (expression stop sumLevel rest)
    | .minus => signed (.difference · range) (expression stop sumLevel rest)
    | _ => .error (unexpected stop (.glyph c range :: rest))
  | ts => .error (unexpected stop ts)
termination_by 4 * ts.length + 2
decreasing_by
  · omega
  all_goals simp only [List.length_cons]; omega

end

/-! ## Whole rows -/

/-- An expression that takes up all tokens. -/
def whole (stop : Range) (ts : List Token) : Except Halt Placed :=
  match expression stop lowest ts with
  | .error h => .error h
  | .ok p => if p.rest.isEmpty then .ok p.value else .error (unexpected stop p.rest)

/-- Expressions with commas between them, as far as they go. -/
def items (stop : Range) (ts : List Token) : Outcome (List Placed) ts.length :=
  match expression stop lowest ts with
  | .error h => .error h
  | .ok p =>
    match hr : p.rest with
    | .glyph c range :: rest =>
      if roleOf c = .comma then
        match items stop rest with
        | .error h => .error h
        | .ok q => .ok ⟨p.value :: q.value, q.rest, by
            have := p.shorter; have := q.shorter
            simp only [hr, List.length_cons] at *; omega⟩
      else .ok ⟨[p.value], .glyph c range :: rest, hr ▸ p.shorter⟩
    | rest => .ok ⟨[p.value], rest, hr ▸ p.shorter⟩
termination_by ts.length
decreasing_by
  have := p.shorter
  simp only [hr, List.length_cons] at *; omega

/-- Expressions with commas between them that take up all tokens. -/
def group (stop : Range) (ts : List Token) : Except Halt (List Placed) :=
  match items stop ts with
  | .error h => .error h
  | .ok p => if p.rest.isEmpty then .ok p.value else .error (unexpected stop p.rest)

end PlanarMath.Grammar
