import PlanarMath.Proofs.Display.Regular
import PlanarMath.Proofs.Grammar.Plain

/-!
# Agreement with plain expressions

An expression agrees with a plain one when both have the same value, also as the arguments of a function, and
the grammar takes them for the same: both are groups or none is, and both stand for the same literal or for
none.  Every construction of the grammar keeps the agreement.
-/

namespace PlanarMath

universe u

/-- The number that an expression is. -/
def Expr.literal? : Expr → Option Number
  | .number v _ => some v
  | _ => none

variable {R : Type u} [CommRing R]

/-- An expression and a plain one that are worth the same, and are the same to the grammar. -/
structure Expr.Agrees (ι : Interpretation R) (e : Expr) (x : Plain) : Prop where
  value : e.value ι = x.value ι
  arguments : values ι e.arguments = Plain.values ι x.arguments
  isTuple : e.isTuple = x.isTuple
  literal : e.literal? = x.literal?

/-- A token and a plain one with the same glyph, or with contents that agree. -/
inductive Token.Agrees (ι : Interpretation R) : Token → Atom → Prop
  | glyph (c range) : Agrees ι (.glyph c range) (.glyph c)
  | operand {node x} (function range) :
      node.expr.Agrees ι x → Agrees ι (.operand node function range) (.operand x function)
  | superscript {node x} (range) :
      node.expr.Agrees ι x → Agrees ι (.superscript node range) (.superscript x)
  | subscript {node x} (range) :
      node.expr.Agrees ι x → Agrees ι (.subscript node range) (.subscript x)

/-! ## Constructions -/

namespace Plain

theorem values_singleton (ι : Interpretation R) (x : Plain) : values ι [x] = [x.value ι] := by
  rw [values, values]

theorem arguments_of_not_isTuple {x : Plain} (h : x.isTuple = false) : x.arguments = [x] := by
  cases x with
  | tuple => cases h
  | _ => rfl

end Plain

namespace Expr

theorem arguments_of_not_isTuple {e : Expr} (h : e.isTuple = false) : e.arguments = [e] := by
  cases e with
  | tuple => cases h
  | _ => rfl

theorem isMinusOne_eq (e : Expr) : e.isMinusOne = e.literal?.any Number.isMinusOne := by
  cases e <;> rfl

theorem isTuple_negation (whole minus : Range) (e : Expr) : (e.negation whole minus).isTuple = false := by
  cases e <;> rfl

theorem literal?_negation (whole minus : Range) (e : Expr) :
    (e.negation whole minus).literal? = e.literal?.map Number.neg := by
  cases e <;> rfl

namespace Agrees

variable {ι : Interpretation R}

/-- What is no group is its own argument. -/
theorem of_value {e : Expr} {x : Plain} (h : e.value ι = x.value ι) (he : e.isTuple = false)
    (hx : x.isTuple = false) (hl : e.literal? = x.literal?) : e.Agrees ι x where
  value := h
  arguments := by
    rw [arguments_of_not_isTuple he, Plain.arguments_of_not_isTuple hx, values_singleton,
      Plain.values_singleton, h]
  isTuple := he.trans hx.symm
  literal := hl

theorem isMinusOne {e : Expr} {x : Plain} (h : e.Agrees ι x) : e.isMinusOne = x.isMinusOne := by
  rw [isMinusOne_eq, h.literal, Plain.isMinusOne]

theorem number (v : Number) (r : Option Range) : (Expr.number v r).Agrees ι (.number v) :=
  .of_value (by rw [Expr.value, Plain.value]) rfl rfl rfl

theorem symbol (s : String) (r : Option Range) : (Expr.symbol s r).Agrees ι (.symbol s) :=
  .of_value (by rw [Expr.value, Plain.value]) rfl rfl rfl

variable {l r : Placed} {x y : Plain} (hl : l.expr.Agrees ι x) (hr : r.expr.Agrees ι y)
include hl

theorem negative (sign : Range) : (l.negate sign).expr.Agrees ι (.negative x) := by
  refine .of_value ?_ (isTuple_negation ..) rfl ?_
  · rw [Placed.value_negate, hl.value, Plain.value]
  · rw [Plain.literal?, ← hl.literal]
    exact literal?_negation ..

theorem factorial (sign : Range) : (l.factorial sign).expr.Agrees ι (.factorial x) :=
  .of_value (by rw [Placed.value_factorial, hl.value, Plain.value]) rfl rfl rfl

theorem inverse (named raised : Range) : (l.inverse named raised).expr.Agrees ι (.inverse x) :=
  .of_value (by rw [Placed.value_inverse, hl.value, Plain.value]) rfl rfl rfl

include hr

theorem sum (sign? : Option Range) : (l.join .add r sign?).expr.Agrees ι (.sum x y) :=
  .of_value (by rw [Placed.value_sum, hl.value, hr.value, Plain.value]) rfl rfl rfl

theorem difference (sign : Range) :
    (l.join .add (r.negate sign) (some sign)).expr.Agrees ι (.difference x y) :=
  .of_value (by rw [Placed.value_difference, hl.value, hr.value, Plain.value]) rfl rfl rfl

theorem product (sign? : Option Range) : (l.join .multiply r sign?).expr.Agrees ι (.product x y) :=
  .of_value (by rw [Placed.value_product, hl.value, hr.value, Plain.value]) rfl rfl rfl

theorem quotient (sign : Range) : (l.pair .divide r sign).expr.Agrees ι (.quotient x y) :=
  .of_value (by rw [Placed.value_pair ι rfl, hl.value, hr.value, Plain.value]) rfl rfl rfl

theorem relation {op : BinaryOp} (hop : op.isRelation) (sign : Range) :
    (l.pair op r sign).expr.Agrees ι (.relation op x y) := by
  refine .of_value ?_ rfl rfl rfl
  rw [Placed.value_pair ι (isVariadic_of_isRelation hop), hl.value, hr.value, Plain.value]

theorem power (raised : Range) : (l.power r raised).expr.Agrees ι (.power x y) :=
  .of_value (by rw [Placed.value_power, hl.value, hr.value, Plain.value]) rfl rfl rfl

theorem call : (l.apply r).expr.Agrees ι (.call x y.arguments) := by
  refine .of_value ?_ ?_ rfl ?_
  · rw [Placed.value_apply, hl.value, hr.arguments, Plain.value]
  · rw [Placed.apply_expr]
    rfl
  · rw [Placed.apply_expr]
    rfl

end Agrees

end Expr

/-! ## Tokens -/

namespace Token

variable {ι : Interpretation R}

namespace Agrees

variable {t : Token} {a : Atom} (h : t.Agrees ι a)
include h

theorem isOperand : Grammar.isOperand t = a.isOperand := by
  cases h <;> rfl

theorem isPlainOperand : t.isPlainOperand = a.isPlainOperand := by
  cases h <;> rfl

theorem isGroup : Grammar.isGroup t = a.isGroup := by
  cases h with
  | operand function range h => exact h.isTuple
  | _ => rfl

end Agrees

/-- Tokens and plain ones that agree one by one. -/
def AllAgree (ι : Interpretation R) (ts : List Token) (as : List Atom) : Prop :=
  List.Forall₂ (Agrees ι) ts as

theorem AllAgree.startsWith {P : Token → Bool} {Q : Atom → Bool}
    (hPQ : ∀ {t a}, t.Agrees ι a → P t = Q a) {ts : List Token} {as : List Atom} (h : AllAgree ι ts as) :
    Grammar.startsWith P ts = Atom.startsWith Q as := by
  cases h with
  | nil => rfl
  | cons ht _ => exact hPQ ht

theorem AllAgree.nil_left {as : List Atom} (h : AllAgree ι [] as) : as = [] := by
  cases h
  rfl

theorem AllAgree.nil_right {ts : List Token} (h : AllAgree ι ts []) : ts = [] := by
  cases h
  rfl

/-- What agrees with a glyph is the glyph. -/
theorem AllAgree.glyph_left {c : Char} {r : Range} {ts : List Token} {as : List Atom}
    (h : AllAgree ι (.glyph c r :: ts) as) : ∃ bs, as = .glyph c :: bs ∧ AllAgree ι ts bs := by
  cases h with
  | cons ht hts =>
    cases ht
    exact ⟨_, rfl, hts⟩

theorem AllAgree.glyph_right {c : Char} {ts : List Token} {as : List Atom}
    (h : AllAgree ι ts (.glyph c :: as)) : ∃ r us, ts = .glyph c r :: us ∧ AllAgree ι us as := by
  cases h with
  | cons ht hts =>
    cases ht
    exact ⟨_, _, rfl, hts⟩

/-- What agrees with an operand is an operand that is the name of a function or not as well. -/
theorem AllAgree.operand_left {node : Placed} {function : Bool} {r : Range} {ts : List Token} {as : List Atom}
    (h : AllAgree ι (.operand node function r :: ts) as) :
    ∃ x bs, as = .operand x function :: bs ∧ node.expr.Agrees ι x ∧ AllAgree ι ts bs := by
  cases h with
  | cons ht hts =>
    cases ht with
    | operand _ _ hnode => exact ⟨_, _, rfl, hnode, hts⟩

theorem AllAgree.operand_right {x : Plain} {function : Bool} {ts : List Token} {as : List Atom}
    (h : AllAgree ι ts (.operand x function :: as)) :
    ∃ node r us, ts = .operand node function r :: us ∧ node.expr.Agrees ι x ∧ AllAgree ι us as := by
  cases h with
  | cons ht hts =>
    cases ht with
    | operand _ r hnode => exact ⟨_, r, _, rfl, hnode, hts⟩

theorem AllAgree.superscript_left {node : Placed} {r : Range} {ts : List Token} {as : List Atom}
    (h : AllAgree ι (.superscript node r :: ts) as) :
    ∃ x bs, as = .superscript x :: bs ∧ node.expr.Agrees ι x ∧ AllAgree ι ts bs := by
  cases h with
  | cons ht hts =>
    cases ht with
    | superscript _ hnode => exact ⟨_, _, rfl, hnode, hts⟩

theorem AllAgree.superscript_right {x : Plain} {ts : List Token} {as : List Atom}
    (h : AllAgree ι ts (.superscript x :: as)) :
    ∃ node r us, ts = .superscript node r :: us ∧ node.expr.Agrees ι x ∧ AllAgree ι us as := by
  cases h with
  | cons ht hts =>
    cases ht with
    | superscript r hnode => exact ⟨_, r, _, rfl, hnode, hts⟩

end Token

end PlanarMath
