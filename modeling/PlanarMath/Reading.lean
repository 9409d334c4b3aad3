import PlanarMath.Grammar.Reader
import PlanarMath.Layout.Basic
import PlanarMath.Text.Blank
import PlanarMath.Token.Numerals
import PlanarMath.Token.Words

/-!
# Reading layouts

A row becomes one expression in three steps: its elements become tokens, each construct being read into
an expression first; letters and digits side by side become names and numbers, and blanks go; the
grammar reads the tokens that are left.  A row that cannot be read is an error in its place, with one
complaint, so reading always gives an expression.

    complaints of a row = those of its constructs, left to right
                       ++ those of its numerals, left to right
                       ++ at most one of the grammar

Constructs may be nested only so deep; one that is nested deeper is an error, and is not looked into.
-/

namespace PlanarMath

/-! ## Reports -/

/-- What an operation found on its way, and its result or the fault that stopped it. -/
structure Report (α : Type) where
  found : List Diagnostic
  result : Except Fault α

namespace Report

/-- A result without complaints. -/
def ok {α : Type} (a : α) : Report α := ⟨[], .ok a⟩

/-- A result without complaints, or a fault. -/
def ofExcept {α : Type} (r : Except Fault α) : Report α := ⟨[], r⟩

/-- One operation after another, with what both found. -/
def andThen {α β : Type} (r : Report α) (f : α → Report β) : Report β :=
  match r.result with
  | .error e => ⟨r.found, .error e⟩
  | .ok a =>
    let next := f a
    ⟨r.found ++ next.found, next.result⟩

/-- The same report about another result. -/
def map {α β : Type} (f : α → β) (r : Report α) : Report β := ⟨r.found, r.result.map f⟩

theorem ok_andThen {α β : Type} (a : α) (f : α → Report β) : (ok a).andThen f = f a := by
  simp [ok, andThen]

theorem andThen_assoc {α β γ : Type} (r : Report α) (f : α → Report β) (g : β → Report γ) :
    (r.andThen f).andThen g = r.andThen fun a => (f a).andThen g := by
  obtain ⟨found, result⟩ := r
  cases result with
  | error e => rfl
  | ok a =>
    simp only [andThen]
    cases (f a).result with
    | error e => rfl
    | ok b => simp

end Report

/-! ## Options -/

/-- What reading depends on: the function table, the reader of number literals, which may reject one,
and how deep constructs may be nested, when that is limited. -/
structure Options where
  functions : FunctionTable := .standard
  number : String → Option Number := Number.ofText?
  limit? : Option Int := none

namespace Options

/-- Whether a construct whose parents are `level` constructs is nested too deep. -/
def isTooDeep (o : Options) (level : Nat) : Option Int := o.limit?.filter (· ≤ level)

end Options

namespace Reading

open Layout

/-! ## From tokens to an expression -/

/-- A glyph that only separates others. -/
def isBlank : Token → Bool
  | .glyph c _ => Text.isBlank c
  | _ => false

/-- The tokens that the grammar sees, from those of the elements. -/
def merge (o : Options) (ts : List Token) : Report (List Token) :=
  match Token.mergeWords o.functions ts with
  | .error f => ⟨[], .error f⟩
  | .ok ts =>
    let (found, ts) := Token.mergeNumerals o.number ts
    ⟨found, .ok (ts.filter fun t => !isBlank t)⟩

/-- The end of the input of a region. -/
def endOf (region : Range) : Range := ⟨region.stop, region.stop, Nat.le_refl _⟩

/-- What the grammar makes of a region, an error when it stops. -/
def orError (region : Range) : Except Grammar.Halt Placed → Report Placed
  | .ok e => .ok e
  | .error h => ⟨[h.diagnostic], .ok (.error region)⟩

/-- The expression of the tokens of a region. -/
def asExpression (region : Range) (ts : List Token) : Report Placed :=
  orError region (Grammar.whole (endOf region) ts)

/-- A group of expressions in a range. -/
def tuple (range : Range) (items : List Placed) : Placed :=
  ⟨.tuple (items.map (·.expr)) (some range), range, rfl⟩

/-- The group of the tokens of a region; `outer` is the region with the glyphs around it. -/
def asGroup (region outer : Range) (ts : List Token) : Report Placed :=
  orError outer ((Grammar.group (endOf region) ts).map (tuple outer))

/-! ## Constructs -/

/-- The function that a frame applies to its content. -/
def functionOf? : Frame → Option String
  | .radical => some "sqrt"
  | .absoluteValue => some "abs"
  | .ceiling => some "ceil"
  | .floor => some "floor"
  | _ => none

/-- The call of a named function on what it encloses, both in the range of the construct. -/
def enclosed (name : String) (range : Range) (inner : Placed) : Placed :=
  ⟨.call (.symbol name (some range)) [inner.expr] (some inner.range) (some range), range, rfl⟩

/-- The token of a frame whose content was read. -/
def frameToken (frame : Frame) (range : Range) (inner : Placed) : Token :=
  match frame with
  | .superscript => .superscript inner range
  | .subscript => .subscript inner range
  | frame => match functionOf? frame with
    | some name => .operand (enclosed name range inner) false range
    | none => .operand inner false range

/-- The token of a construct that is nested too deep. -/
def deepToken (limit : Int) (role : Option Frame) (range : Range) : Report Token :=
  ⟨[⟨.tooDeep limit, range⟩], .ok (match role with
    | some .superscript => .superscript (.error range) range
    | some .subscript => .subscript (.error range) range
    | _ => .operand (.error range) false range)⟩

/-- The content of a frame from the tokens of its elements. -/
def frameContent (o : Options) (frame : Frame) (region outer : Range) (ts : List Token) :
    Report Placed :=
  (merge o ts).andThen (match frame with
    | .parentheses => asGroup region outer
    | _ => asExpression region)

mutual

/-- The token of an element that opens at an index, inside `level` constructs. -/
def elementToken (o : Options) (level index : Nat) : Element → Report Token
  | .glyph c => .ok (.glyph c (.ofWidth index 1))
  | .fraction numerator denominator =>
    let above := Range.ofWidth (index + 1) (Row.width numerator)
    let below := Range.ofWidth (above.stop + 1) (Row.width denominator)
    let range := Range.ofWidth index (Row.width numerator + Row.width denominator + 3)
    match o.isTooDeep level with
    | some limit => deepToken limit none range
    | none =>
      ((rowTokens o (level + 1) above.start numerator).andThen fun ts =>
        (merge o ts).andThen (asExpression above)).andThen fun num =>
      ((rowTokens o (level + 1) below.start denominator).andThen fun ts =>
        (merge o ts).andThen (asExpression below)).map fun den =>
      .operand (num.pair .divide den (.ofWidth above.stop 1)) false range
  | .framed frame body =>
    let inner := Range.ofWidth (index + 1) (Row.width body)
    let range := Range.ofWidth index (Row.width body + 2)
    match o.isTooDeep level with
    | some limit => deepToken limit (some frame) range
    | none =>
      ((rowTokens o (level + 1) inner.start body).andThen
        (frameContent o frame inner range)).map (frameToken frame range)

/-- The tokens of elements from an index on, inside `level` constructs. -/
def rowTokens (o : Options) (level index : Nat) : List Element → Report (List Token)
  | [] => .ok []
  | e :: es =>
    (elementToken o level index e).andThen fun t =>
      (rowTokens o level (index + e.width) es).map (t :: ·)

end

/-! ## Rows -/

/-- The index at which a row starts, if its first element has a range there. -/
def start (base : Int) (r : Row) : Except Fault Nat :=
  match Range.between base (base + (r.head?.map Element.width).getD 0) with
  | .ok range => .ok range.start
  | .error issues => .error (.invalid issues)

/-- The region of a row that starts at an index. -/
def regionOf (index : Nat) (r : Row) : Range := .ofWidth index (Row.width r)

/-- The tokens of a row that starts at an index. -/
def tokens (o : Options) (index : Nat) (r : Row) : Report (List Token) :=
  (rowTokens o 0 index r).andThen (merge o)

/-- The expression of a row that starts at an index. -/
def expression (o : Options) (index : Nat) (r : Row) : Report Placed :=
  (tokens o index r).andThen (asExpression (regionOf index r))

/-- The group of a row that starts at an index, of which the glyph before it is a part. -/
def group (o : Options) (index : Nat) (r : Row) : Report Placed :=
  (tokens o index r).andThen fun ts =>
    match Range.between (index - 1) (index + Row.width r + 1) with
    | .ok outer => asGroup (regionOf index r) outer ts
    | .error issues => ⟨[], .error (.invalid issues)⟩

/-- The places of a row that starts at an integer, the end of the input included. -/
def marksAt (o : Options) (base : Int) (r : Row) : Report (List Mark) :=
  (Report.ofExcept (start base r)).andThen fun index =>
    (tokens o index r).map (Mark.all (endOf (regionOf index r)))

/-- The expression of a row that starts at an integer. -/
def expressionAt (o : Options) (base : Int) (r : Row) : Report Placed :=
  (Report.ofExcept (start base r)).andThen fun index => expression o index r

/-- The group of a row that starts at an integer. -/
def groupAt (o : Options) (base : Int) (r : Row) : Report Placed :=
  (Report.ofExcept (start base r)).andThen fun index => group o index r

end Reading

/-- The expression of a layout, which starts at index zero. -/
def readLayout (o : Options) (r : Layout.Row) : Report Placed := Reading.expression o 0 r

end PlanarMath
