import PlanarMath.Session

/-!
# Transcribers

A transcriber answers one call after another.  Where a session is told how deep it is, a transcriber counts:
one up on the way into a construct, and one down on the way out, whether the construct was read or something
in it was refused.  This count is all that is left of a call when the next one comes.

    count before      construct nested too deep: an error      else its containers, at count + 1
    count after       the count before, also when a container was refused

A transcriber's reader of number literals gives a value, rejects the literal, or is itself stopped by a fault.
-/

namespace PlanarMath

/-! ## Counting -/

/-- An operation of a transcriber: from the count before it to what it reports and the count after it. -/
abbrev Counting (α : Type) := Int → Report α × Int

namespace Counting

variable {α β : Type}

/-- A report that has nothing to do with the count. -/
def ofReport (r : Report α) : Counting α := fun count => (r, count)

/-- One operation after another; when the first is stopped, the count is left as it is by then. -/
def andThen (x : Counting α) (f : α → Counting β) : Counting β := fun count =>
  let (r, after) := x count
  match r.result with
  | .error e => (⟨r.found, .error e⟩, after)
  | .ok a =>
    let (next, last) := f a after
    (⟨r.found ++ next.found, next.result⟩, last)

/-- The same operation with another result. -/
def map (f : α → β) (x : Counting α) : Counting β := fun count =>
  let (r, after) := x count
  (r.map f, after)

/-- An operation inside one construct more, which is left whatever comes of the operation. -/
def inside (x : Counting α) : Counting α := fun count =>
  let (r, after) := x (count + 1)
  (r, after - 1)

end Counting

/-! ## Methods -/

/-- What a transcriber reads by: the function table, the reader of number literals, which may reject one or be
stopped itself, and how deep constructs may be nested, when that is limited. -/
structure Method where
  functions : FunctionTable := .standard
  number : String → Except Fault (Option Number) := fun s => .ok (Number.ofText? s)
  limit? : Option Int := none

/-- Whether a construct is nested too deep at a count. -/
def Method.isTooDeep (m : Method) (count : Int) : Option Int := m.limit?.filter (· ≤ count)

/-- The method of options, whose reader of number literals is never stopped. -/
def Options.method (o : Options) : Method where
  functions := o.functions
  number s := .ok (o.number s)
  limit? := o.limit?

namespace Method

open Layout Reading Token

variable (m : Method)

/-- The operand of a numeral, with a complaint when it has no value. -/
def numeral (text : List Char) (range : Range) : Report Token :=
  match m.number (String.ofList text) with
  | .error f => ⟨[], .error f⟩
  | .ok value? =>
    let (complaints, t) := ofNumeral (fun _ => value?) text range
    ⟨complaints, .ok t⟩

/-- The tokens with all numerals read as numbers. -/
def numerals (ts : List Token) : Report (List Token) :=
  match ts with
  | [] => .ok []
  | t :: rest =>
    match numeralRun false (t :: rest) with
    | [] => (numerals rest).map (t :: ·)
    | (c, r) :: others =>
      if c = '.' ∧ others = [] then (numerals rest).map (t :: ·)
      else
        (m.numeral (c :: others.map (·.1)) (spanOf r others)).andThen fun number =>
          (numerals (rest.drop others.length)).map (number :: ·)
termination_by ts.length
decreasing_by
  · exact Nat.lt_succ_self _
  · exact Nat.lt_succ_self _
  · simp only [List.length_drop, List.length_cons]; omega

/-- The tokens that the grammar sees, from those of the elements. -/
def merge (ts : List Token) : Report (List Token) :=
  match mergeWords m.functions ts with
  | .error f => ⟨[], .error f⟩
  | .ok ts => (m.numerals ts).map fun ts => ts.filter fun t => !isBlank t

/-- The content of a frame from the tokens of its elements. -/
def frameContent (frame : Frame) (region outer : Range) (ts : List Token) : Report Placed :=
  (m.merge ts).andThen (match frame with
    | .parentheses => asGroup region outer
    | _ => asExpression region)

/-- The expression of a region from the operation that gives the tokens of its elements. -/
def content (region : Range) (x : Counting (List Token)) : Counting Placed :=
  x.andThen fun ts => .ofReport ((m.merge ts).andThen (asExpression region))

/-- The content of a frame from the operation that gives the tokens of its elements. -/
def framedContent (frame : Frame) (region outer : Range) (x : Counting (List Token)) : Counting Placed :=
  x.andThen fun ts => .ofReport (m.frameContent frame region outer ts)

/-- What is inside a construct, unless it is nested too deep. -/
def unlessDeep (frame? : Option Frame) (range : Range) (x : Counting Token) : Counting Token := fun count =>
  match m.isTooDeep count with
  | some limit => (deepToken limit frame? range, count)
  | none => x.inside count

mutual

/-- The token of an element that opens at an index. -/
def element (index : Nat) : Element → Counting Token
  | .glyph c => .ofReport (.ok (.glyph c (.ofWidth index 1)))
  | .fraction numerator denominator =>
    let above := Range.ofWidth (index + 1) (Row.width numerator)
    let below := Range.ofWidth (above.stop + 1) (Row.width denominator)
    let range := Range.ofWidth index (Row.width numerator + Row.width denominator + 3)
    m.unlessDeep none range <|
      (m.content above (elements above.start numerator)).andThen fun num =>
      (m.content below (elements below.start denominator)).map fun den =>
      .operand (num.pair .divide den (.ofWidth above.stop 1)) false range
  | .framed frame body =>
    let inner := Range.ofWidth (index + 1) (Row.width body)
    let range := Range.ofWidth index (Row.width body + 2)
    m.unlessDeep (some frame) range <|
      (m.framedContent frame inner range (elements inner.start body)).map (frameToken frame range)

/-- The tokens of elements from an index on. -/
def elements (index : Nat) : List Element → Counting (List Token)
  | [] => .ofReport (.ok [])
  | e :: es =>
    (element index e).andThen fun t => (elements (index + e.width) es).map (t :: ·)

end

/-- The tokens of a row that starts at an index. -/
def tokens (index : Nat) (r : Row) : Counting (List Token) :=
  (m.elements index r).andThen fun ts => .ofReport (m.merge ts)

/-- The expression of a row that starts at an index. -/
def expression (index : Nat) (r : Row) : Counting Placed :=
  m.content (regionOf index r) (m.elements index r)

/-- The group of a row that starts at an index, of which the glyph before it is a part. -/
def group (index : Nat) (r : Row) : Counting Placed :=
  (m.tokens index r).andThen fun ts => .ofReport <|
    match Range.between (index - 1) (index + Row.width r + 1) with
    | .ok outer => asGroup (regionOf index r) outer ts
    | .error issues => ⟨[], .error (.invalid issues)⟩

/-- An operation on a row that starts at an integer. -/
def startingAt {α : Type} (base : Int) (r : Row) (f : Nat → Counting α) : Counting α :=
  (Counting.ofReport (.ofExcept (start base r))).andThen f

/-- What comes of a call. -/
def perform : Call → Counting Answer
  | .layout r => (m.expression 0 r).map fun e => .expression e.expr
  | .expression base r => (startingAt base r fun i => m.expression i r).map fun e => .expression e.expr
  | .group base r => (startingAt base r fun i => m.group i r).map fun e => .expression e.expr
  | .tokens base r => (startingAt base r fun i =>
      (m.tokens i r).map (Mark.all (endOf (regionOf i r)))).map .tokens

end Method

/-! ## Calls -/

/-- A method, and the count of constructs that the transcriber is inside. -/
structure Transcriber where
  method : Method
  count : Int := 0

namespace Transcriber

/-- The report of a call, and the transcriber after it. -/
def call (t : Transcriber) (c : Call) : Report Answer × Transcriber :=
  let (r, count) := t.method.perform c t.count
  (r, { t with count })

/-- The report of each of several calls, with the count that it leaves. -/
def callAll (t : Transcriber) : List Call → List (Report Answer × Int)
  | [] => []
  | c :: cs =>
    let (r, t) := t.call c
    (r, t.count) :: t.callAll cs

end Transcriber

end PlanarMath
