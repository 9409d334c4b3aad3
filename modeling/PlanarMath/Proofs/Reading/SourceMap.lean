import Mathlib
import PlanarMath.Proofs.Expr.Walk
import PlanarMath.Proofs.Number.Magnitude
import PlanarMath.Proofs.Reading.Located

/-!
# Expressions and the layout under them

A tree that was read from a layout points back to it (`Mapped`).  A symbol has the range of the letters that
spell it, a number ends where its digits end, and the sign of an operator is a glyph that stands for the
operator, or the bar of a fraction.  The only node that nothing spells is the name of the function that a
construct applies to its content; it has the range of the construct.

    - 2 5 * s i n x     -25 ends with the digits at [1, 3), the product has its sign at 3, sin is at [4, 7)
-/

namespace PlanarMath

open Grammar Layout Literal

/-! ## Glyphs of operators -/

/-- The glyphs that an operator with one operand leaves its sign to. -/
def UnaryOp.glyphs : UnaryOp → List Char
  | .negate => ['-', '−']
  | .factorial | .inverse => []

/-- The glyphs that stand for an operator between its operands. -/
def BinaryOp.glyphs : BinaryOp → List Char
  | .add => ['+', '-', '−']
  | .multiply => ['*', '×', '·']
  | .divide => ['÷', '/']
  | .equal => ['=']
  | .lessThan => ['<']
  | .greaterThan => ['>']
  | .lessThanEqual => ['≤']
  | .greaterThanEqual => ['≥']
  | .exponent => []

theorem Grammar.mem_glyphs_of_operator? {c : Char} {op : BinaryOp} (h : (roleOf c).operator? = some op) :
    c ∈ op.glyphs := by
  unfold roleOf at h
  split at h <;> simp only [Role.operator?, Option.some.injEq, reduceCtorEq] at h <;> subst h <;> decide

theorem Grammar.mem_glyphs_of_minus {c : Char} (h : roleOf c = .minus) : c ∈ UnaryOp.negate.glyphs := by
  unfold roleOf at h
  split at h <;> first | decide | cases h

/-! ## What a layout says -/

namespace Layout.Row

variable (table : FunctionTable) (base : Nat) (r : Row)

/-- A word of the table that is spelt in a range, or a letter, under its name. -/
def Names (name : String) (range : Range) : Prop :=
  ∃ text, r.Spells base text range ∧
    (table.lookup (String.ofList text) = some name ∨ ∃ c, text = [c] ∧ name = c.toString)

/-- A range ends with digits that are worth a number without its sign. -/
def Writes (v : Number) (range : Range) : Prop :=
  ∃ text digits, r.Spells base text digits ∧ IsDigits text ∧
    Number.ofText? (String.ofList text) = some v.abs ∧ range.start ≤ digits.start ∧ range.stop = digits.stop

/-- A range is that of a construct which applies a function to its content. -/
def Applies (name : String) (range : Range) : Prop :=
  ∃ i frame body, r.Stands base i (.framed frame body) ∧ Reading.functionOf? frame = some name ∧
    range = .ofWidth i (Element.framed frame body).width

/-- A range is the index of the bar of a fraction. -/
def Bar (range : Range) : Prop :=
  ∃ i above below, r.Stands base i (.fraction above below) ∧ range = .ofWidth (i + 1 + width above) 1

/-- The sign of an operator with one operand. -/
def Signs (glyphs : List Char) (range : Range) : Prop := ∃ c ∈ glyphs, r.Spells base [c] range

end Layout.Row

namespace Expr

/-- An expression points back to the layout that it was read from. -/
inductive Mapped (table : FunctionTable) (base : Nat) (r : Row) : Expr → Prop
  | number {v range} : r.Writes base v range → Mapped table base r (.number v (some range))
  | symbol {name range} : r.Names table base name range → Mapped table base r (.symbol name (some range))
  | error {range?} : Mapped table base r (.error range?)
  | unary {op arg range? sign?} : Mapped table base r arg →
      (∀ sign, sign? = some sign → r.Signs base op.glyphs sign) →
      Mapped table base r (.unary op arg range? sign?)
  | binary {op args range? sign?} : (∀ a ∈ args, Mapped table base r a) →
      (∀ sign, sign? = some sign → r.Signs base op.glyphs sign ∨ op = .divide ∧ r.Bar base sign) →
      Mapped table base r (.binary op args range? sign?)
  | tuple {items range?} : (∀ a ∈ items, Mapped table base r a) → Mapped table base r (.tuple items range?)
  | call {target args argsRange? range?} : Mapped table base r target → (∀ a ∈ args, Mapped table base r a) →
      Mapped table base r (.call target args argsRange? range?)
  /-- The function of a construct is not spelt. -/
  | applied {name args argsRange? range} : r.Applies base name range →
      (∀ a ∈ args, Mapped table base r a) →
      Mapped table base r (.call (.symbol name (some range)) args argsRange? (some range))

variable {table : FunctionTable} {base : Nat} {r : Row} {e : Expr}

theorem Mapped.operandsUnder (h : Mapped table base r e) (op : BinaryOp) :
    ∀ a ∈ e.operandsUnder op, Mapped table base r a := by
  rcases e.operandsUnder_cases op with ho | ⟨args, range, sign, rfl, ho⟩
  · rw [ho]
    exact List.forall_mem_singleton.2 h
  · rw [ho]
    cases h with
    | binary hargs _ => exact hargs

theorem Mapped.arguments (h : Mapped table base r e) : ∀ a ∈ e.arguments, Mapped table base r a := by
  cases h with
  | tuple hitems => exact hitems
  | number h => exact List.forall_mem_singleton.2 (.number h)
  | symbol h => exact List.forall_mem_singleton.2 (.symbol h)
  | error => exact List.forall_mem_singleton.2 .error
  | unary h hs => exact List.forall_mem_singleton.2 (.unary h hs)
  | binary h hs => exact List.forall_mem_singleton.2 (.binary h hs)
  | call ht ha => exact List.forall_mem_singleton.2 (.call ht ha)
  | applied hf ha => exact List.forall_mem_singleton.2 (.applied hf ha)

end Expr

namespace Placed

open PlanarMath.Expr

/-- An expression from an interval, mapped to a layout. -/
structure MappedIn (table : FunctionTable) (base : Nat) (r : Row) (i j : Nat) (e : Placed) : Prop where
  start : i ≤ e.range.start
  stop : e.range.stop ≤ j
  mapped : e.expr.Mapped table base r

namespace MappedIn

variable {table : FunctionTable} {base i j k : Nat} {r : Row} {left right e target args : Placed}

theorem le (h : MappedIn table base r i j e) : i ≤ j := by
  have := h.start
  have := h.stop
  have := e.range.start_le_stop
  omega

/-- Two expressions from intervals one after the other are in the span of their ranges. -/
theorem span_bounds (hl : MappedIn table base r i k left) (hr : MappedIn table base r k j right) :
    i ≤ (left.range.span right.range).start ∧ (left.range.span right.range).stop ≤ j := by
  have := hl.start
  have := hl.stop
  have := hr.start
  have := hr.stop
  have := left.range.start_le_stop
  have := right.range.start_le_stop
  simp only [Range.span]
  omega

theorem join {op : BinaryOp} {sign? : Option Range} (hl : MappedIn table base r i k left)
    (hr : MappedIn table base r k j right) (hs : ∀ sign, sign? = some sign → r.Signs base op.glyphs sign) :
    MappedIn table base r i j (left.join op right sign?) where
  start := (hl.span_bounds hr).1
  stop := (hl.span_bounds hr).2
  mapped := by
    refine .binary ?_ fun sign h => .inl (hs sign h)
    exact List.forall_mem_append.2 ⟨hl.mapped.operandsUnder op, hr.mapped.operandsUnder op⟩

theorem pair {op : BinaryOp} {sign : Range} (hl : MappedIn table base r i k left)
    (hr : MappedIn table base r k j right)
    (hs : r.Signs base op.glyphs sign ∨ op = .divide ∧ r.Bar base sign) :
    MappedIn table base r i j (left.pair op right sign) where
  start := (hl.span_bounds hr).1
  stop := (hl.span_bounds hr).2
  mapped := by
    refine .binary (List.forall_mem_cons.2 ⟨hl.mapped, List.forall_mem_singleton.2 hr.mapped⟩) ?_
    intro s h
    cases h
    exact hs

/-- A sign that is folded into a number leaves its digits where they are. -/
theorem negate {sign : Range} (hs : r.Signs base UnaryOp.negate.glyphs sign) (hi : sign.stop ≤ i)
    (h : MappedIn table base r i j e) : MappedIn table base r sign.start j (e.negate sign) := by
  have hstart := h.start
  have hstop := h.stop
  have hsign := sign.start_le_stop
  have hle := e.range.start_le_stop
  have hspan : (sign.span e.range).start = sign.start ∧ (sign.span e.range).stop = e.range.stop := by
    simp only [Range.span]
    omega
  refine ⟨?_, ?_, ?_⟩
  · show sign.start ≤ (sign.span e.range).start
    omega
  · show (sign.span e.range).stop ≤ j
    omega
  show (e.expr.negation (sign.span e.range) sign).Mapped table base r
  unfold negation
  split
  · next v range? heq =>
    have hmapped := h.mapped
    have hrange := e.range?_expr
    rw [heq] at hmapped hrange
    cases hmapped with
    | number hw =>
      obtain rfl := Option.some.inj hrange
      obtain ⟨text, digits, hspells, hdigits, hvalue, hfrom, hto⟩ := hw
      rw [← Number.abs_neg] at hvalue
      refine .number ⟨text, digits, hspells, hdigits, hvalue, ?_, ?_⟩
      · omega
      · omega
  · refine .unary h.mapped fun s hs' => ?_
    cases hs'
    exact hs

theorem power {raised : Range} (h : MappedIn table base r i k e) (hk : k ≤ raised.start)
    (hx : MappedIn table base r raised.start raised.stop right) :
    MappedIn table base r i raised.stop (e.power right raised) where
  start := Nat.le_trans h.le hk
  stop := Nat.le_refl _
  mapped := .binary (List.forall_mem_cons.2 ⟨h.mapped, List.forall_mem_singleton.2 hx.mapped⟩) nofun

theorem factorial {sign : Range} (h : MappedIn table base r i k e) (hk : k ≤ sign.start) :
    MappedIn table base r i sign.stop (e.factorial sign) := by
  have hstart := h.start
  have hstop := h.stop
  have hsign := sign.start_le_stop
  have hle := e.range.start_le_stop
  refine ⟨?_, ?_, .unary h.mapped nofun⟩
  · simp only [Placed.factorial, Range.span]
    omega
  · simp only [Placed.factorial, Range.span]
    omega

theorem inverse {named raised : Range} (h : MappedIn table base r named.start named.stop e)
    (hr : named.stop ≤ raised.start) :
    MappedIn table base r named.start raised.stop (e.inverse named raised) := by
  have hnamed := named.start_le_stop
  have hraised := raised.start_le_stop
  refine ⟨?_, ?_, .unary h.mapped nofun⟩
  · simp only [Placed.inverse, Range.span]
    omega
  · simp only [Placed.inverse, Range.span]
    omega

theorem apply (ht : MappedIn table base r i k target) (ha : MappedIn table base r k j args) :
    MappedIn table base r i j (target.apply args) where
  start := (ht.span_bounds ha).1
  stop := (ht.span_bounds ha).2
  mapped := by
    rw [apply_expr]
    exact .call ht.mapped ha.mapped.arguments

end MappedIn

end Placed

namespace Reading

open Token

/-- Expressions from intervals one after another lie between the first and the last index. -/
theorem mapped_of_spread {table : FunctionTable} {base i j : Nat} {r : Row} {es : List Placed}
    (h : Spread (Placed.MappedIn table base r) i es j) :
    ∀ e ∈ es.map (·.expr), e.Mapped table base r := by
  induction es generalizing i with
  | nil => exact List.forall_mem_nil _
  | cons e es ih =>
    obtain ⟨k, he, hes⟩ := h
    exact List.forall_mem_cons.2 ⟨he.mapped, ih hes⟩

/-- All constructions of reading keep expressions mapped. -/
theorem located_mapped (table : FunctionTable) (limit? : Option Int) (base : Nat) (r : Row) :
    Located { functions := table, limit? := limit? } base r (Placed.MappedIn table base r) where
  mono i i' j j' e hi hj h := ⟨Nat.le_trans hi h.start, Nat.le_trans h.stop hj, h.mapped⟩
  operand node function range h := h
  inverse name named exponent raised _ h hr := h.inverse hr
  call i k j target args ht ha := ht.apply ha
  join i k j op left right sign? _ hs hl hr := by
    refine hl.join hr fun sign heq => ?_
    cases hs with
    | unwritten => cases heq
    | written hglyph hop =>
      cases heq
      exact ⟨_, mem_glyphs_of_operator? hop, hglyph⟩
  pair i k j op left right c sign _ hglyph hop hl hr :=
    hl.pair hr (.inl ⟨c, mem_glyphs_of_operator? hop, hglyph⟩)
  negate i j e c sign hglyph hc hi h := h.negate ⟨c, mem_glyphs_of_minus hc, hglyph⟩ hi
  power i j e exponent raised hx h hj := h.power hj hx.1
  factorial i j e c sign _ _ h hj := h.factorial hj
  name run s function range hn _ hspells := by
    refine ⟨Nat.le_refl _, Nat.le_refl _, .symbol ⟨_, hspells, ?_⟩⟩
    cases hn with
    | function hlook => exact .inl hlook
    | @letter c _ _ => exact .inr ⟨c, rfl, rfl⟩
  number run v range hrun hv hspells := by
    have hdigits : IsDigits (run.map (·.1)) := by
      intro c hc
      obtain ⟨p, hp, rfl⟩ := List.mem_map.1 hc
      exact hrun p hp
    have hvalue : Number.ofText? (String.ofList (run.map (·.1))) = some v.abs := by
      rw [Number.abs_of_ofText? hdigits hv]
      exact hv
    exact ⟨Nat.le_refl _, Nat.le_refl _,
      .number ⟨_, range, hspells, hdigits, hvalue, Nat.le_refl _, rfl⟩⟩
  error range := ⟨Nat.le_refl _, Nat.le_refl _, .error⟩
  fraction i above below num den hx hnum hden := by
    have hnum' : Placed.MappedIn table base r (i + 1) (i + Row.width above + 2) num :=
      ⟨hnum.start, Nat.le_trans hnum.stop (by omega), hnum.mapped⟩
    exact hnum'.pair hden (.inr ⟨rfl, i, above, below, hx, rfl⟩)
  enclosed i frame body s inner hs hx h := by
    refine ⟨Nat.le_refl _, Nat.le_refl _, .applied ⟨i, frame, body, hx, hs, rfl⟩ ?_⟩
    exact List.forall_mem_singleton.2 h.mapped
  tuple i j items range _ h _ _ := ⟨Nat.le_refl _, Nat.le_refl _, .tuple (mapped_of_spread h)⟩

end Reading

/-- **Source map.**  Under a table whose functions have names, every layout is read as an expression whose
nodes all point back to the layout. -/
theorem readLayout_mapped {table : FunctionTable} (ht : table.HasNames) (limit? : Option Int) (row : Row) :
    ∃ found e, readLayout { functions := table, limit? := limit? } row = ⟨found, .ok e⟩ ∧
      e.expr.Mapped table 0 row := by
  let o : Options := { functions := table, limit? := limit? }
  obtain ⟨found, e, h⟩ := Reading.exists_of_isOk (readLayout_isOk (o := o) ht row)
  have hmapped := (Reading.located_mapped table limit? 0 row).expression h
  exact ⟨found, e, h, hmapped.mapped⟩

/-- A folded sign, a word, a radical and a fraction. -/
theorem readLayout_mapped_of_product :
    let row : Row := [.glyph '-', .glyph '2', .glyph '5', .glyph 's', .glyph 'i', .glyph 'n',
      .framed .radical [.glyph 'x'], .fraction [.glyph 'y'] [.glyph '3']]
    FunctionTable.standard.HasNames ∧ ∃ e argument, readLayout {} row = .ok e ∧
      e.expr = .binary .multiply [.number (.int (-25)) (some (.ofWidth 0 3)), argument]
        (some (.ofWidth 0 13)) none ∧
      e.expr.Mapped .standard 0 row := by
  intro row
  have hnames := FunctionTable.hasNames_standard
  let root : Expr := .call (.symbol "sqrt" (some (.ofWidth 6 3))) [.symbol "x" (some (.ofWidth 7 1))]
    (some (.ofWidth 7 1)) (some (.ofWidth 6 3))
  let quotient : Expr := .binary .divide [.symbol "y" (some (.ofWidth 10 1)),
    .number (.int 3) (some (.ofWidth 12 1))] (some (.ofWidth 10 3)) (some (.ofWidth 11 1))
  let argument : Expr := .call (.symbol "sin" (some (.ofWidth 3 3)))
    [.binary .multiply [root, quotient] (some (.ofWidth 6 7)) none] (some (.ofWidth 6 7))
    (some (.ofWidth 3 10))
  have hrow : readLayout {} row = .ok ⟨.binary .multiply [.number (.int (-25)) (some (.ofWidth 0 3)),
    argument] (some (.ofWidth 0 13)) none, .ofWidth 0 13, rfl⟩ := by cbv
  obtain ⟨found, e, h, hmapped⟩ := readLayout_mapped hnames none row
  rw [hrow] at h
  cases h
  exact ⟨hnames, _, argument, hrow, rfl, hmapped⟩

end PlanarMath
