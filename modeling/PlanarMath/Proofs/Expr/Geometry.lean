import PlanarMath.Proofs.Expr.Walk

/-!
# The geometry of expressions

How the ranges in a tree lie to one another.  Operands and items lie one behind the other, an operator
covers them from the first to the last, and every node covers what is directly below it.  A power is the
exception: it has the range of what is raised, and leaves out its base (`Spaced`).

All constructions keep that when they are given parts from intervals one after another (`Arranged`).
-/

namespace PlanarMath

namespace Expr

/-- What is directly below an expression; the arguments of a call are a tuple. -/
def children : Expr → List Expr
  | number .. | symbol .. | error .. => []
  | unary _ arg _ _ => [arg]
  | binary _ args _ _ => args
  | tuple items _ => items
  | call target args argsRange _ => [target, tuple args argsRange]

/-- What is directly below an expression, the base of a power aside. -/
def covered : Expr → List Expr
  | binary .exponent args _ _ => args.tail
  | e => e.children

/-- The range of one expression contains that of another. -/
def Covers (e c : Expr) : Prop := ∃ r s, e.range? = some r ∧ c.range? = some s ∧ r.contains s

/-- One expression ends no later than another starts. -/
def Before (a b : Expr) : Prop := ∃ r s, a.range? = some r ∧ b.range? = some s ∧ r.stop ≤ s.start

/-- A range from the start of the first expression of a list to the end of the last. -/
def Spans (es : List Expr) (range? : Option Range) : Prop :=
  ∃ first last r s, es.head? = some first ∧ es.getLast? = some last ∧ first.range? = some r ∧
    last.range? = some s ∧ range? = some (r.span s)

/-- How a node lies to those directly below it; `raised` tells the ranges in which an expression may be
raised as an exponent. -/
structure Spaced (raised : Expr → Range → Prop) (n : Expr) : Prop where
  operands : ∀ op args r s, n = binary op args r s → args.Pairwise Before
  items : ∀ items r, n = tuple items r → items.Pairwise Before
  spans : ∀ op args r s, n = binary op args r s → op ≠ .exponent → Spans args r
  exponent : ∀ args r s, n = binary .exponent args r s →
    ∃ base exponent range, args = [base, exponent] ∧ r = some range ∧ raised exponent range
  covers : ∀ c ∈ n.covered, n.Covers c

/-- An expression lies between two indices. -/
def LiesIn (i j : Nat) (e : Expr) : Prop := ∃ r, e.range? = some r ∧ i ≤ r.start ∧ r.stop ≤ j

/-- All nodes of an expression lie between two indices, each well to those directly below it. -/
def Arranged (raised : Expr → Range → Prop) (i j : Nat) (e : Expr) : Prop :=
  ∀ n ∈ e.walk, n.LiesIn i j ∧ n.Spaced raised

variable {raised : Expr → Range → Prop} {i j k : Nat} {e : Expr}

theorem LiesIn.mono {i' j' : Nat} (hi : i' ≤ i) (hj : j ≤ j') (h : LiesIn i j e) : LiesIn i' j' e := by
  obtain ⟨r, hr, hstart, hstop⟩ := h
  exact ⟨r, hr, by omega, by omega⟩

theorem LiesIn.before {a b : Expr} (ha : LiesIn i k a) (hb : LiesIn k j b) : Before a b := by
  obtain ⟨r, hr, -, hstop⟩ := ha
  obtain ⟨s, hs, hstart, -⟩ := hb
  exact ⟨r, s, hr, hs, by omega⟩

theorem Arranged.mono {i' j' : Nat} (hi : i' ≤ i) (hj : j ≤ j') (h : Arranged raised i j e) :
    Arranged raised i' j' e := fun n hn => ⟨(h n hn).1.mono hi hj, (h n hn).2⟩

theorem Arranged.liesIn (h : Arranged raised i j e) : LiesIn i j e := (h e e.mem_walk_self).1

theorem Arranged.le (h : Arranged raised i j e) : i ≤ j := by
  obtain ⟨r, -, hi, hj⟩ := h.liesIn
  have := r.start_le_stop
  omega

theorem Arranged.spaced (h : Arranged raised i j e) : Spaced raised e := (h e e.mem_walk_self).2

/-! ## Nodes that put nothing side by side -/

/-- A node that is neither an operator with several operands nor a group only has to cover its parts. -/
theorem Spaced.of_covers {n : Expr} (hb : ∀ op args r s, n ≠ binary op args r s)
    (ht : ∀ items r, n ≠ tuple items r) (hc : ∀ c ∈ n.covered, n.Covers c) : Spaced raised n where
  operands op args r s h := absurd h (hb op args r s)
  items items r h := absurd h (ht items r)
  spans op args r s h := absurd h (hb op args r s)
  exponent args r s h := absurd h (hb _ args r s)
  covers := hc

theorem arranged_number (v : Number) {range : Range} (hi : i ≤ range.start) (hj : range.stop ≤ j) :
    Arranged raised i j (number v (some range)) :=
  List.forall_mem_singleton.2 ⟨⟨range, rfl, hi, hj⟩, .of_covers nofun nofun (List.forall_mem_nil _)⟩

theorem arranged_symbol (name : String) {range : Range} (hi : i ≤ range.start) (hj : range.stop ≤ j) :
    Arranged raised i j (symbol name (some range)) :=
  List.forall_mem_singleton.2 ⟨⟨range, rfl, hi, hj⟩, .of_covers nofun nofun (List.forall_mem_nil _)⟩

theorem arranged_error {range : Range} (hi : i ≤ range.start) (hj : range.stop ≤ j) :
    Arranged raised i j (error (some range)) :=
  List.forall_mem_singleton.2 ⟨⟨range, rfl, hi, hj⟩, .of_covers nofun nofun (List.forall_mem_nil _)⟩

theorem Arranged.unary {op : UnaryOp} {whole : Range} {sign? : Option Range} (h : Arranged raised i j e)
    (hw : ∃ r, e.range? = some r ∧ whole.contains r) (hi : i ≤ whole.start) (hj : whole.stop ≤ j) :
    Arranged raised i j (unary op e (some whole) sign?) := by
  obtain ⟨r, hr, hc⟩ := hw
  refine forall_walk_unary.2 ⟨⟨⟨whole, rfl, hi, hj⟩, .of_covers nofun nofun ?_⟩, h⟩
  exact List.forall_mem_singleton.2 ⟨whole, r, rfl, hr, hc⟩

/-! ## Lists of operands -/

/-- Operands one behind the other, all between two indices, from the start of a range to its end. -/
structure Operands (raised : Expr → Range → Prop) (i j : Nat) (es : List Expr) (range : Range) : Prop where
  before : es.Pairwise Before
  arranged : ∀ e ∈ es, Arranged raised i j e
  covered : ∀ e ∈ es, ∃ r, e.range? = some r ∧ range.contains r
  first : ∃ e r, es.head? = some e ∧ e.range? = some r ∧ r.start = range.start
  last : ∃ e r, es.getLast? = some e ∧ e.range? = some r ∧ r.stop = range.stop
  inside : i ≤ range.start ∧ range.stop ≤ j

theorem Operands.singleton {range : Range} (h : Arranged raised i j e) (hr : e.range? = some range) :
    Operands raised i j [e] range where
  before := List.pairwise_singleton _ _
  arranged := List.forall_mem_singleton.2 h
  covered := List.forall_mem_singleton.2 ⟨range, hr, range.contains_self⟩
  first := ⟨e, range, rfl, hr, rfl⟩
  last := ⟨e, range, rfl, hr, rfl⟩
  inside := by
    obtain ⟨r, hr', hi, hj⟩ := h.liesIn
    rw [hr] at hr'
    cases hr'
    exact ⟨hi, hj⟩

theorem Operands.append {es fs : List Expr} {r s : Range} (h : Operands raised i k es r)
    (h' : Operands raised k j fs s) : Operands raised i j (es ++ fs) (r.span s) := by
  obtain ⟨hi, hk⟩ := h.inside
  obtain ⟨hk', hj⟩ := h'.inside
  have hr := r.start_le_stop
  have hs := s.start_le_stop
  have hspan : (r.span s).start = r.start ∧ (r.span s).stop = s.stop := by
    simp only [Range.span]
    omega
  constructor
  · refine List.pairwise_append.2 ⟨h.before, h'.before, fun a ha b hb => ?_⟩
    exact (h.arranged a ha).liesIn.before (h'.arranged b hb).liesIn
  · refine List.forall_mem_append.2 ⟨fun e he => ?_, fun e he => ?_⟩
    · exact (h.arranged e he).mono (Nat.le_refl _) (by omega)
    · exact (h'.arranged e he).mono (by omega) (Nat.le_refl _)
  · refine List.forall_mem_append.2 ⟨fun e he => ?_, fun e he => ?_⟩
    · obtain ⟨t, ht, hc⟩ := h.covered e he
      exact ⟨t, ht, Range.contains_trans (r.span_contains_left s) hc⟩
    · obtain ⟨t, ht, hc⟩ := h'.covered e he
      exact ⟨t, ht, Range.contains_trans (r.span_contains_right s) hc⟩
  · obtain ⟨e, t, he, ht, hstart⟩ := h.first
    exact ⟨e, t, by rw [List.head?_append, he]; rfl, ht, by rw [hstart, hspan.1]⟩
  · obtain ⟨e, t, he, ht, hstop⟩ := h'.last
    exact ⟨e, t, by rw [List.getLast?_append, he]; rfl, ht, by rw [hstop, hspan.2]⟩
  · rw [hspan.1, hspan.2]
    exact ⟨hi, hj⟩

theorem covered_binary {op : BinaryOp} (hop : op ≠ .exponent) (args : List Expr) (r s : Option Range) :
    (binary op args r s).covered = args := by
  cases op <;> first | rfl | exact absurd rfl hop

/-- An operator over operands one behind the other, in their range. -/
theorem Operands.binary {op : BinaryOp} (hop : op ≠ .exponent) {es : List Expr} {range : Range}
    (h : Operands raised i j es range) (sign? : Option Range) :
    Arranged raised i j (binary op es (some range) sign?) := by
  refine forall_walk_binary.2 ⟨⟨⟨range, rfl, h.inside⟩, ?_⟩, h.arranged⟩
  have hspans : Spans es (some range) := by
    obtain ⟨e, r, he, hr, hstart⟩ := h.first
    obtain ⟨f, s, hf, hs, hstop⟩ := h.last
    obtain ⟨r', hr', hcr⟩ := h.covered e (List.mem_of_head? he)
    obtain ⟨s', hs', hcs⟩ := h.covered f (List.mem_of_getLast? hf)
    obtain rfl : r = r' := Option.some.inj (hr.symm.trans hr')
    obtain rfl : s = s' := Option.some.inj (hs.symm.trans hs')
    rw [Range.contains_iff] at hcr hcs
    refine ⟨e, f, r, s, he, hf, hr, hs, ?_⟩
    obtain ⟨start, stop, hle⟩ := range
    simp only [Range.span, Option.some.injEq, Range.mk.injEq] at *
    omega
  constructor
  · intro op' args r s heq
    cases heq
    exact h.before
  · intro items r heq
    cases heq
  · intro op' args r s heq _
    cases heq
    exact hspans
  · intro args r s heq
    cases heq
    exact absurd rfl hop
  · rw [covered_binary hop]
    intro c hc
    obtain ⟨s, hs, hcs⟩ := h.covered c hc
    exact ⟨range, s, rfl, hs, hcs⟩

/-- The first of several expressions one behind the other neither starts nor ends after the last. -/
theorem ends_le {es : List Expr} {first last : Expr} {r s : Range} (h : es.Pairwise Before)
    (hf : es.head? = some first) (hl : es.getLast? = some last) (hr : first.range? = some r)
    (hs : last.range? = some s) : r.start ≤ s.start ∧ r.stop ≤ s.stop := by
  match es with
  | [] => cases hf
  | [e] =>
    obtain rfl : e = first := Option.some.inj hf
    obtain rfl : e = last := Option.some.inj hl
    obtain rfl : r = s := Option.some.inj (hr.symm.trans hs)
    exact ⟨Nat.le_refl _, Nat.le_refl _⟩
  | e :: f :: es =>
    obtain rfl : e = first := Option.some.inj hf
    rw [List.getLast?_cons_cons] at hl
    obtain ⟨r', s', hr', hs', hle⟩ := (List.pairwise_cons.1 h).1 last (List.mem_of_getLast? hl)
    obtain rfl : r = r' := Option.some.inj (hr.symm.trans hr')
    obtain rfl : s = s' := Option.some.inj (hs.symm.trans hs')
    have := r.start_le_stop
    have := s.start_le_stop
    omega

/-- What an expression contributes to an operator lies in the range of the expression. -/
theorem Arranged.operandsUnder {op : BinaryOp} (hop : op ≠ .exponent) {range : Range}
    (h : Arranged raised i j e) (hr : e.range? = some range) :
    Operands raised i j (e.operandsUnder op) range := by
  rcases e.operandsUnder_cases op with ho | ⟨args, r, s, rfl, ho⟩
  · rw [ho]
    exact .singleton h hr
  · rw [ho]
    obtain ⟨⟨hin, hspaced⟩, hargs⟩ := forall_walk_binary.1 h
    obtain rfl : r = some range := hr
    obtain ⟨first, last, a, b, hf, hl, ha, hb, hspan⟩ := hspaced.spans op args _ s rfl hop
    have hbefore := hspaced.operands op args _ s rfl
    obtain ⟨hstart, hstop⟩ := ends_le hbefore hf hl ha hb
    obtain rfl : range = a.span b := Option.some.inj hspan
    have hinside : i ≤ (a.span b).start ∧ (a.span b).stop ≤ j := by
      obtain ⟨r, hr, hi, hj⟩ := hin
      cases hr
      exact ⟨hi, hj⟩
    refine ⟨hbefore, hargs, ?_, ⟨first, a, hf, ha, ?_⟩, ⟨last, b, hl, hb, ?_⟩, hinside⟩
    · intro c hc
      have hcovers := hspaced.covers c (by rwa [covered_binary hop])
      obtain ⟨r, t, hr, ht, hrt⟩ := hcovers
      cases hr
      exact ⟨t, ht, hrt⟩
    · simp only [Range.span]
      omega
    · simp only [Range.span]
      omega

/-! ## Groups and calls -/

/-- A group of expressions one behind the other, in a range that contains theirs. -/
theorem arranged_tuple {items : List Expr} {range : Range} (hb : items.Pairwise Before)
    (ha : ∀ e ∈ items, Arranged raised i j e)
    (hc : ∀ e ∈ items, ∃ r, e.range? = some r ∧ range.contains r)
    (hin : i ≤ range.start ∧ range.stop ≤ j) : Arranged raised i j (tuple items (some range)) := by
  refine forall_walk_tuple.2 ⟨⟨⟨range, rfl, hin⟩, ?_⟩, ha⟩
  constructor
  · intro op args r s heq
    cases heq
  · intro items' r heq
    cases heq
    exact hb
  · intro op args r s heq
    cases heq
  · intro args r s heq
    cases heq
  · intro c hcm
    obtain ⟨s, hs, hcs⟩ := hc c hcm
    exact ⟨range, s, rfl, hs, hcs⟩

/-- A group of one expression, in the range of the expression. -/
theorem Arranged.alone {range : Range} (h : Arranged raised i j e) (hr : e.range? = some range) :
    Arranged raised i j (tuple [e] (some range)) := by
  have hin := Operands.singleton h hr
  exact arranged_tuple hin.before hin.arranged hin.covered hin.inside

/-- The arguments that an expression stands for are a group in its place. -/
theorem Arranged.arguments {range : Range} (h : Arranged raised i j e) (hr : e.range? = some range) :
    Arranged raised i j (tuple e.arguments (some range)) := by
  cases e with
  | tuple items r =>
    obtain rfl : r = some range := hr
    exact h
  | _ => exact h.alone hr

theorem Arranged.call {target : Expr} {args : List Expr} {inner whole : Range}
    (ht : Arranged raised i j target) (ha : Arranged raised i j (tuple args (some inner)))
    (hc : ∃ r, target.range? = some r ∧ whole.contains r) (hin : whole.contains inner)
    (hi : i ≤ whole.start) (hj : whole.stop ≤ j) :
    Arranged raised i j (call target args (some inner) (some whole)) := by
  obtain ⟨r, hr, hcr⟩ := hc
  refine forall_walk_call.2 ⟨⟨⟨whole, rfl, hi, hj⟩, .of_covers nofun nofun ?_⟩, ht, ha⟩
  refine List.forall_mem_cons.2 ⟨⟨whole, r, rfl, hr, hcr⟩, List.forall_mem_singleton.2 ?_⟩
  exact ⟨whole, inner, rfl, rfl, hin⟩

/-! ## Powers -/

/-- A power has the range of its exponent's element, which lies behind the base. -/
theorem Arranged.power {base exponent : Expr} {range : Range} (hb : Arranged raised i k base)
    (hk : k ≤ range.start) (hx : Arranged raised range.start range.stop exponent)
    (hr : raised exponent range) :
    Arranged raised i range.stop (binary .exponent [base, exponent] (some range) none) := by
  obtain ⟨b, hbase, hi, hbk⟩ := hb.liesIn
  obtain ⟨x, hxr, hstart, hstop⟩ := hx.liesIn
  have hle := b.start_le_stop
  have hrange := range.start_le_stop
  have hargs : ∀ e ∈ [base, exponent], Arranged raised i range.stop e :=
    List.forall_mem_cons.2 ⟨hb.mono (Nat.le_refl _) (by omega),
      List.forall_mem_singleton.2 (hx.mono (by omega) (Nat.le_refl _))⟩
  refine forall_walk_binary.2 ⟨⟨⟨range, rfl, by omega, Nat.le_refl _⟩, ?_⟩, hargs⟩
  constructor
  · intro op args r s heq
    cases heq
    exact List.pairwise_pair.2 ⟨b, x, hbase, hxr, by omega⟩
  · intro items r heq
    cases heq
  · intro op args r s heq hop
    cases heq
    exact absurd rfl hop
  · intro args r s heq
    cases heq
    exact ⟨base, exponent, range, rfl, rfl, hr⟩
  · exact List.forall_mem_singleton.2 ⟨range, x, rfl, hxr, Range.contains_iff.2 ⟨hstart, hstop⟩⟩

end Expr

/-! ## Expressions in their places -/

namespace Placed

open PlanarMath.Expr

variable {raised : Expr → Range → Prop} {i j k : Nat} {l r e target args : Placed}

theorem arranged_bounds (h : Arranged raised i j e.expr) : i ≤ e.range.start ∧ e.range.stop ≤ j :=
  (Operands.singleton h e.range?_expr).inside

theorem arranged_join {op : BinaryOp} (hop : op ≠ .exponent) (hl : Arranged raised i k l.expr)
    (hr : Arranged raised k j r.expr) (sign? : Option Range) :
    Arranged raised i j (l.join op r sign?).expr :=
  ((hl.operandsUnder hop l.range?_expr).append (hr.operandsUnder hop r.range?_expr)).binary hop sign?

theorem arranged_pair {op : BinaryOp} (hop : op ≠ .exponent) (hl : Arranged raised i k l.expr)
    (hr : Arranged raised k j r.expr) (sign : Range) : Arranged raised i j (l.pair op r sign).expr :=
  ((Operands.singleton hl l.range?_expr).append (Operands.singleton hr r.range?_expr)).binary hop sign

theorem arranged_negate {sign : Range} (hs : sign.stop ≤ i) (h : Arranged raised i j e.expr) :
    Arranged raised sign.start j (e.negate sign).expr := by
  obtain ⟨hi, hj⟩ := arranged_bounds h
  have hsign := sign.start_le_stop
  have hle := e.range.start_le_stop
  have hspan : sign.start ≤ (sign.span e.range).start ∧ (sign.span e.range).stop ≤ j := by
    simp only [Range.span]
    omega
  show Arranged raised sign.start j (e.expr.negation (sign.span e.range) sign)
  unfold negation
  split
  · exact arranged_number _ hspan.1 hspan.2
  · refine Arranged.unary (h.mono (by omega) (Nat.le_refl j)) ?_ hspan.1 hspan.2
    exact ⟨e.range, e.range?_expr, sign.span_contains_right e.range⟩

theorem arranged_factorial {sign : Range} (h : Arranged raised i j e.expr) (hs : j ≤ sign.start) :
    Arranged raised i sign.stop (e.factorial sign).expr := by
  obtain ⟨hi, hj⟩ := arranged_bounds h
  have hsign := sign.start_le_stop
  have hle := e.range.start_le_stop
  refine Arranged.unary (h.mono (Nat.le_refl i) (by omega)) ?_ ?_ ?_
  · exact ⟨e.range, e.range?_expr, e.range.span_contains_left sign⟩
  · simp only [Range.span]
    omega
  · simp only [Range.span]
    omega

theorem arranged_inverse {named range : Range} (h : Arranged raised named.start named.stop e.expr)
    (hr : named.stop ≤ range.start) :
    Arranged raised named.start range.stop (e.inverse named range).expr := by
  obtain ⟨hi, hj⟩ := arranged_bounds h
  have hnamed := named.start_le_stop
  have hrange := range.start_le_stop
  refine Arranged.unary (h.mono (Nat.le_refl _) (by omega)) ?_ ?_ ?_
  · have hin : named.contains e.range := Range.contains_iff.2 ⟨hi, hj⟩
    exact ⟨e.range, e.range?_expr, Range.contains_trans (named.span_contains_left range) hin⟩
  · simp only [Range.span]
    omega
  · simp only [Range.span]
    omega

theorem arranged_apply (ht : Arranged raised i k target.expr) (ha : Arranged raised k j args.expr) :
    Arranged raised i j (target.apply args).expr := by
  have hcall := (Operands.singleton ht target.range?_expr).append (Operands.singleton ha args.range?_expr)
  rw [apply_expr]
  refine Arranged.call (hcall.arranged target.expr (by simp)) ?_ ?_ ?_ hcall.inside.1 hcall.inside.2
  · exact (hcall.arranged args.expr (by simp)).arguments args.range?_expr
  · exact ⟨target.range, target.range?_expr, target.range.span_contains_left args.range⟩
  · exact target.range.span_contains_right args.range

end Placed

end PlanarMath
