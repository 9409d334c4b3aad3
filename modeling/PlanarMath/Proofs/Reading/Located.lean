import PlanarMath.Proofs.Grammar.Completeness
import PlanarMath.Proofs.Grammar.Located
import PlanarMath.Proofs.Reading.Runs
import PlanarMath.Proofs.Reading.Total

/-!
# Where expressions of a layout come from

Everything that is read from a layout comes from an interval of its indices: a name or a number from the
indices of its characters, a phrase from the interval of its tokens, a construct from the indices between
its glyphs.  A property of expressions and intervals that all constructions of reading keep (`Located`)
holds of every row of the layout with the interval that the row takes up.

    content of a row that is ahead at `i`     Q i (i + width)
    group of the row and the glyphs around    Q i (i + width + 2)
-/

namespace PlanarMath

open Grammar Layout

/-- What is known of a token of a row: its glyph stands at its range, its node comes from its range, and
what is raised is a superscript of the layout, read as its node. -/
def Token.From (o : Options) (base : Nat) (r : Row) (Q : Nat → Nat → Placed → Prop) : Token → Prop
  | .glyph c range => r.Spells base [c] range
  | .operand node _ range => Q range.start range.stop node
  | .superscript node raised =>
    Q raised.start raised.stop node ∧
      ∃ i body, r.Stands base i (.framed .superscript body) ∧
        raised = .ofWidth i (Element.framed .superscript body).width ∧
        Reading.ReadAs o i (.framed .superscript body) (.superscript node raised)
  | .subscript .. => True

namespace Reading

open Token

/-- A property of expressions and the intervals of a layout they come from, kept by all that reading does. -/
structure Located (o : Options) (base : Nat) (r : Row) (Q : Nat → Nat → Placed → Prop) : Prop
    extends Grammar.Located (Token.From o base r Q) Q where
  name : ∀ run s function range, Names o.functions run s function → s ≠ "" →
    r.Spells base (run.map (·.1)) range → Q range.start range.stop (symbolIn s range)
  number : ∀ run v range, IsNumeral run → o.number (textOf run) = some v →
    r.Spells base (run.map (·.1)) range → Q range.start range.stop (numberIn v range)
  error : ∀ range, Q range.start range.stop (.error range)
  fraction : ∀ i above below num den, r.Stands base i (.fraction above below) →
    Q (i + 1) (i + 1 + Row.width above) num →
    Q (i + Row.width above + 2) (i + Row.width above + 2 + Row.width below) den →
    Q (i + 1) (i + Row.width above + 2 + Row.width below)
      (num.pair .divide den (.ofWidth (i + 1 + Row.width above) 1))
  enclosed : ∀ i frame body s inner, functionOf? frame = some s → r.Stands base i (.framed frame body) →
    Q (i + 1) (i + 1 + Row.width body) inner →
    Q i (i + Row.width body + 2) (enclosed s (.ofWidth i (Row.width body + 2)) inner)
  tuple : ∀ i j items range, items ≠ [] → Spread Q i items j → range.start ≤ i → j ≤ range.stop →
    Q range.start range.stop (tuple range items)

namespace Located

variable {o : Options} {base : Nat} {r : Row} {Q : Nat → Nat → Placed → Prop}

/-! ## Tokens of a row -/

/-- What is known of the token of an element, where the element stands in the layout. -/
def OfToken (o : Options) (base : Nat) (r : Row) (Q : Nat → Nat → Placed → Prop) (i : Nat)
    (x : Element) (_ : List Diagnostic) (t : Token) : Prop :=
  t.Of i x ∧ (r.Stands base i x → t.From o base r Q)

/-- The characters that a run of glyphs is read from, in a row that is ahead. -/
theorem run {i : Nat} {xs : Row} {first : List Diagnostic} {c : Char} {range : Range}
    {others : List (Char × Range)} {ts : List Token}
    (hts : Aligned (OfToken o base r Q) i xs first (glyphs ((c, range) :: others) ++ ts))
    (hx : r.Ahead base i xs) :
    spanOf range others = .ofWidth i (others.length + 1) ∧
      r.Spells base (((c, range) :: others).map (·.1)) (spanOf range others) ∧
      ∃ rest more, Row.width xs = others.length + 1 + Row.width rest ∧
        r.Ahead base (i + (others.length + 1)) rest ∧
        Aligned (OfToken o base r Q) (i + (others.length + 1)) rest more ts := by
  obtain ⟨text, rest, more, htext, hlen, hspan, rfl, hrest⟩ := Aligned.run (fun _ _ _ _ h => h.1) hts
  have hwidth := Row.width_append (text.map .glyph) rest
  have hdrop := hx.drop
  rw [Row.width_glyphs] at hwidth hdrop
  rw [htext, hspan, hlen]
  exact ⟨rfl, hx.spells, rest, more, hwidth, hdrop, hrest⟩

/-- The merged tokens of a row that is ahead are in order, and each comes from its range. -/
theorem merged (hl : Located o base r Q) {ts us : List Token} {found : List Diagnostic}
    (h : Merged o.functions o.number ts found us) {i : Nat} {xs : Row} {first : List Diagnostic}
    (hts : Aligned (OfToken o base r Q) i xs first ts) (hx : r.Ahead base i xs) :
    InOrder i us (i + Row.width xs) ∧ ∀ t ∈ us, t.From o base r Q := by
  -- a token in the place of some elements, and the tokens of the elements behind them
  have step : ∀ {i xs rest width t us}, t.range = .ofWidth i width → t.From o base r Q →
      Row.width xs = width + Row.width rest →
      InOrder (i + width) us (i + width + Row.width rest) ∧ (∀ t ∈ us, t.From o base r Q) →
      InOrder i (t :: us) (i + Row.width xs) ∧ ∀ x ∈ t :: us, x.From o base r Q := by
    intro i xs rest width t us hrange ht hwidth hus
    have hend : i + Row.width xs = i + width + Row.width rest := by omega
    have hstart : i ≤ t.range.start := by rw [hrange]; exact Nat.le_refl i
    have hstop : t.range.stop = i + width := by rw [hrange]; rfl
    refine ⟨⟨hstart, ?_⟩, List.forall_mem_cons.2 ⟨ht, hus.2⟩⟩
    rw [hstop, hend]
    exact hus.1
  induction h generalizing i xs first with
  | nil =>
    cases hts
    exact ⟨Nat.le_refl _, List.forall_mem_nil _⟩
  | other _ _ _ ih =>
    cases hts with
    | cons ht hts =>
      exact step ht.1.range (ht.2 hx.stands) (by rw [Row.width]) (ih hts hx.behind)
  | @name ts found us c range others n s function hr hw hs _ ih =>
    obtain ⟨hn, hnames, hglyphs⟩ := first_of_letterRun hr hw
    rw [hglyphs] at hts
    obtain ⟨hspan, hspells, rest, more, hwidth, hrest, hmore⟩ := run hts hx
    rw [List.length_take, Nat.min_eq_left hn] at hspan hwidth hrest hmore
    exact step hspan (hl.name _ s function _ hnames hs hspells) hwidth (ih hmore hrest)
  | @number ts found us c range others v hr _ hv _ ih =>
    rw [eq_glyphs_of_numeralRun hr] at hts
    obtain ⟨hspan, hspells, rest, more, hwidth, hrest, hmore⟩ := run hts hx
    have hdigits : IsNumeral ((c, range) :: others) := hr ▸ isNumeral_numeralRun ts false
    exact step hspan (hl.number _ v _ hdigits hv hspells) hwidth (ih hmore hrest)
  | @rejected ts found us c range others hr _ _ _ ih =>
    rw [eq_glyphs_of_numeralRun hr] at hts
    obtain ⟨hspan, -, rest, more, hwidth, hrest, hmore⟩ := run hts hx
    exact step hspan (hl.error _) hwidth (ih hmore hrest)

/-- The tokens that the grammar sees of a row that is ahead. -/
theorem merge (hl : Located o base r Q) {ts us : List Token} {first found : List Diagnostic} {i : Nat}
    {xs : Row} (h : Reading.merge o ts = ⟨found, .ok us⟩)
    (hts : Aligned (OfToken o base r Q) i xs first ts) (hx : r.Ahead base i xs) :
    InOrder i us (i + Row.width xs) ∧ ∀ t ∈ us, t.From o base r Q := by
  obtain ⟨vs, hm, rfl⟩ := exists_merged h
  obtain ⟨horder, hfrom⟩ := hl.merged hm hts hx
  exact ⟨horder.filter _, fun t ht => hfrom t (List.mem_filter.1 ht).1⟩

/-! ## Rows -/

/-- What the grammar makes of a region, in an error of the region around it when it stops. -/
theorem orError (hl : Located o base r Q) (outer : Range) {result : Except Halt Placed}
    (hr : ∀ x, result = .ok x → Q outer.start outer.stop x) {found : List Diagnostic} {e : Placed}
    (h : orError outer result = ⟨found, .ok e⟩) : Q outer.start outer.stop e := by
  cases result with
  | ok x =>
    cases h
    exact hr _ rfl
  | error halt =>
    cases h
    exact hl.error outer

theorem asExpression (hl : Located o base r Q) {i width : Nat} {us : List Token}
    (ho : InOrder i us (i + width)) (hus : ∀ t ∈ us, t.From o base r Q) {found : List Diagnostic}
    {e : Placed} (h : asExpression (.ofWidth i width) us = ⟨found, .ok e⟩) : Q i (i + width) e := by
  refine hl.orError (.ofWidth i width) ?_ h
  intro x hx
  obtain ⟨k, hk, hend⟩ := hl.derives (whole_eq_ok_iff.1 hx) hus ho
  exact hl.mono _ _ _ _ x (Nat.le_refl _) hend hk

theorem asGroup (hl : Located o base r Q) {i width : Nat} {us : List Token}
    (ho : InOrder (i + 1) us (i + 1 + width)) (hus : ∀ t ∈ us, t.From o base r Q)
    {found : List Diagnostic} {e : Placed}
    (h : asGroup (.ofWidth (i + 1) width) (.ofWidth i (width + 2)) us = ⟨found, .ok e⟩) :
    Q i (i + (width + 2)) e := by
  refine hl.orError (.ofWidth i (width + 2)) ?_ h
  intro x hx
  obtain ⟨es, hlists, rfl⟩ := map_group_eq_ok.1 hx
  have hstop : i + 1 + width ≤ (Range.ofWidth i (width + 2)).stop := by
    simp only [Range.ofWidth]
    omega
  exact hl.tuple (i + 1) _ es _ hlists.ne_nil (hl.lists hlists hus ho) (Nat.le_succ i) hstop

/-- **Located expressions**, at every element and every row of a layout. -/
theorem anchored (hl : Located o base r Q) :
    Anchored o (OfToken o base r Q) (fun i xs _ e => r.Ahead base i xs → Q i (i + Row.width xs) e)
      (fun i xs _ e => r.Ahead base (i + 1) xs → Q i (i + (Row.width xs + 2)) e) where
  glyph i c := ⟨rfl, Row.Stands.spells⟩
  deepFraction limit i above below t found h := by
    refine ⟨of_deepToken rfl h, fun _ => ?_⟩
    simp only [deepToken, Report.mk.injEq, Except.ok.injEq] at h
    obtain ⟨-, rfl⟩ := h
    exact hl.error _
  deepFrame limit i frame body t found hread h := by
    refine ⟨of_deepToken rfl h, fun hx => ?_⟩
    simp only [deepToken, Report.mk.injEq, Except.ok.injEq] at h
    obtain ⟨-, rfl⟩ := h
    cases frame with
    | superscript => exact ⟨hl.error _, i, body, hx, rfl, hread⟩
    | subscript => trivial
    | _ => exact hl.error _
  expression i xs first ts merged us last e hts hm he hx := by
    obtain ⟨ho, hus⟩ := hl.merge hm hts hx
    exact hl.asExpression ho hus he
  group i xs first ts merged us last e hts hm he hx := by
    obtain ⟨ho, hus⟩ := hl.merge hm hts hx
    exact hl.asGroup ho hus he
  fraction i above below first more num den hnum hden := by
    refine ⟨.operand rfl _ _, fun hx => ?_⟩
    have hpair := hl.fraction i above below num den hx (hnum hx.numerator) (hden hx.denominator)
    refine hl.mono _ _ _ _ _ (Nat.le_succ i) ?_ hpair
    simp only [Range.ofWidth, Element.width_fraction]
    omega
  framed i frame body found inner hf hread hinner := by
    refine ⟨of_frameToken i frame body inner, fun hx => ?_⟩
    have hbody := hinner hx.body
    have hcall : ∀ s, functionOf? frame = some s →
        Q i (i + Row.width body + 2) (Reading.enclosed s (.ofWidth i (Row.width body + 2)) inner) :=
      fun s hs => hl.enclosed i frame body s inner hs hx hbody
    have hwhole : Q i (i + Row.width body + 2) inner :=
      hl.mono _ _ _ _ _ (Nat.le_succ i) (by omega) hbody
    cases frame with
    | parentheses => exact absurd rfl hf
    | superscript => exact ⟨hwhole, i, body, hx, rfl, hread⟩
    | subscript => trivial
    | brackets => exact hwhole
    | radical => exact hcall "sqrt" rfl
    | absoluteValue => exact hcall "abs" rfl
    | ceiling => exact hcall "ceil" rfl
    | floor => exact hcall "floor" rfl
  grouped i body found inner hinner := ⟨.operand rfl _ _, fun hx => hinner hx.body⟩

/-- The expression of a layout that starts at the base. -/
theorem expression (hl : Located o base r Q) {found : List Diagnostic} {e : Placed}
    (h : Reading.expression o base r = ⟨found, .ok e⟩) : Q base (base + Row.width r) e :=
  hl.anchored.rowExpression h .whole

end Located

/-- The group of a layout that starts after the first index, with the glyphs around it. -/
theorem Located.group {o : Options} {i : Nat} {r : Row} {Q : Nat → Nat → Placed → Prop}
    (hl : Located o (i + 1) r Q) {found : List Diagnostic} {e : Placed}
    (h : Reading.group o (i + 1) r = ⟨found, .ok e⟩) : Q i (i + (Row.width r + 2)) e :=
  hl.anchored.rowGroup h .whole

end Reading

end PlanarMath
