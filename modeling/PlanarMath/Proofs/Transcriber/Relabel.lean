import PlanarMath.Proofs.Grammar.Relabel
import PlanarMath.Proofs.Transcriber.Count

/-!
# Reports on relabelled tokens

What a transcriber makes of the tokens of a region does not depend on their ranges, nor on which of several
glyphs of one meaning they show: relabelled tokens in a relabelled region are reported to be the same,
relabelled, with the same complaints, relabelled, or to be stopped by the same fault.

    tokens   →   names, numerals, no blanks   →   expression or group   →   token of the construct around
-/

namespace PlanarMath

variable (ρ : Relabelling)

namespace Report

variable {α β : Type} {ρ : Relabelling}

/-- The report with other ranges and glyphs; `move` relabels the result. -/
def relabel (ρ : Relabelling) (move : α → α) (r : Report α) : Report α :=
  ⟨r.found.map (Diagnostic.relabel ρ), r.result.map move⟩

theorem relabel_andThen {move : α → α} {move' : β → β} {f g : α → Report β}
    (h : ∀ a, f (move a) = (g a).relabel ρ move') (r : Report α) :
    (r.relabel ρ move).andThen f = (r.andThen g).relabel ρ move' := by
  obtain ⟨found, result⟩ := r
  cases result with
  | error e => rfl
  | ok a =>
    have hnext := h a
    simp only [relabel, andThen, Except.map] at hnext ⊢
    rw [hnext, List.map_append]

theorem relabel_map {move : α → α} {move' : β → β} {φ : α → β} (ψ : α → β)
    (h : ∀ a, φ (move a) = move' (ψ a)) (r : Report α) :
    (r.relabel ρ move).map φ = (r.map ψ).relabel ρ move' := by
  obtain ⟨found, result⟩ := r
  cases result with
  | error e => rfl
  | ok a =>
    simp only [relabel, map, Except.map]
    rw [h]

theorem relabel_cons (t : Token) (r : Report (List Token)) :
    (r.relabel ρ (List.map (Token.relabel ρ))).map (t.relabel ρ :: ·) =
      (r.map (t :: ·)).relabel ρ (List.map (Token.relabel ρ)) :=
  relabel_map (t :: ·) (fun _ => List.map_cons.symm) r

end Report

namespace Reading

open Layout Token

/-! ## Expressions and groups -/

theorem orError_relabel (region : Range) (r : Except Grammar.Halt Placed) :
    orError (ρ.range region) (Grammar.relabelResult ρ (Placed.relabel ρ) r) =
      (orError region r).relabel ρ (Placed.relabel ρ) := by
  cases r <;> rfl

theorem endOf_relabel (region : Range) : endOf (ρ.range region) = ρ.range (endOf region) :=
  (ρ.range_end region).symm

theorem asExpression_relabel (region : Range) (ts : List Token) :
    asExpression (ρ.range region) (ts.map (Token.relabel ρ)) =
      (asExpression region ts).relabel ρ (Placed.relabel ρ) := by
  unfold asExpression
  rw [endOf_relabel, Grammar.whole_relabel, orError_relabel]

theorem tuple_relabel (range : Range) (items : List Placed) :
    tuple (ρ.range range) (items.map (Placed.relabel ρ)) = (tuple range items).relabel ρ := by
  apply Placed.eq_of_expr
  simp only [tuple, Placed.relabel, Expr.relabel, Expr.relabelAll_eq_map, List.map_map, Option.map_some]
  rfl

theorem asGroup_relabel (region outer : Range) (ts : List Token) :
    asGroup (ρ.range region) (ρ.range outer) (ts.map (Token.relabel ρ)) =
      (asGroup region outer ts).relabel ρ (Placed.relabel ρ) := by
  have htuple : ∀ r : Except Grammar.Halt (List Placed),
      (Grammar.relabelResult ρ (List.map (Placed.relabel ρ)) r).map (tuple (ρ.range outer)) =
        Grammar.relabelResult ρ (Placed.relabel ρ) (r.map (tuple outer)) := by
    intro r
    cases r with
    | error h => rfl
    | ok items => exact congrArg Except.ok (tuple_relabel ρ outer items)
  unfold asGroup
  rw [endOf_relabel, Grammar.group_relabel, htuple, orError_relabel]

/-! ## Constructs -/

theorem frameToken_relabel (frame : Frame) (range : Range) (inner : Placed) :
    frameToken frame (ρ.range range) (inner.relabel ρ) = (frameToken frame range inner).relabel ρ := by
  cases frame <;> rfl

theorem deepToken_relabel (limit : Int) (frame? : Option Frame) (range : Range) :
    deepToken limit frame? (ρ.range range) = (deepToken limit frame? range).relabel ρ (Token.relabel ρ) := by
  cases frame? with
  | none => rfl
  | some frame => cases frame <;> rfl

theorem isBlank_relabel (t : Token) : isBlank (t.relabel ρ) = isBlank t := by
  cases t with
  | glyph c r => exact ρ.isBlank_glyph c
  | _ => rfl

end Reading

namespace Method

open Layout Reading Token Counting

variable (m : Method)

theorem numeral_relabel (text : List Char) (range : Range) :
    m.numeral text (ρ.range range) = (m.numeral text range).relabel ρ (Token.relabel ρ) := by
  unfold numeral
  cases m.number (String.ofList text) with
  | error f => rfl
  | ok value? =>
    simp only [ofNumeral_relabel]
    rfl

theorem numerals_relabel (ts : List Token) :
    m.numerals (ts.map (Token.relabel ρ)) = (m.numerals ts).relabel ρ (List.map (Token.relabel ρ)) := by
  induction hn : ts.length using Nat.strongRecOn generalizing ts with
  | _ n ih =>
    match ts with
    | [] =>
      rw [List.map_nil, numerals]
      rfl
    | t :: rest =>
      have hrun := numeralRun_relabel ρ false (t :: rest)
      rw [List.map_cons] at hrun ⊢
      rw [numerals, numerals, hrun]
      rw [List.length_cons] at hn
      have hother := ih rest.length (by omega) rest rfl
      cases numeralRun false (t :: rest) with
      | nil =>
        simp only [relabelRun, List.map_nil, hother]
        exact Report.relabel_cons t _
      | cons p others =>
        obtain ⟨c, r⟩ := p
        have hrest := ih (rest.drop others.length).length (by rw [List.length_drop]; omega) _ rfl
        have hlength : (relabelRun ρ others).length = others.length := List.length_map _
        have hnil : relabelRun ρ others = [] ↔ others = [] := List.map_eq_nil_iff
        simp only [relabelRun, List.map_cons]
        rw [← relabelRun, chars_relabelRun, hlength, spanOf_relabel, drop_map_relabel, hother, hrest,
          numeral_relabel]
        simp only [hnil]
        split
        · exact Report.relabel_cons t _
        · exact Report.relabel_andThen (fun number => Report.relabel_cons number _) _

theorem merge_relabel (ts : List Token) :
    m.merge (ts.map (Token.relabel ρ)) = (m.merge ts).relabel ρ (List.map (Token.relabel ρ)) := by
  have hblank : ∀ us : List Token, (us.map (Token.relabel ρ)).filter (fun t => !isBlank t) =
      (us.filter fun t => !isBlank t).map (Token.relabel ρ) := by
    intro us
    rw [List.filter_map]
    simp only [Function.comp_def, isBlank_relabel]
  unfold merge
  rw [mergeWords_relabel]
  cases mergeWords m.functions ts with
  | error f => rfl
  | ok us =>
    simp only [Except.map, numerals_relabel]
    exact Report.relabel_map _ hblank _

theorem frameContent_relabel (frame : Frame) (region outer : Range) (ts : List Token) :
    m.frameContent frame (ρ.range region) (ρ.range outer) (ts.map (Token.relabel ρ)) =
      (m.frameContent frame region outer ts).relabel ρ (Placed.relabel ρ) := by
  unfold frameContent
  rw [merge_relabel]
  apply Report.relabel_andThen
  intro us
  cases frame with
  | parentheses => exact asGroup_relabel ρ region outer us
  | _ => exact asExpression_relabel ρ region us

section
variable {x : Counting (List Token)} {count : Int}

/-- The report on the content of a region, relabelled, is made of the relabelled tokens. -/
theorem content_relabel (hx : x.Restores) (region : Range) :
    (m.content region x count).1.relabel ρ (Placed.relabel ρ) =
      ((x count).1.relabel ρ (List.map (Token.relabel ρ))).andThen fun ts =>
        (m.merge ts).andThen (asExpression (ρ.range region)) := by
  rw [content_report m _ hx]
  apply Eq.symm
  apply Report.relabel_andThen
  intro ts
  rw [merge_relabel]
  exact Report.relabel_andThen (asExpression_relabel ρ region) _

theorem framedContent_relabel (hx : x.Restores) (frame : Frame) (region outer : Range) :
    (m.framedContent frame region outer x count).1.relabel ρ (Placed.relabel ρ) =
      ((x count).1.relabel ρ (List.map (Token.relabel ρ))).andThen
        (m.frameContent frame (ρ.range region) (ρ.range outer)) := by
  rw [framedContent_report m _ _ _ hx]
  exact (Report.relabel_andThen (m.frameContent_relabel ρ frame region outer) _).symm

end

variable {m} {count : Int} (h : m.isTooDeep count = none) (i : Nat)
include h

theorem fraction_relabel (above below : Row) :
    (m.element i (.fraction above below) count).1.relabel ρ (Token.relabel ρ) =
      ((m.content (.ofWidth (i + 1) (Row.width above)) (m.elements (i + 1) above) (count + 1)).1.relabel ρ
        (Placed.relabel ρ)).andThen fun num =>
      ((m.content (.ofWidth (i + 1 + Row.width above + 1) (Row.width below))
        (m.elements (i + 1 + Row.width above + 1) below) (count + 1)).1.relabel ρ (Placed.relabel ρ)).map fun den =>
      .operand (num.pair .divide den (ρ.range (.ofWidth (i + 1 + Row.width above) 1))) false
        (ρ.range (.ofWidth i (Row.width above + Row.width below + 3))) := by
  rw [fraction_report h]
  apply Eq.symm
  apply Report.relabel_andThen
  intro num
  apply Report.relabel_map
  intro den
  rw [Token.relabel, Placed.relabel_pair]

theorem framed_relabel (frame : Frame) (body : Row) :
    (m.element i (.framed frame body) count).1.relabel ρ (Token.relabel ρ) =
      ((m.framedContent frame (.ofWidth (i + 1) (Row.width body)) (.ofWidth i (Row.width body + 2))
        (m.elements (i + 1) body) (count + 1)).1.relabel ρ (Placed.relabel ρ)).map
          (frameToken frame (ρ.range (.ofWidth i (Row.width body + 2)))) := by
  rw [framed_report h]
  exact (Report.relabel_map _ (frameToken_relabel ρ frame _) _).symm

omit h in
theorem elements_cons_relabel (x : Element) (xs : List Element) (count : Int) :
    (m.elements i (x :: xs) count).1.relabel ρ (List.map (Token.relabel ρ)) =
      ((m.element i x count).1.relabel ρ (Token.relabel ρ)).andThen fun t =>
        ((m.elements (i + x.width) xs count).1.relabel ρ (List.map (Token.relabel ρ))).map (t :: ·) := by
  rw [elements_cons_report]
  exact (Report.relabel_andThen (fun t => Report.relabel_cons t _) _).symm

end Method

end PlanarMath
