import PlanarMath.Proofs.Reading.Total
import PlanarMath.Proofs.Token.Shift
import PlanarMath.Proofs.Transcriber.Relabel

/-!
# Rows further on

What a row is read as does not depend on the index that it starts at.  Starting `k` indices further on, the
same row gives the same expression, group or tokens with the same complaints, all of them `k` indices
further on, and it is stopped by the same fault if it is stopped by one.

    √x from 0 on:   sqrt(x) in 0..3, x in 1..2        √x from 4 on:   sqrt(x) in 4..7, x in 5..6

Constructs are read at indices of their own, so the shift goes along on the way in.
-/

namespace PlanarMath

namespace Report

variable {α β : Type} {k : Nat}

/-- The report `k` indices further on; `move` moves the result. -/
def shift (k : Nat) (move : α → α) (r : Report α) : Report α :=
  ⟨r.found.map (Diagnostic.shift k), r.result.map move⟩

theorem shift_eq_relabel (k : Nat) : shift (α := α) k = relabel (.shift k) := by
  funext move r
  rw [shift, relabel, Diagnostic.shift_eq_relabel]

theorem shift_andThen {move : α → α} {move' : β → β} {f g : α → Report β}
    (h : ∀ a, f (move a) = (g a).shift k move') (r : Report α) :
    (r.shift k move).andThen f = (r.andThen g).shift k move' := by
  simp only [shift_eq_relabel] at h ⊢
  exact relabel_andThen h r

theorem shift_map {move : α → α} {move' : β → β} {φ : α → β} (ψ : α → β)
    (h : ∀ a, φ (move a) = move' (ψ a)) (r : Report α) :
    (r.shift k move).map φ = (r.map ψ).shift k move' := by
  simp only [shift_eq_relabel]
  exact relabel_map ψ h r

theorem shift_cons (t : Token) (r : Report (List Token)) :
    (r.shift k (List.map (Token.shift k))).map (t.shift k :: ·) =
      (r.map (t :: ·)).shift k (List.map (Token.shift k)) :=
  shift_map (t :: ·) (fun _ => List.map_cons.symm) r

end Report

namespace Reading

open Layout Token

theorem asGroup_shift (k : Nat) (region outer : Range) (ts : List Token) :
    asGroup (region.shift k) (outer.shift k) (ts.map (Token.shift k)) =
      (asGroup region outer ts).shift k (Placed.shift k) := by
  rw [Token.shift_eq_relabel, Report.shift_eq_relabel, Placed.shift_eq_relabel]
  exact asGroup_relabel (.shift k) region outer ts

theorem frameToken_shift (k : Nat) (frame : Frame) (range : Range) (inner : Placed) :
    frameToken frame (range.shift k) (inner.shift k) = (frameToken frame range inner).shift k := by
  rw [Token.shift_eq_relabel, Placed.shift_eq_relabel]
  exact frameToken_relabel (.shift k) frame range inner

theorem deepToken_shift (k : Nat) (limit : Int) (frame? : Option Frame) (range : Range) :
    deepToken limit frame? (range.shift k) = (deepToken limit frame? range).shift k (Token.shift k) := by
  rw [Token.shift_eq_relabel, Report.shift_eq_relabel]
  exact deepToken_relabel (.shift k) limit frame? range

theorem regionOf_shift (k i : Nat) (r : Row) : (regionOf i r).shift k = regionOf (i + k) r :=
  Range.shift_ofWidth k i (Row.width r)

end Reading

namespace Method

open Layout Reading Token Counting

variable (m : Method)

theorem merge_shift (k : Nat) (ts : List Token) :
    m.merge (ts.map (Token.shift k)) = (m.merge ts).shift k (List.map (Token.shift k)) := by
  rw [Token.shift_eq_relabel, Report.shift_eq_relabel]
  exact m.merge_relabel (.shift k) ts

/-! ## Constructs -/

section
variable {x x' : Counting (List Token)} {k : Nat} {count : Int}

theorem content_shift (hx : x.Restores) (hx' : x'.Restores)
    (h : (x' count).1 = (x count).1.shift k (List.map (Token.shift k))) (region : Range) :
    (m.content (region.shift k) x' count).1 = (m.content region x count).1.shift k (Placed.shift k) := by
  rw [Report.shift_eq_relabel, Token.shift_eq_relabel] at h
  rw [Report.shift_eq_relabel, Placed.shift_eq_relabel, content_relabel _ m hx, content_report m _ hx', h]
  rfl

theorem framedContent_shift (hx : x.Restores) (hx' : x'.Restores)
    (h : (x' count).1 = (x count).1.shift k (List.map (Token.shift k))) (frame : Frame) (region outer : Range) :
    (m.framedContent frame (region.shift k) (outer.shift k) x' count).1 =
      (m.framedContent frame region outer x count).1.shift k (Placed.shift k) := by
  rw [Report.shift_eq_relabel, Token.shift_eq_relabel] at h
  rw [Report.shift_eq_relabel, Placed.shift_eq_relabel, framedContent_relabel _ m hx,
    framedContent_report m _ _ _ hx', h]
  rfl

end

mutual

theorem element_shift (k : Nat) (count : Int) (i : Nat) : ∀ x : Element,
    (m.element (i + k) x count).1 = (m.element i x count).1.shift k (Token.shift k)
  | .glyph c => by
    rw [element, element, ← Range.shift_ofWidth]
    rfl
  | .fraction above below => by
    cases h : m.isTooDeep count with
    | some limit =>
      rw [element, element, unlessDeep_deep h, unlessDeep_deep h, ← Range.shift_ofWidth, deepToken_shift]
    | none =>
      have hnum := m.content_shift (m.elements_restores _ above) (m.elements_restores _ above)
        (elements_shift k (count + 1) (i + 1) above) (.ofWidth (i + 1) (Row.width above))
      have hden := m.content_shift (m.elements_restores _ below) (m.elements_restores _ below)
        (elements_shift k (count + 1) (i + 1 + Row.width above + 1) below)
        (.ofWidth (i + 1 + Row.width above + 1) (Row.width below))
      have habove : i + k + 1 = i + 1 + k := by omega
      have hbar : i + 1 + k + Row.width above = i + 1 + Row.width above + k := by omega
      have hbelow : i + 1 + Row.width above + k + 1 = i + 1 + Row.width above + 1 + k := by omega
      rw [Range.shift_ofWidth] at hnum hden
      rw [fraction_report h, fraction_report h, habove, hbar, hbelow, hnum, hden]
      apply Report.shift_andThen
      intro num
      apply Report.shift_map
      intro den
      rw [Token.shift, Placed.shift_pair, Range.shift_ofWidth, Range.shift_ofWidth]
  | .framed frame body => by
    cases h : m.isTooDeep count with
    | some limit =>
      rw [element, element, unlessDeep_deep h, unlessDeep_deep h, ← Range.shift_ofWidth, deepToken_shift]
    | none =>
      have hbody := m.framedContent_shift (m.elements_restores _ body) (m.elements_restores _ body)
        (elements_shift k (count + 1) (i + 1) body) frame (.ofWidth (i + 1) (Row.width body))
        (.ofWidth i (Row.width body + 2))
      have hinner : i + k + 1 = i + 1 + k := by omega
      rw [Range.shift_ofWidth, Range.shift_ofWidth] at hbody
      rw [framed_report h, framed_report h, hinner, hbody, ← Range.shift_ofWidth]
      exact Report.shift_map _ (frameToken_shift k frame _) _

theorem elements_shift (k : Nat) (count : Int) (i : Nat) : ∀ xs : List Element,
    (m.elements (i + k) xs count).1 = (m.elements i xs count).1.shift k (List.map (Token.shift k))
  | [] => rfl
  | x :: xs => by
    have hnext : i + k + x.width = i + x.width + k := by omega
    rw [elements_cons_report, elements_cons_report, element_shift k count i x, hnext,
      elements_shift k count (i + x.width) xs]
    exact Report.shift_andThen (fun t => Report.shift_cons t _) _

end

/-! ## Rows -/

variable (k : Nat) (count : Int) (i : Nat) (r : Row)

theorem tokens_shift :
    (m.tokens (i + k) r count).1 = (m.tokens i r count).1.shift k (List.map (Token.shift k)) := by
  rw [tokens_report, tokens_report, elements_shift]
  exact Report.shift_andThen (m.merge_shift k) _

theorem expression_shift :
    (m.expression (i + k) r count).1 = (m.expression i r count).1.shift k (Placed.shift k) := by
  have hcontent := m.content_shift (m.elements_restores i r) (m.elements_restores (i + k) r)
    (m.elements_shift k count i r) (regionOf i r)
  rwa [regionOf_shift] at hcontent

/-- A group that starts after the first index is read from its tokens. -/
theorem group_succ_report :
    (m.group (i + 1) r count).1 = (m.tokens (i + 1) r count).1.andThen
      (asGroup (regionOf (i + 1) r) (.ofWidth i (Row.width r + 2))) := by
  rw [group_report, between_around]

theorem group_shift :
    (m.group (i + 1 + k) r count).1 = (m.group (i + 1) r count).1.shift k (Placed.shift k) := by
  have hsucc : i + 1 + k = i + k + 1 := by omega
  rw [hsucc, group_succ_report, group_succ_report, ← hsucc, tokens_shift, ← regionOf_shift,
    ← Range.shift_ofWidth]
  exact Report.shift_andThen (asGroup_shift k _ _) _

theorem startingAt_natural {α : Type} (f : Nat → Counting α) : (startingAt i r f count).1 = (f i count).1 := by
  rw [startingAt_report, start_natural]
  exact Report.ok_andThen i _

end Method

/-! ## Calls -/

/-- The answer `k` indices further on. -/
def Answer.shift (k : Nat) : Answer → Answer
  | expression e => expression (e.shift k)
  | tokens marks => tokens (marks.map (Mark.shift k))

namespace Transcriber

theorem call_expression (t : Transcriber) (i : Nat) (r : Layout.Row) :
    (t.call (.expression i r)).1 = (t.method.expression i r t.count).1.map fun e => .expression e.expr := by
  have hstart := Method.startingAt_natural t.count i r fun i => t.method.expression i r
  exact congrArg (Report.map fun e => Answer.expression e.expr) hstart

theorem call_group (t : Transcriber) (i : Nat) (r : Layout.Row) :
    (t.call (.group i r)).1 = (t.method.group i r t.count).1.map fun e => .expression e.expr := by
  have hstart := Method.startingAt_natural t.count i r fun i => t.method.group i r
  exact congrArg (Report.map fun e => Answer.expression e.expr) hstart

theorem call_tokens (t : Transcriber) (i : Nat) (r : Layout.Row) :
    (t.call (.tokens i r)).1 = ((t.method.tokens i r t.count).1.map
      (Mark.all (Reading.endOf (Reading.regionOf i r)))).map .tokens := by
  have hstart := Method.startingAt_natural t.count i r fun i =>
    (t.method.tokens i r).map (Mark.all (Reading.endOf (Reading.regionOf i r)))
  exact congrArg (Report.map Answer.tokens) hstart

/-- **Translation.**  Whatever a transcriber reads by, a row that starts `k` indices further on gives the same
expression, group (which needs an index before it) and tokens, with the same complaints in the same order, all
of them `k` indices further on; a row that is stopped by a fault is stopped by the same. -/
theorem call_shift (t : Transcriber) (b k : Nat) (r : Layout.Row) :
    (t.call (.expression (b + k) r)).1 = (t.call (.expression b r)).1.shift k (Answer.shift k) ∧
    (t.call (.group (b + 1 + k) r)).1 = (t.call (.group (b + 1) r)).1.shift k (Answer.shift k) ∧
    (t.call (.tokens (b + k) r)).1 = (t.call (.tokens b r)).1.shift k (Answer.shift k) := by
  refine ⟨?_, ?_, ?_⟩
  · have hcall := t.call_expression (b + k) r
    push_cast at hcall
    rw [hcall, call_expression, Method.expression_shift]
    exact Report.shift_map (fun e : Placed => Answer.expression e.expr) (fun _ => rfl) _
  · have hcall := t.call_group (b + 1 + k) r
    have hcall' := t.call_group (b + 1) r
    push_cast at hcall hcall'
    rw [hcall, hcall', Method.group_shift]
    exact Report.shift_map (fun e : Placed => Answer.expression e.expr) (fun _ => rfl) _
  · have hcall := t.call_tokens (b + k) r
    have hall : ∀ ts : List Token, Mark.all (Reading.endOf (Reading.regionOf (b + k) r))
        (ts.map (Token.shift k)) = (Mark.all (Reading.endOf (Reading.regionOf b r)) ts).map (Mark.shift k) := by
      intro ts
      rw [← Mark.all_shift, ← Reading.regionOf_shift]
      rfl
    push_cast at hcall
    rw [hcall, call_tokens, Method.tokens_shift, Report.shift_map _ hall]
    exact Report.shift_map Answer.tokens (fun _ => rfl) _

end Transcriber

end PlanarMath
