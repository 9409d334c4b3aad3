import PlanarMath.Proofs.Transcriber.Relabel

/-!
# Glyphs that are written one for the other

A product, a quotient and a difference can each be written with more than one glyph.  Which of them stands in a
layout, at any depth, makes no difference to the expression that is read, its ranges included, nor to the
complaints, except that a complaint about such a glyph shows the one that stands there.

    2 × x · y     a / b     − x             *  ×  ·        ÷  /        -  −
    2 * x * y     a ÷ b     - x

Writing the usual glyph of each meaning everywhere is a relabelling, which takes two such layouts to the same.
-/

namespace PlanarMath

/-- The usual one of the glyphs that are written for the sign of a product, a quotient or a difference. -/
def usualGlyph : Char → Char
  | '×' | '·' => '*'
  | '/' => '÷'
  | '−' => '-'
  | c => c

/-- Glyphs that are written one for the other, or are the same. -/
def Interchangeable (c d : Char) : Prop := usualGlyph c = usualGlyph d

instance (c d : Char) : Decidable (Interchangeable c d) :=
  inferInstanceAs (Decidable (usualGlyph c = usualGlyph d))

example : Interchangeable '×' '*' ∧ Interchangeable '·' '*' ∧ Interchangeable '/' '÷' ∧ Interchangeable '−' '-' ∧
    ¬Interchangeable '*' '÷' ∧ ¬Interchangeable '-' '+' := by decide

/-- The usual glyph of each meaning everywhere. -/
def Relabelling.usual : Relabelling where
  range := id
  glyph := usualGlyph
  range_span _ _ := rfl
  range_end _ := rfl
  roleOf_glyph c := by
    unfold usualGlyph
    split <;> rfl
  glyph_of_plain c hc := by
    unfold usualGlyph
    split
    · cases hc
    · cases hc
    · cases hc
    · cases hc
    · rfl

namespace Layout

mutual

/-- Elements that differ only in glyphs that are written one for the other. -/
inductive Element.Aliased : Element → Element → Prop
  | glyph {c d} : Interchangeable c d → Element.Aliased (.glyph c) (.glyph d)
  | fraction {above above' below below'} : Row.Aliased above above' → Row.Aliased below below' →
      Element.Aliased (.fraction above below) (.fraction above' below')
  | framed {frame body body'} : Row.Aliased body body' →
      Element.Aliased (.framed frame body) (.framed frame body')

/-- Rows that differ, at any depth, only in glyphs that are written one for the other. -/
inductive Row.Aliased : List Element → List Element → Prop
  | nil : Row.Aliased [] []
  | cons {x y xs ys} : Element.Aliased x y → Row.Aliased xs ys → Row.Aliased (x :: xs) (y :: ys)

end

mutual

theorem Element.Aliased.width_eq : ∀ {x y : Element}, x.Aliased y → x.width = y.width
  | .glyph c, _, .glyph _ => rfl
  | .fraction above below, _, .fraction habove hbelow => by
    rw [Element.width_fraction, Element.width_fraction, habove.width_eq, hbelow.width_eq]
  | .framed frame body, _, .framed hbody => by
    rw [Element.width_framed, Element.width_framed, hbody.width_eq]

theorem Row.Aliased.width_eq : ∀ {xs ys : List Element}, Row.Aliased xs ys → Row.width xs = Row.width ys
  | [], _, .nil => rfl
  | x :: xs, _, .cons hx hxs => by
    rw [Row.width, Row.width, hx.width_eq, hxs.width_eq]

end

end Layout

/-! ## Complaints -/

/-- The same complaint, but for the glyph that stands where none is expected. -/
inductive Complaint.Aliased : Complaint → Complaint → Prop
  | same (c) : Complaint.Aliased c c
  | glyph {c d} : Interchangeable c d →
      Complaint.Aliased (.unexpected (.codePoint c.toString)) (.unexpected (.codePoint d.toString))

/-- The same complaint about the same range, but for the glyph that is not expected there. -/
def Diagnostic.Aliased (d d' : Diagnostic) : Prop := d.range = d'.range ∧ d.complaint.Aliased d'.complaint

theorem Mark.Kind.relabel_glyph (ρ : Relabelling) (c : Char) :
    (codePoint c.toString).relabel ρ = codePoint (ρ.glyph c).toString := by
  simp [relabel]

/-- What stands at a place is a glyph, or no relabelling changes it. -/
theorem Mark.Kind.glyph_or_fixed (kind : Mark.Kind) :
    (∃ c : Char, kind = codePoint c.toString) ∨
      (∀ c : Char, kind ≠ codePoint c.toString) ∧ ∀ ρ, kind.relabel ρ = kind := by
  cases kind with
  | codePoint s =>
    by_cases hs : ∃ c, s.toList = [c]
    · obtain ⟨c, hs⟩ := hs
      refine .inl ⟨c, ?_⟩
      rw [← String.ofList_toList (s := s), hs]
      rfl
    · refine .inr ⟨?_, ?_⟩
      · rintro c ⟨⟩
        exact hs ⟨c, by simp⟩
      · intro ρ
        rw [relabel]
        split
        · next c h => exact absurd ⟨c, h⟩ hs
        · rfl
  | _ =>
    refine .inr ⟨?_, fun _ => rfl⟩
    intro c h
    cases h

theorem Complaint.aliased_of_relabel {c c' : Complaint} (h : c.relabel .usual = c'.relabel .usual) :
    c.Aliased c' := by
  cases c with
  | unexpected kind =>
    cases c' with
    | unexpected kind' =>
      have hkind : kind.relabel .usual = kind'.relabel .usual := Complaint.unexpected.inj h
      rcases kind.glyph_or_fixed with ⟨c, rfl⟩ | ⟨hc, hfixed⟩ <;>
        rcases kind'.glyph_or_fixed with ⟨c', rfl⟩ | ⟨hc', hfixed'⟩
      · rw [Mark.Kind.relabel_glyph, Mark.Kind.relabel_glyph] at hkind
        exact .glyph (by simpa [Interchangeable, Relabelling.usual] using hkind)
      · rw [Mark.Kind.relabel_glyph, hfixed'] at hkind
        exact absurd hkind.symm (hc' _)
      · rw [Mark.Kind.relabel_glyph, hfixed] at hkind
        exact absurd hkind (hc _)
      · rw [hfixed, hfixed'] at hkind
        rw [hkind]
        exact .same _
    | _ => cases h
  | ambiguousExponent =>
    cases c' with
    | ambiguousExponent => exact .same _
    | _ => cases h
  | tooDeep limit =>
    cases c' with
    | tooDeep limit' =>
      cases h
      exact .same _
    | _ => cases h
  | invalidNumber length =>
    cases c' with
    | invalidNumber length' =>
      cases h
      exact .same _
    | _ => cases h

theorem Diagnostic.aliased_of_relabel {d d' : Diagnostic} (h : d.relabel .usual = d'.relabel .usual) :
    d.Aliased d' := by
  have hrange : (d.relabel .usual).range = (d'.relabel .usual).range := congrArg Diagnostic.range h
  exact ⟨hrange, Complaint.aliased_of_relabel (congrArg Diagnostic.complaint h)⟩

namespace Method

open Layout Reading Token Counting

variable (m : Method)

/-! ## Constructs -/

section
variable {x y : Counting (List Token)} {count : Int} (hx : x.Restores) (hy : y.Restores)
  (h : (y count).1.relabel .usual (List.map (Token.relabel .usual)) =
    (x count).1.relabel .usual (List.map (Token.relabel .usual)))
include hx hy h

theorem content_aliased (region : Range) :
    (m.content region y count).1.relabel .usual (Placed.relabel .usual) =
      (m.content region x count).1.relabel .usual (Placed.relabel .usual) := by
  rw [content_relabel _ m hx, content_relabel _ m hy, h]

theorem framedContent_aliased (frame : Frame) (region outer : Range) :
    (m.framedContent frame region outer y count).1.relabel .usual (Placed.relabel .usual) =
      (m.framedContent frame region outer x count).1.relabel .usual (Placed.relabel .usual) := by
  rw [framedContent_relabel _ m hx, framedContent_relabel _ m hy, h]

end

mutual

theorem element_aliased (count : Int) (i : Nat) : ∀ {x y : Element}, x.Aliased y →
    (m.element i y count).1.relabel .usual (Token.relabel .usual) =
      (m.element i x count).1.relabel .usual (Token.relabel .usual)
  | .glyph c, .glyph d, .glyph hcd => by
    have hglyph : Token.relabel .usual (.glyph d (.ofWidth i 1)) =
        Token.relabel .usual (.glyph c (.ofWidth i 1)) :=
      congrArg (Token.glyph · (.ofWidth i 1)) hcd.symm
    exact congrArg Report.ok hglyph
  | .fraction above below, .fraction above' below', .fraction habove hbelow => by
    have hwidth := habove.width_eq
    have hwidth' := hbelow.width_eq
    cases h : m.isTooDeep count with
    | some limit =>
      rw [element, element, unlessDeep_deep h, unlessDeep_deep h, hwidth, hwidth']
    | none =>
      have hnum := m.content_aliased (m.elements_restores _ above) (m.elements_restores _ above')
        (elements_aliased (count + 1) (i + 1) habove) (.ofWidth (i + 1) (Row.width above))
      have hden := m.content_aliased (m.elements_restores _ below) (m.elements_restores _ below')
        (elements_aliased (count + 1) (i + 1 + Row.width above + 1) hbelow)
        (.ofWidth (i + 1 + Row.width above + 1) (Row.width below))
      rw [fraction_relabel _ h, fraction_relabel _ h, ← hwidth, ← hwidth', hnum, hden]
  | .framed frame body, .framed _ body', .framed hbody => by
    have hwidth := hbody.width_eq
    cases h : m.isTooDeep count with
    | some limit =>
      rw [element, element, unlessDeep_deep h, unlessDeep_deep h, hwidth]
    | none =>
      have hinner := m.framedContent_aliased (m.elements_restores _ body) (m.elements_restores _ body')
        (elements_aliased (count + 1) (i + 1) hbody) frame (.ofWidth (i + 1) (Row.width body))
        (.ofWidth i (Row.width body + 2))
      rw [framed_relabel _ h, framed_relabel _ h, ← hwidth, hinner]

theorem elements_aliased (count : Int) (i : Nat) : ∀ {xs ys : List Element}, Row.Aliased xs ys →
    (m.elements i ys count).1.relabel .usual (List.map (Token.relabel .usual)) =
      (m.elements i xs count).1.relabel .usual (List.map (Token.relabel .usual))
  | [], _, .nil => rfl
  | x :: xs, y :: ys, .cons hx hxs => by
    rw [elements_cons_relabel, elements_cons_relabel, element_aliased count i hx, ← hx.width_eq,
      elements_aliased count (i + x.width) hxs]

end

theorem expression_aliased (count : Int) (i : Nat) {r r' : Row} (h : Row.Aliased r r') :
    (m.expression i r' count).1.relabel .usual (Placed.relabel .usual) =
      (m.expression i r count).1.relabel .usual (Placed.relabel .usual) := by
  unfold expression regionOf
  rw [h.width_eq]
  exact m.content_aliased (m.elements_restores i r) (m.elements_restores i r') (m.elements_aliased count i h) _

end Method

/-! ## Layouts -/

/-- Reports that agree once the usual glyphs are written have the same result and the same complaints. -/
theorem Report.aliased_of_relabel {r r' : Report Placed}
    (h : r'.relabel .usual (Placed.relabel .usual) = r.relabel .usual (Placed.relabel .usual)) :
    r'.result = r.result ∧ List.Forall₂ Diagnostic.Aliased r.found r'.found := by
  have hid : Placed.relabel .usual = id := funext (Placed.relabel_of_id .usual fun _ => rfl)
  obtain ⟨found, result⟩ := r
  obtain ⟨found', result'⟩ := r'
  simp only [relabel, hid, mk.injEq] at h
  obtain ⟨hfound, hresult⟩ := h
  refine ⟨?_, ?_⟩
  · rwa [Except.map_id, id_eq, id_eq] at hresult
  · have hall : List.Forall₂ (· = ·) (found.map (Diagnostic.relabel .usual))
        (found'.map (Diagnostic.relabel .usual)) := by
      rw [List.forall₂_eq_eq_eq, hfound]
    rw [List.forall₂_map_left_iff, List.forall₂_map_right_iff] at hall
    exact hall.imp fun _ _ => Diagnostic.aliased_of_relabel

/-- **Aliases.**  Of layouts that differ, at any depth, only in glyphs that are written one for the other, a
transcriber gives the same expression, all ranges included, or is stopped by the same fault; its complaints are
the same, in the same order and about the same ranges, except that one about a glyph that is not expected shows
the glyph that stands there. -/
theorem Transcriber.call_aliased (t : Transcriber) {r r' : Layout.Row} (h : Layout.Row.Aliased r r') :
    (t.call (.layout r')).1.result = (t.call (.layout r)).1.result ∧
      List.Forall₂ Diagnostic.Aliased (t.call (.layout r)).1.found (t.call (.layout r')).1.found := by
  obtain ⟨hresult, hfound⟩ := Report.aliased_of_relabel (t.method.expression_aliased t.count 0 h)
  exact ⟨congrArg (Except.map fun e : Placed => Answer.expression e.expr) hresult, hfound⟩

/-- A fraction of a product and a difference beside the root of a misplaced sign. -/
theorem Transcriber.call_aliased_of_root :
    let r : Layout.Row := [.fraction [.glyph '2', .glyph '×', .glyph 'x'] [.glyph '−', .glyph 'y'],
      .framed .radical [.glyph '·']]
    let r' : Layout.Row := [.fraction [.glyph '2', .glyph '*', .glyph 'x'] [.glyph '-', .glyph 'y'],
      .framed .radical [.glyph '*']]
    let t : Transcriber := { method := {} }
    Layout.Row.Aliased r r' ∧
      (t.call (.layout r)).1.found = [⟨.unexpected (.codePoint "·"), .ofWidth 9 1⟩] ∧
      (t.call (.layout r')).1.found = [⟨.unexpected (.codePoint "*"), .ofWidth 9 1⟩] ∧
      (t.call (.layout r')).1.result = (t.call (.layout r)).1.result ∧
      List.Forall₂ Diagnostic.Aliased (t.call (.layout r)).1.found (t.call (.layout r')).1.found := by
  intro r r' t
  have habove : Layout.Row.Aliased [.glyph '2', .glyph '×', .glyph 'x'] [.glyph '2', .glyph '*', .glyph 'x'] :=
    .cons (.glyph rfl) (.cons (.glyph rfl) (.cons (.glyph rfl) .nil))
  have hbelow : Layout.Row.Aliased [.glyph '−', .glyph 'y'] [.glyph '-', .glyph 'y'] :=
    .cons (.glyph rfl) (.cons (.glyph rfl) .nil)
  have hrow : Layout.Row.Aliased r r' :=
    .cons (.fraction habove hbelow) (.cons (.framed (.cons (.glyph rfl) .nil)) .nil)
  exact ⟨hrow, by cbv, by cbv, t.call_aliased hrow⟩

end PlanarMath
