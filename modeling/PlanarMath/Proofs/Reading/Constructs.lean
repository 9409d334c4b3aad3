import PlanarMath.Reading

/-!
# One step into a construct

What reading makes of an element, by what stands there: of a construct that is nested too deep nothing but
its frame and its width, and otherwise the expressions of its containers, each read one level further in.
Proofs by recursion over a layout start from these equations.
-/

namespace PlanarMath

namespace Layout

/-- The frame of a construct that has one. -/
def Element.frame? : Element → Option Frame
  | .framed frame _ => some frame
  | _ => none

end Layout

namespace Reading

open Layout

/-- The expression of a container that starts at an index, inside `level` constructs. -/
def contentOf (o : Options) (level i : Nat) (xs : List Element) : Report Placed :=
  (rowTokens o level i xs).andThen fun ts => (merge o ts).andThen (asExpression (.ofWidth i (Row.width xs)))

/-- The expression of the container of a frame that opens at an index. -/
def framedContentOf (o : Options) (level i : Nat) (frame : Frame) (xs : List Element) : Report Placed :=
  (rowTokens o level (i + 1) xs).andThen
    (frameContent o frame (.ofWidth (i + 1) (Row.width xs)) (.ofWidth i (Row.width xs + 2)))

theorem expression_eq_contentOf (o : Options) (i : Nat) (r : Row) : expression o i r = contentOf o 0 i r :=
  Report.andThen_assoc _ _ _

section
variable {o : Options} {level i : Nat}

theorem elementToken_deep {limit : Int} (h : o.isTooDeep level = some limit) {x : Element}
    (hx : x.isGlyph = false) :
    elementToken o level i x = deepToken limit x.frame? (.ofWidth i x.width) := by
  cases x with
  | glyph c => cases hx
  | fraction above below =>
    rw [elementToken, h]
    rfl
  | framed frame body =>
    rw [elementToken, h]
    rfl

theorem elementToken_fraction (h : o.isTooDeep level = none) (above below : List Element) :
    elementToken o level i (.fraction above below) =
      (contentOf o (level + 1) (i + 1) above).andThen fun num =>
        (contentOf o (level + 1) (i + Row.width above + 2) below).map fun den =>
          .operand (num.pair .divide den (.ofWidth (i + 1 + Row.width above) 1)) false
            (.ofWidth i (Element.fraction above below).width) := by
  have hbelow : (Range.ofWidth (i + 1) (Row.width above)).stop + 1 = i + Row.width above + 2 := by
    simp only [Range.ofWidth]; omega
  rw [elementToken, h]
  simp only [hbelow]
  rfl

theorem elementToken_framed (h : o.isTooDeep level = none) (frame : Frame) (body : List Element) :
    elementToken o level i (.framed frame body) =
      (framedContentOf o (level + 1) i frame body).map
        (frameToken frame (.ofWidth i (Element.framed frame body).width)) := by
  rw [elementToken, h]
  rfl

end

end Reading

end PlanarMath
