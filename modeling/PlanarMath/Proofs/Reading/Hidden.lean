import PlanarMath.Proofs.Reading.Depth

/-!
# What the limit hides

Under a limit `n`, all that reading sees of a construct at level `n + 1` is how wide it is, and whether it is
a superscript, a subscript or an operand.  So two layouts that coincide down to level `n`, and below it in
these respects (`Row.AgreeTo`), are read as the same expression with the same complaints.

    limit 1     √ [ √x ]  and  √ [ |∗| ]     agree, since √x and |∗| are operands of width three
-/

namespace PlanarMath

namespace Layout

/-- What a construct is to the row that it stands in. -/
inductive Standing where
  | superscript
  | subscript
  | operand
  deriving DecidableEq, Repr

/-- What an element is to its row. -/
def Element.standing : Element → Standing
  | .framed .superscript _ => .superscript
  | .framed .subscript _ => .subscript
  | _ => .operand

mutual

/-- Elements that coincide down to level `n`, and in their widths and standings one level further down. -/
inductive Element.AgreeTo : Nat → Element → Element → Prop
  | glyph {n} (c) : Element.AgreeTo n (.glyph c) (.glyph c)
  | hidden {x y : Element} : x.isGlyph = false → y.isGlyph = false → x.width = y.width →
      x.standing = y.standing → Element.AgreeTo 0 x y
  | fraction {n above above' below below'} : Row.AgreeTo n above above' → Row.AgreeTo n below below' →
      Element.AgreeTo (n + 1) (.fraction above below) (.fraction above' below')
  | framed {n frame body body'} : Row.AgreeTo n body body' →
      Element.AgreeTo (n + 1) (.framed frame body) (.framed frame body')

/-- Rows that coincide down to level `n`, element by element. -/
inductive Row.AgreeTo : Nat → List Element → List Element → Prop
  | nil {n} : Row.AgreeTo n [] []
  | cons {n x y xs ys} : Element.AgreeTo n x y → Row.AgreeTo n xs ys → Row.AgreeTo n (x :: xs) (y :: ys)

end

mutual

theorem Element.AgreeTo.width_eq {n : Nat} : ∀ {x y : Element}, x.AgreeTo n y → x.width = y.width
  | .glyph c, y, h => by
    cases h with
    | glyph => rfl
    | hidden hx _ _ _ => cases hx
  | .fraction above below, y, h => by
    cases h with
    | hidden _ _ hwidth _ => exact hwidth
    | fraction habove hbelow =>
      rw [Element.width_fraction, Element.width_fraction, habove.width_eq, hbelow.width_eq]
  | .framed frame body, y, h => by
    cases h with
    | hidden _ _ hwidth _ => exact hwidth
    | framed hbody =>
      rw [Element.width_framed, Element.width_framed, hbody.width_eq]

theorem Row.AgreeTo.width_eq {n : Nat} : ∀ {xs ys : List Element},
    Row.AgreeTo n xs ys → Row.width xs = Row.width ys
  | [], ys, h => by
    cases h
    rfl
  | x :: xs, ys, h => by
    cases h with
    | cons hx hxs =>
      simp only [Row.width]
      rw [hx.width_eq, hxs.width_eq]

end

end Layout

namespace Reading

open Layout

variable {n level : Nat}

/-- The token of a construct that is nested too deep shows its standing and no more of its frame. -/
theorem deepToken_congr {x y : Element} (h : x.standing = y.standing) (limit : Int) (range : Range) :
    deepToken limit x.frame? range = deepToken limit y.frame? range := by
  have hstanding : ∀ z : Element, deepToken limit z.frame? range =
      ⟨[⟨.tooDeep limit, range⟩], .ok (match z.standing with
        | .superscript => .superscript (.error range) range
        | .subscript => .subscript (.error range) range
        | .operand => .operand (.error range) false range)⟩ := by
    intro z
    cases z with
    | framed frame body => cases frame <;> rfl
    | _ => rfl
  rw [hstanding x, hstanding y, h]

theorem elementToken_hidden (o : Options) (level i : Nat) {x y : Element} (hx : x.isGlyph = false)
    (hy : y.isGlyph = false) (hwidth : x.width = y.width) (hstanding : x.standing = y.standing) :
    elementToken (o.upTo level) level i x = elementToken (o.upTo level) level i y := by
  rw [elementToken_deep (o.isTooDeep_upTo level) hx, elementToken_deep (o.isTooDeep_upTo level) hy, hwidth,
    deepToken_congr hstanding]

theorem contentOf_congr {o : Options} {i : Nat} {xs ys : List Element} (hwidth : Row.width xs = Row.width ys)
    (h : rowTokens o level i xs = rowTokens o level i ys) : contentOf o level i xs = contentOf o level i ys := by
  unfold contentOf
  rw [h, hwidth]

theorem framedContentOf_congr {o : Options} {i : Nat} (frame : Frame) {xs ys : List Element}
    (hwidth : Row.width xs = Row.width ys)
    (h : rowTokens o level (i + 1) xs = rowTokens o level (i + 1) ys) :
    framedContentOf o level i frame xs = framedContentOf o level i frame ys := by
  unfold framedContentOf
  rw [h, hwidth]

mutual

theorem elementToken_congr (o : Options) (level n i : Nat) : ∀ {x y : Element}, x.AgreeTo n y →
    elementToken (o.upTo (level + n)) level i x = elementToken (o.upTo (level + n)) level i y
  | .glyph c, y, h => by
    cases h with
    | glyph => rfl
    | hidden hx _ _ _ => cases hx
  | .fraction above below, y, h => by
    cases h with
    | hidden hx hy hwidth hstanding => exact elementToken_hidden o level i hx hy hwidth hstanding
    | @fraction n _ above' _ below' habove hbelow =>
      have hlt : level < level + (n + 1) := by omega
      have hdeeper : level + (n + 1) = level + 1 + n := by omega
      have hnum := rowTokens_congr o (level + 1) n (i + 1) habove
      have hden := rowTokens_congr o (level + 1) n (i + Row.width above' + 2) hbelow
      rw [elementToken_fraction (o.isTooDeep_upTo_of_lt hlt), elementToken_fraction (o.isTooDeep_upTo_of_lt hlt),
        Element.AgreeTo.width_eq (.fraction habove hbelow), habove.width_eq, hdeeper,
        contentOf_congr habove.width_eq hnum, contentOf_congr hbelow.width_eq hden]
  | .framed frame body, y, h => by
    cases h with
    | hidden hx hy hwidth hstanding => exact elementToken_hidden o level i hx hy hwidth hstanding
    | @framed n _ _ body' hbody =>
      have hlt : level < level + (n + 1) := by omega
      have hdeeper : level + (n + 1) = level + 1 + n := by omega
      have hinner := rowTokens_congr o (level + 1) n (i + 1) hbody
      rw [elementToken_framed (o.isTooDeep_upTo_of_lt hlt), elementToken_framed (o.isTooDeep_upTo_of_lt hlt),
        Element.AgreeTo.width_eq (.framed hbody), hdeeper, framedContentOf_congr frame hbody.width_eq hinner]

theorem rowTokens_congr (o : Options) (level n i : Nat) : ∀ {xs ys : List Element}, Row.AgreeTo n xs ys →
    rowTokens (o.upTo (level + n)) level i xs = rowTokens (o.upTo (level + n)) level i ys
  | [], ys, h => by
    cases h
    rfl
  | x :: xs, ys, h => by
    cases h with
    | @cons _ _ y _ ys hx hxs =>
      rw [rowTokens, rowTokens, elementToken_congr o level n i hx, hx.width_eq,
        rowTokens_congr o level n (i + y.width) hxs]

end

/-- **Content below the limit.**  Layouts that agree to level `n` are read alike under the limit `n`. -/
theorem readLayout_congr (o : Options) {n : Nat} {r s : Row} (h : Row.AgreeTo n r s) :
    readLayout (o.upTo n) r = readLayout (o.upTo n) s := by
  have hrow := rowTokens_congr o 0 n 0 h
  rw [Nat.zero_add] at hrow
  rw [readLayout, readLayout, expression_eq_contentOf, expression_eq_contentOf]
  exact contentOf_congr h.width_eq hrow

/-- Under the limit one: constructs in a fraction, in the exponent of a function and in its argument. -/
theorem readLayout_congr_of_nested :
    let row : Element → Element → Element → Row := fun x y z =>
      [.fraction [.glyph '2', x] [.glyph '3'], .glyph '+', .glyph 's', .glyph 'i', .glyph 'n',
        .framed .superscript [.glyph '-', y], .framed .parentheses [.glyph 'a', z]]
    let r := row (.framed .radical [.glyph 'x']) (.framed .brackets [.glyph '1', .glyph '2'])
      (.framed .superscript [.framed .floor []])
    let s := row (.fraction [] []) (.fraction [] [.glyph '+']) (.framed .superscript [.glyph '4', .glyph '!'])
    let o : Options := {}
    r ≠ s ∧ Row.AgreeTo 1 r s ∧ readLayout (o.upTo 1) r = readLayout (o.upTo 1) s := by
  intro row r s o
  have hagree : ∀ {x x' y y' z z' : Element}, x.AgreeTo 0 x' → y.AgreeTo 0 y' → z.AgreeTo 0 z' →
      Row.AgreeTo 1 (row x y z) (row x' y' z') := by
    intro x x' y y' z z' hx hy hz
    have hnumerator : Row.AgreeTo 0 [.glyph '2', x] [.glyph '2', x'] := .cons (.glyph _) (.cons hx .nil)
    have hdenominator : Row.AgreeTo 0 [.glyph '3'] [.glyph '3'] := .cons (.glyph _) .nil
    have hexponent : Row.AgreeTo 0 [.glyph '-', y] [.glyph '-', y'] := .cons (.glyph _) (.cons hy .nil)
    have hargument : Row.AgreeTo 0 [.glyph 'a', z] [.glyph 'a', z'] := .cons (.glyph _) (.cons hz .nil)
    exact .cons (.fraction hnumerator hdenominator) (.cons (.glyph _) (.cons (.glyph _) (.cons (.glyph _)
      (.cons (.glyph _) (.cons (.framed hexponent) (.cons (.framed hargument) .nil))))))
  have hrs : Row.AgreeTo 1 r s :=
    hagree (.hidden rfl rfl rfl rfl) (.hidden rfl rfl rfl rfl) (.hidden rfl rfl rfl rfl)
  exact ⟨by decide, hrs, readLayout_congr o hrs⟩

end Reading

end PlanarMath
