import PlanarMath.Layout.Basic

/-!
# Places of a layout

What stands where in a layout that starts at an index.  Whoever goes through a layout has, at an index,
some elements of a container ahead: at first the whole layout, then what is behind the first of them, or a
container of that one (`Ahead`).  An index opens an element (`Stands`), and a range holds a text when it
covers as many characters of one container, side by side (`Spells`).

    x y | a/b | z     at 2 the fraction and z are ahead, at 3 the numerator, at 5 the denominator, at 7 z
-/

namespace PlanarMath.Layout

namespace Row

/-- At index `i` the elements `xs` of a container are ahead, up to its end. -/
inductive Ahead (base : Nat) (r : Row) : Nat → Row → Prop
  | whole : Ahead base r base r
  | behind {i x xs} : Ahead base r i (x :: xs) → Ahead base r (i + x.width) xs
  | inside {i x xs offset c} :
      Ahead base r i (x :: xs) → (offset, c) ∈ x.offsets.zip x.containers → Ahead base r (i + offset) c

/-- An element opens at an index. -/
def Stands (base : Nat) (r : Row) (i : Nat) (x : Element) : Prop := ∃ xs, Ahead base r i (x :: xs)

/-- The characters of a container at the indices of a range, side by side, are those of a text. -/
def Spells (base : Nat) (r : Row) (text : List Char) (range : Range) : Prop :=
  ∃ i xs, Ahead base r i (text.map .glyph ++ xs) ∧ range = .ofWidth i text.length

theorem width_glyphs (text : List Char) : width (text.map .glyph) = text.length := by
  induction text with
  | nil => rfl
  | cons c text ih =>
    rw [List.map_cons, width, ih, Element.width_glyph, List.length_cons]
    omega

namespace Ahead

variable {base i : Nat} {r xs : Row}

theorem stands {x : Element} (h : Ahead base r i (x :: xs)) : Stands base r i x := ⟨xs, h⟩

theorem spells {text : List Char} (h : Ahead base r i (text.map .glyph ++ xs)) :
    Spells base r text (.ofWidth i text.length) := ⟨i, xs, h, rfl⟩

theorem drop {ys : Row} (h : Ahead base r i (ys ++ xs)) : Ahead base r (i + width ys) xs := by
  induction ys generalizing i with
  | nil => exact h
  | cons y ys ih =>
    have := ih h.behind
    rwa [Nat.add_assoc] at this

end Ahead

namespace Stands

variable {base i : Nat} {r above below content : Row}

theorem numerator (h : Stands base r i (.fraction above below)) : Ahead base r (i + 1) above := by
  obtain ⟨xs, h⟩ := h
  exact h.inside (by simp [Element.offsets_fraction, Element.containers])

theorem denominator (h : Stands base r i (.fraction above below)) :
    Ahead base r (i + width above + 2) below := by
  obtain ⟨xs, h⟩ := h
  have hbelow : (width above + 2, below) ∈
      (Element.fraction above below).offsets.zip (Element.fraction above below).containers := by
    simp [Element.offsets_fraction, Element.containers]
  exact h.inside hbelow

theorem body {frame : Frame} (h : Stands base r i (.framed frame content)) :
    Ahead base r (i + 1) content := by
  obtain ⟨xs, h⟩ := h
  exact h.inside (by simp [Element.offsets_framed, Element.containers])

theorem spells {c : Char} (h : Stands base r i (.glyph c)) : Spells base r [c] (.ofWidth i 1) := by
  obtain ⟨xs, h⟩ := h
  exact ⟨i, xs, h, rfl⟩

end Stands

end Row

end PlanarMath.Layout
