import PlanarMath.Range
import PlanarMath.Schema

/-!
# Two-dimensional layouts

A layout is a row of elements: glyphs, fractions of two rows, and frames around one row.  The number of
containers that an element owns is the one its kind asks for, by the shape of the type.

Every element takes up a run of consecutive indices: a glyph one, a construct one opening index, the
indices of its containers with one separator between two of them, and one closing index.

    a/b  as a fraction:   open a bar b close      width 5, offsets [1, 3]
-/

namespace PlanarMath.Layout

/-- An element of a row. -/
inductive Element where
  /-- A single character. -/
  | glyph (c : Char)
  /-- A numerator above a denominator. -/
  | fraction (numerator denominator : List Element)
  /-- A construct with one container. -/
  | framed (frame : Frame) (body : List Element)
  deriving Repr

/-- A container: elements side by side. -/
abbrev Row := List Element

/-- Whether an element is a single character. -/
def Element.isGlyph : Element → Bool
  | .glyph _ => true
  | _ => false

/-! ## Equality -/

mutual

/-- Equality of elements is decided part by part. -/
def Element.decEq : (a b : Element) → Decidable (a = b)
  | .glyph c, .glyph d =>
    if h : c = d then .isTrue (h ▸ rfl) else .isFalse fun e => h (Element.glyph.inj e)
  | .fraction a b, .fraction c d =>
    match Row.decEq a c, Row.decEq b d with
    | .isTrue h, .isTrue k => .isTrue (h ▸ k ▸ rfl)
    | .isFalse h, _ => .isFalse fun e => h (Element.fraction.inj e).1
    | _, .isFalse k => .isFalse fun e => k (Element.fraction.inj e).2
  | .framed f a, .framed g b =>
    if h : f = g then
      match Row.decEq a b with
      | .isTrue k => .isTrue (h ▸ k ▸ rfl)
      | .isFalse k => .isFalse fun e => k (Element.framed.inj e).2
    else .isFalse fun e => h (Element.framed.inj e).1
  | .glyph _, .fraction .. | .glyph _, .framed .. | .fraction .., .glyph _ | .fraction .., .framed ..
  | .framed .., .glyph _ | .framed .., .fraction .. => .isFalse nofun

/-- Equality of rows is decided element by element. -/
def Row.decEq : (a b : List Element) → Decidable (a = b)
  | [], [] => .isTrue rfl
  | x :: xs, y :: ys =>
    match Element.decEq x y, Row.decEq xs ys with
    | .isTrue h, .isTrue k => .isTrue (h ▸ k ▸ rfl)
    | .isFalse h, _ => .isFalse fun e => h (List.cons.inj e).1
    | _, .isFalse k => .isFalse fun e => k (List.cons.inj e).2
  | [], _ :: _ | _ :: _, [] => .isFalse nofun

end

instance : DecidableEq Element := Element.decEq

/-! ## Width -/

/-- The number of indices of a construct whose containers have these widths: theirs, one for each of them,
and one more. -/
def widthAround (widths : List Nat) : Nat := widths.foldr (· + ·) 0 + widths.length + 1

mutual

/-- The number of indices that an element takes up. -/
def Element.width : Element → Nat
  | .glyph _ => 1
  | .fraction numerator denominator => widthAround [Row.width numerator, Row.width denominator]
  | .framed _ body => widthAround [Row.width body]

/-- The number of indices that a row takes up. -/
def Row.width : List Element → Nat
  | [] => 0
  | e :: es => e.width + Row.width es

end

/-- The starts of containers side by side, the first of which starts at an index; there is one index
between two of them. -/
def startsFrom (index : Nat) : List Row → List Nat
  | [] => []
  | r :: rs => index :: startsFrom (index + Row.width r + 1) rs

namespace Element

theorem width_glyph (c : Char) : (glyph c).width = 1 := rfl

theorem width_fraction (numerator denominator : Row) :
    (fraction numerator denominator).width = Row.width numerator + Row.width denominator + 3 := rfl

theorem width_framed (frame : Frame) (body : Row) : (framed frame body).width = Row.width body + 2 := rfl

/-- The containers that an element owns, in order. -/
def containers : Element → List Row
  | .glyph _ => []
  | .fraction numerator denominator => [numerator, denominator]
  | .framed _ body => [body]

/-- The kind of an element that is not a glyph. -/
def kind? : Element → Option Kind
  | .glyph _ => none
  | .fraction .. => some .fraction
  | .framed frame _ => some frame.kind

/-- The start of each container, counted from the opening index of the element. -/
def offsets (e : Element) : List Nat := startsFrom 1 e.containers

theorem offsets_fraction (numerator denominator : Row) :
    (fraction numerator denominator).offsets = [1, Row.width numerator + 2] := by
  simp only [offsets, containers, startsFrom, List.cons.injEq, and_true, true_and]
  omega

theorem offsets_framed (frame : Frame) (body : Row) : (framed frame body).offsets = [1] := rfl

/-- The construct of a kind, which has to be given as many containers as it owns. -/
def ofContainers (kind : Kind) (containers : List Row) : Schema.Checked Element :=
  match kind.frame?, containers with
  | none, [numerator, denominator] => .ok (.fraction numerator denominator)
  | some frame, [body] => .ok (.framed frame body)
  | _, _ => Schema.fault (.broken (.containerCount kind containers.length))

theorem width_pos (e : Element) : 0 < e.width := by
  cases e <;> simp [width_glyph, width_fraction, width_framed]

theorem length_containers {e : Element} {k : Kind} (h : e.kind? = some k) :
    e.containers.length = k.containerCount := by
  cases e with
  | glyph c => simp [kind?] at h
  | fraction n d => simp [kind?] at h; subst h; rfl
  | framed f b => simp [kind?] at h; subst h; cases f <;> rfl

end Element

theorem Row.width_append (a b : Row) : Row.width (a ++ b) = Row.width a + Row.width b := by
  induction a with
  | nil => simp [Row.width]
  | cons e es ih => simp [Row.width, ih]; omega

/-! ## Building layouts -/

/-- Something that a row can be put together from. -/
inductive Item where
  /-- Plain text, one glyph a character. -/
  | text (s : String)
  /-- A single element. -/
  | element (e : Element)
  /-- The elements of another row. -/
  | row (r : Row)

/-- The glyphs of a text. -/
def Row.ofString (s : String) : Row := s.toList.map .glyph

/-- The row that an item stands for. -/
def Item.toRow : Item → Row
  | .text s => Row.ofString s
  | .element e => [e]
  | .row r => r

/-- Items side by side. -/
def Row.ofItems (items : List Item) : Row := items.flatMap Item.toRow

/-- A construct around items, each the content of one container. -/
def Element.ofItems (kind : Kind) (contents : List Item) : Schema.Checked Element :=
  Element.ofContainers kind (contents.map Item.toRow)

end PlanarMath.Layout
