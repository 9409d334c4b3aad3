import PlanarMath.Layout.Basic

/-!
# Where the constructs of a layout stand

A site tells where one construct of a layout is: the path to it, which alternates the position of an
element in its row and the position of a container in its element, and the indices that it takes up
when the layout starts at a given one.  Sites come parents first.
-/

namespace PlanarMath.Layout

/-- A construct in its place. -/
structure Site where
  path : List Nat
  kind : Kind
  index : Int
  width : Nat
  /-- The index at which each of its containers starts. -/
  offsets : List Int
  deriving DecidableEq, Repr

mutual

/-- The sites of an element that opens at an index, and of all inside it. -/
def Element.sites (path : List Nat) (index : Int) : Element → List Site
  | .glyph _ => []
  | .fraction numerator denominator =>
    let e := Element.fraction numerator denominator
    ⟨path, .fraction, index, e.width, e.offsets.map fun (o : Nat) => index + o⟩ ::
      Row.sites (path ++ [0]) 0 (index + 1) numerator ++
      Row.sites (path ++ [1]) 0 (index + Row.width numerator + 2) denominator
  | .framed frame body =>
    let e := Element.framed frame body
    ⟨path, frame.kind, index, e.width, e.offsets.map fun (o : Nat) => index + o⟩ ::
      Row.sites (path ++ [0]) 0 (index + 1) body

/-- The sites of elements that start at a position and an index of their row. -/
def Row.sites (path : List Nat) (position : Nat) (index : Int) : List Element → List Site
  | [] => []
  | e :: es =>
    e.sites (path ++ [position]) index ++ Row.sites path (position + 1) (index + e.width) es

end

end PlanarMath.Layout
