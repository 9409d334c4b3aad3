import PlanarMath.Diagnostic

/-!
# Cursors

A position in a list of marks that ends in an end of input.  A cursor moves forward one mark at a time
and never past the last one.
-/

namespace PlanarMath

/-- A position in a list of marks, the last of which is an end of input. -/
structure Cursor where
  marks : List Mark
  position : Nat
  inside : position < marks.length
  ends : (marks.getLast?.map Mark.kind) = some .endOfInput

namespace Cursor

/-- A cursor at the first mark, if the list ends as it should. -/
def ofMarks? (marks : List Mark) : Option Cursor :=
  if h : (marks.getLast?.map Mark.kind) = some .endOfInput then
    some ⟨marks, 0, List.length_pos_iff.2 (by rintro rfl; simp at h), h⟩
  else none

/-- The mark that the cursor stands at. -/
def current (c : Cursor) : Mark := c.marks.get ⟨c.position, c.inside⟩

/-- The cursor one mark further on, or where it was if it stands at the last. -/
def advance (c : Cursor) : Cursor :=
  if h : c.position + 1 < c.marks.length then ⟨c.marks, c.position + 1, h, c.ends⟩ else c

/-- Whether the cursor stands at a glyph with the given text. -/
def standsAt (c : Cursor) (glyph : String) : Bool := c.current.kind == .codePoint glyph

/-- The cursor after a glyph that it stands at, and whether it did. -/
def eat (c : Cursor) (glyph : String) : Bool × Cursor :=
  if c.standsAt glyph then (true, c.advance) else (false, c)

/-- Whether the cursor stands at something other than an end of input. -/
def hasMore (c : Cursor) : Bool := c.current.kind != .endOfInput

/-- The complaint that what the cursor stands at is not expected. -/
def complain (c : Cursor) : Diagnostic := .unexpected c.current

end Cursor

end PlanarMath
