/-!
# Kinds of two-dimensional construct

Every element of a layout that is not a single glyph is a construct of one of nine kinds, which owns a
fixed number of containers: a fraction two, every other kind one.
-/

namespace PlanarMath.Layout

/-- The kind of a construct with containers of its own. -/
inductive Kind where
  | fraction
  | radical
  | absoluteValue
  | ceiling
  | floor
  | parentheses
  | brackets
  | superscript
  | subscript
  deriving DecidableEq, Repr

namespace Kind

/-- Every kind, in the order of declaration. -/
def all : List Kind :=
  [.fraction, .radical, .absoluteValue, .ceiling, .floor, .parentheses, .brackets, .superscript, .subscript]

/-- The name of a kind in files and messages. -/
def text : Kind → String
  | .fraction => "fraction"
  | .radical => "radical"
  | .absoluteValue => "absolute_value"
  | .ceiling => "ceiling"
  | .floor => "floor"
  | .parentheses => "parentheses"
  | .brackets => "brackets"
  | .superscript => "over"
  | .subscript => "under"

/-- The kind of a name. -/
def ofText? (s : String) : Option Kind := all.find? (·.text == s)

/-- The number of containers that a construct of a kind owns. -/
def containerCount : Kind → Nat
  | .fraction => 2
  | _ => 1

theorem ofText?_text (k : Kind) : ofText? k.text = some k := by
  cases k <;> rfl

end Kind

/-- A kind with a single container, which it surrounds or moves. -/
inductive Frame where
  | radical
  | absoluteValue
  | ceiling
  | floor
  | parentheses
  | brackets
  | superscript
  | subscript
  deriving DecidableEq, Repr

namespace Frame

/-- The kind of a frame. -/
def kind : Frame → Kind
  | .radical => .radical
  | .absoluteValue => .absoluteValue
  | .ceiling => .ceiling
  | .floor => .floor
  | .parentheses => .parentheses
  | .brackets => .brackets
  | .superscript => .superscript
  | .subscript => .subscript

end Frame

/-- The frame of a kind, which is any but the fraction. -/
def Kind.frame? : Kind → Option Frame
  | .fraction => none
  | .radical => some .radical
  | .absoluteValue => some .absoluteValue
  | .ceiling => some .ceiling
  | .floor => some .floor
  | .parentheses => some .parentheses
  | .brackets => some .brackets
  | .superscript => some .superscript
  | .subscript => some .subscript

theorem Frame.frame?_kind (f : Frame) : f.kind.frame? = some f := by
  cases f <;> rfl

end PlanarMath.Layout
