import PlanarMath.Schema

/-!
# Ranges of indices

A half-open range of indices of a layout.  Ranges are ordered by containment, and `span` is the least
range that contains two.
-/

namespace PlanarMath

/-- The indices from `start` up to but not including `stop`. -/
structure Range where
  start : Nat
  stop : Nat
  start_le_stop : start ≤ stop := by omega
  deriving DecidableEq, Repr

namespace Range

/-- The range of a number of indices from `start` on. -/
def ofWidth (start width : Nat) : Range := ⟨start, start + width, by omega⟩

/-- Whether all indices of `b` are among those of `a`, ends included. -/
def contains (a b : Range) : Bool := a.start ≤ b.start && b.stop ≤ a.stop

/-- The least range that contains both ranges. -/
def span (a b : Range) : Range :=
  ⟨min a.start b.start, max a.stop b.stop, by
    have := a.start_le_stop
    omega⟩

/-- The range with two given ends, which have to be in order. -/
def ofEnds (ends : Nat × Nat) : Schema.Checked Range :=
  if h : ends.1 ≤ ends.2 then .ok ⟨ends.1, ends.2, h⟩ else Schema.fault (.broken .backwards)

open Schema in
/-- The range between two integers, which have to be natural numbers. -/
def between (start stop : Int) : Checked Range :=
  (both (inside (.key "start") (natural (.int start))) (inside (.key "end") (natural (.int stop)))).bind
    ofEnds

open Schema in
/-- The range of a record. -/
def ofJson : Json → Checked Range
  | .object ms => (both (field "start" natural ms) (field "end" natural ms)).bind ofEnds
  | _ => fault .notRecord

/-- The record of a range. -/
def toJson (r : Range) : Json := .object [("start", .int r.start), ("end", .int r.stop)]

theorem contains_iff {a b : Range} : a.contains b ↔ a.start ≤ b.start ∧ b.stop ≤ a.stop := by
  simp [contains]

theorem contains_trans {a b c : Range} (hab : a.contains b) (hbc : b.contains c) : a.contains c := by
  simp only [contains_iff] at *
  omega

theorem contains_self (a : Range) : a.contains a := by
  simp [contains_iff]

theorem ofWidth_contains {i w j v : Nat} (hs : i ≤ j) (he : j + v ≤ i + w) :
    (ofWidth i w).contains (ofWidth j v) := by
  rw [contains_iff]
  exact ⟨hs, he⟩

theorem span_contains_left (a b : Range) : (a.span b).contains a := by
  simp only [contains_iff, span]; omega

theorem span_contains_right (a b : Range) : (a.span b).contains b := by
  simp only [contains_iff, span]; omega

/-- No range that contains two is smaller than their span. -/
theorem contains_span {a b c : Range} (ha : c.contains a) (hb : c.contains b) :
    c.contains (a.span b) := by
  simp only [contains_iff, span] at *; omega

end Range

end PlanarMath
