import Mathlib
import PlanarMath.Transcriber

/-!
# The count of a transcriber

Every operation of a transcriber leaves the count as it finds it (`Counting.Restores`), whether it gives a
result or is stopped by a fault, however many constructs deep.  So what an operation reports depends on the
count before it alone, and every call finds the transcriber as the first one found it.

    count      0    1    2      2    1    0
    inside          √    √  ε ✗                 a fault two constructs deep
-/

namespace PlanarMath

namespace Counting

variable {α β : Type}

/-- An operation that leaves the count as it finds it, whatever comes of it. -/
def Restores (x : Counting α) : Prop := ∀ count, (x count).2 = count

theorem map_report (f : α → β) (x : Counting α) (count : Int) : (x.map f count).1 = (x count).1.map f := rfl

theorem Restores.ofReport (r : Report α) : (Counting.ofReport r).Restores := fun _ => rfl

theorem Restores.andThen {x : Counting α} (hx : x.Restores) {f : α → Counting β}
    (hf : ∀ a, (f a).Restores) : (x.andThen f).Restores := by
  intro count
  have hafter := hx count
  unfold Counting.andThen
  cases hresult : (x count).1.result with
  | error e => simpa only [hresult] using hafter
  | ok a =>
    simp only [hresult, hafter]
    exact hf a count

theorem Restores.map {x : Counting α} (hx : x.Restores) (f : α → β) : (x.map f).Restores := hx

/-- The way out of a construct undoes the way in. -/
theorem Restores.inside {x : Counting α} (hx : x.Restores) : x.inside.Restores := by
  intro count
  have hafter := hx (count + 1)
  change (x (count + 1)).2 - 1 = count
  omega

/-- What comes of two operations, of which the second finds the count that the first found. -/
theorem Restores.andThen_report {x : Counting α} (hx : x.Restores) (f : α → Counting β) (count : Int) :
    (x.andThen f count).1 = (x count).1.andThen fun a => (f a count).1 := by
  have hafter := hx count
  unfold Counting.andThen Report.andThen
  cases hresult : (x count).1.result with
  | error e => simp only [hresult]
  | ok a => simp only [hresult, hafter]

end Counting

namespace Method

open Layout Reading Token Counting

variable (m : Method)

theorem content_restores (region : Range) {x : Counting (List Token)} (hx : x.Restores) :
    (m.content region x).Restores :=
  hx.andThen fun _ => .ofReport _

theorem framedContent_restores (frame : Frame) (region outer : Range) {x : Counting (List Token)}
    (hx : x.Restores) : (m.framedContent frame region outer x).Restores :=
  hx.andThen fun _ => .ofReport _

theorem unlessDeep_restores (frame? : Option Frame) (range : Range) {x : Counting Token}
    (hx : x.Restores) : (m.unlessDeep frame? range x).Restores := by
  intro count
  unfold unlessDeep
  split
  · rfl
  · exact hx.inside count

mutual

theorem element_restores (i : Nat) : ∀ x : Element, (m.element i x).Restores
  | .glyph c => .ofReport _
  | .fraction above below => by
    have hnum := elements_restores (i + 1) above
    have hden := elements_restores (i + 1 + Row.width above + 1) below
    rw [element]
    exact m.unlessDeep_restores none _
      ((m.content_restores _ hnum).andThen fun num => (m.content_restores _ hden).map _)
  | .framed frame body => by
    have hbody := elements_restores (i + 1) body
    rw [element]
    exact m.unlessDeep_restores (some frame) _ ((m.framedContent_restores frame _ _ hbody).map _)

theorem elements_restores (i : Nat) : ∀ xs : List Element, (m.elements i xs).Restores
  | [] => .ofReport _
  | x :: xs => by
    rw [elements]
    exact (element_restores i x).andThen fun t => (elements_restores _ xs).map _

end

theorem tokens_restores (i : Nat) (r : Row) : (m.tokens i r).Restores :=
  (m.elements_restores i r).andThen fun _ => .ofReport _

theorem expression_restores (i : Nat) (r : Row) : (m.expression i r).Restores :=
  m.content_restores _ (m.elements_restores i r)

theorem group_restores (i : Nat) (r : Row) : (m.group i r).Restores :=
  (m.tokens_restores i r).andThen fun _ => .ofReport _

theorem startingAt_restores {α : Type} (base : Int) (r : Row) {f : Nat → Counting α}
    (hf : ∀ i, (f i).Restores) : (startingAt base r f).Restores :=
  (Restores.ofReport _).andThen hf

theorem perform_restores : ∀ c : Call, (m.perform c).Restores
  | .layout r => (m.expression_restores 0 r).map _
  | .expression base r => (startingAt_restores base r fun i => m.expression_restores i r).map _
  | .group base r => (startingAt_restores base r fun i => m.group_restores i r).map _
  | .tokens base r => (startingAt_restores base r fun i => (m.tokens_restores i r).map _).map _

/-! ## What a construct reports -/

theorem content_report (region : Range) {x : Counting (List Token)} (hx : x.Restores) (count : Int) :
    (m.content region x count).1 =
      (x count).1.andThen fun ts => (m.merge ts).andThen (asExpression region) :=
  hx.andThen_report _ count

theorem framedContent_report (frame : Frame) (region outer : Range) {x : Counting (List Token)}
    (hx : x.Restores) (count : Int) :
    (m.framedContent frame region outer x count).1 =
      (x count).1.andThen (m.frameContent frame region outer) :=
  hx.andThen_report _ count

variable {m}

theorem unlessDeep_deep {count limit : Int} (h : m.isTooDeep count = some limit) (frame? : Option Frame)
    (range : Range) (x : Counting Token) :
    (m.unlessDeep frame? range x count).1 = deepToken limit frame? range := by
  unfold unlessDeep
  rw [h]

theorem unlessDeep_shallow {count : Int} (h : m.isTooDeep count = none) (frame? : Option Frame)
    (range : Range) (x : Counting Token) :
    (m.unlessDeep frame? range x count).1 = (x (count + 1)).1 := by
  unfold unlessDeep
  rw [h]
  rfl

/-- A fraction reports what its numerator and then its denominator report, both at the same count. -/
theorem fraction_report {count : Int} (h : m.isTooDeep count = none) (i : Nat) (above below : Row) :
    (m.element i (.fraction above below) count).1 =
      (m.content (.ofWidth (i + 1) (Row.width above)) (m.elements (i + 1) above) (count + 1)).1.andThen
        fun num =>
      (m.content (.ofWidth (i + 1 + Row.width above + 1) (Row.width below))
        (m.elements (i + 1 + Row.width above + 1) below) (count + 1)).1.map fun den =>
      .operand (num.pair .divide den (.ofWidth (i + 1 + Row.width above) 1)) false
        (.ofWidth i (Row.width above + Row.width below + 3)) := by
  rw [element, unlessDeep_shallow h, (m.content_restores _ (m.elements_restores _ above)).andThen_report]
  rfl

/-- A frame reports what its content reports. -/
theorem framed_report {count : Int} (h : m.isTooDeep count = none) (i : Nat) (frame : Frame) (body : Row) :
    (m.element i (.framed frame body) count).1 =
      (m.framedContent frame (.ofWidth (i + 1) (Row.width body)) (.ofWidth i (Row.width body + 2))
        (m.elements (i + 1) body) (count + 1)).1.map (frameToken frame (.ofWidth i (Row.width body + 2))) := by
  rw [element, unlessDeep_shallow h]
  rfl

theorem elements_cons_report (i : Nat) (x : Element) (xs : List Element) (count : Int) :
    (m.elements i (x :: xs) count).1 =
      (m.element i x count).1.andThen fun t => (m.elements (i + x.width) xs count).1.map (t :: ·) := by
  rw [elements, (m.element_restores i x).andThen_report]
  rfl

theorem tokens_report (i : Nat) (r : Row) (count : Int) :
    (m.tokens i r count).1 = (m.elements i r count).1.andThen m.merge :=
  (m.elements_restores i r).andThen_report _ count

theorem group_report (i : Nat) (r : Row) (count : Int) :
    (m.group i r count).1 = (m.tokens i r count).1.andThen fun ts =>
      match Range.between (i - 1) (i + Row.width r + 1) with
      | .ok outer => asGroup (regionOf i r) outer ts
      | .error issues => ⟨[], .error (.invalid issues)⟩ :=
  (m.tokens_restores i r).andThen_report _ count

theorem startingAt_report {α : Type} (base : Int) (r : Row) (f : Nat → Counting α) (count : Int) :
    (startingAt base r f count).1 = (Report.ofExcept (start base r)).andThen fun i => (f i count).1 :=
  (Restores.ofReport _).andThen_report f count

end Method

/-! ## Calls -/

namespace Transcriber

/-- A call leaves the transcriber as it finds it. -/
theorem call_restores (t : Transcriber) (c : Call) : (t.call c).2 = t := by
  have hcount := t.method.perform_restores c t.count
  unfold call
  simp only [hcount]

/-- Each of several calls finds the transcriber as the first one found it. -/
theorem callAll_eq_map (t : Transcriber) (cs : List Call) :
    t.callAll cs = cs.map fun c => ((t.call c).1, t.count) := by
  induction cs with
  | nil => rfl
  | cons c cs ih =>
    rw [callAll, List.map_cons, ← ih]
    simp only [t.call_restores c]

/-- A transcriber carries nothing from one call to the next: whatever was called before, also when it was
stopped by a fault, the count is zero again and the report is that of a transcriber that was never called. -/
theorem callAll_fresh (m : Method) (cs : List Call) :
    ({ method := m } : Transcriber).callAll cs =
      cs.map fun c => ((({ method := m } : Transcriber).call c).1, 0) :=
  callAll_eq_map { method := m } cs

/-- After a name that is refused two roots deep, under the limit two, another two roots are not too deep. -/
example :
    let t : Transcriber := { method := { functions := ⟨[⟨"", ["ε"], none⟩]⟩, limit? := some 2 } }
    let roots (c : Char) : Call := .layout [.framed .radical [.framed .radical [.glyph c]]]
    (t.callAll [roots 'ε', roots 'x']).map (fun a => (a.1.result.isOk, a.1.found, a.2)) =
      [(false, [], 0), (true, [], 0)] := by cbv

end Transcriber

end PlanarMath
