import Mathlib.Data.List.Nodup
import PlanarMath.Proofs.Layout.Places

/-!
# The slots of a layout

Everything that has an index of its own in a layout is a slot: a glyph, the opening and the closing of a
construct, and what separates two of its containers.  Containers start where the offsets of the construct
say, a separator follows the container before it, and the closing is the last index of the construct.
Widths are summed from the inside out and offsets counted from the outside in, and they fit: the slots of a
layout take up all its indices, one each, in the order in which they are written.

    a/b  as a fraction at 4:    4 opening   5 a   6 separator   7 b   8 closing
-/

namespace PlanarMath.Layout

/-- What has an index of its own. -/
inductive Part where
  | glyph (c : Char)
  | opening
  | separator
  | closing
  deriving DecidableEq, Repr

/-- An index and what it belongs to: a part of the element at a path. -/
structure Slot where
  path : List Nat
  part : Part
  index : Int
  deriving DecidableEq, Repr

/-- Where a container of an element starts when the element opens at an index. -/
def Element.startOf (x : Element) (index : Int) (k : Nat) : Int := index + (x.offsets.getD k 0 : Nat)

mutual

/-- The slots of an element that opens at an index. -/
def Element.slots (path : List Nat) (index : Int) : Element → List Slot
  | .glyph c => [⟨path, .glyph c, index⟩]
  | .fraction numerator denominator =>
    let x := Element.fraction numerator denominator
    ⟨path, .opening, index⟩ :: Row.slots (path ++ [0]) 0 (x.startOf index 0) numerator ++
      ⟨path, .separator, x.startOf index 0 + Row.width numerator⟩ ::
        Row.slots (path ++ [1]) 0 (x.startOf index 1) denominator ++
      [⟨path, .closing, index + x.width - 1⟩]
  | .framed frame body =>
    let x := Element.framed frame body
    ⟨path, .opening, index⟩ :: Row.slots (path ++ [0]) 0 (x.startOf index 0) body ++
      [⟨path, .closing, index + x.width - 1⟩]

/-- The slots of elements that start at a position and an index of their row. -/
def Row.slots (path : List Nat) (position : Nat) (index : Int) : List Element → List Slot
  | [] => []
  | x :: xs =>
    x.slots (path ++ [position]) index ++ Row.slots path (position + 1) (index + x.width) xs

end

/-! ## Runs of indices -/

/-- So many indices from one on. -/
def indices (i : Int) (count : Nat) : List Int := (List.range count).map fun k : Nat => i + k

theorem indices_add (i : Int) (m n : Nat) : indices i (m + n) = indices i m ++ indices (i + m) n := by
  simp only [indices, List.range_add, List.map_append, List.map_map]
  congr 1
  refine List.map_congr_left fun k _ => ?_
  simp only [Function.comp_apply]
  omega

theorem indices_one (i : Int) : indices i 1 = [i] := by
  simp [indices]

theorem indices_succ (i : Int) (count : Nat) : indices i (count + 1) = i :: indices (i + 1) count := by
  rw [Nat.add_comm, indices_add, indices_one]
  rfl

theorem mem_indices {i j : Int} {count : Nat} : j ∈ indices i count ↔ i ≤ j ∧ j < i + count := by
  simp only [indices, List.mem_map, List.mem_range]
  constructor
  · rintro ⟨k, hk, rfl⟩
    omega
  · rintro ⟨hle, hlt⟩
    exact ⟨(j - i).toNat, by omega, by omega⟩

theorem nodup_indices (i : Int) (count : Nat) : (indices i count).Nodup := by
  refine List.Pairwise.map _ ?_ List.nodup_range
  intro a b hab h
  exact hab (by omega)

/-! ## Widths and offsets fit -/

section
variable {x : Element} {k o : Nat} {c : Row}

/-- The containers of an element with their offsets, one by one. -/
theorem Element.container_cases (h : (x.offsets.zip x.containers)[k]? = some (o, c)) :
    (∃ above below, x = .fraction above below ∧
      (k = 0 ∧ o = 1 ∧ c = above ∨ k = 1 ∧ o = Row.width above + 2 ∧ c = below)) ∨
    ∃ frame, x = .framed frame c ∧ k = 0 ∧ o = 1 := by
  cases x with
  | glyph d => cases h
  | fraction above below =>
    refine .inl ⟨above, below, rfl, ?_⟩
    rw [offsets_fraction] at h
    match k, h with
    | 0, h =>
      cases h
      exact .inl ⟨rfl, rfl, rfl⟩
    | 1, h =>
      cases h
      exact .inr ⟨rfl, rfl, rfl⟩
  | framed frame body =>
    match k, h with
    | 0, h =>
      cases h
      exact .inr ⟨frame, rfl, rfl, rfl⟩

/-- A container starts behind the opening, and ends in front of the closing. -/
theorem Element.container_inside (h : (x.offsets.zip x.containers)[k]? = some (o, c)) :
    0 < o ∧ o + Row.width c < x.width := by
  obtain ⟨above, below, rfl, ⟨-, rfl, rfl⟩ | ⟨-, rfl, rfl⟩⟩ | ⟨frame, rfl, -, rfl⟩ := x.container_cases h
  · rw [width_fraction]
    omega
  · rw [width_fraction]
    omega
  · rw [width_framed]
    omega

theorem Element.length_offsets (x : Element) : x.offsets.length = x.containers.length := by
  cases x <;> rfl

/-- From the end of a container to the next one there is one index. -/
theorem Element.container_next {o' : Nat} {c' : Row} (h : (x.offsets.zip x.containers)[k]? = some (o, c))
    (h' : (x.offsets.zip x.containers)[k + 1]? = some (o', c')) : o' = o + Row.width c + 1 := by
  obtain ⟨above, below, rfl, ⟨rfl, rfl, rfl⟩ | ⟨rfl, -, -⟩⟩ | ⟨frame, rfl, rfl, -⟩ := x.container_cases h
  · cases h'
    omega
  · cases h'
  · cases h'

end

/-! ## The indices of slots -/

theorem Element.startOf_numerator (above below : Row) (i : Int) :
    (Element.fraction above below).startOf i 0 = i + 1 := rfl

theorem Element.startOf_denominator (above below : Row) (i : Int) :
    (Element.fraction above below).startOf i 1 = i + 1 + Row.width above + 1 := by
  rw [startOf, offsets_fraction]
  show i + ((Row.width above + 2 : Nat) : Int) = _
  omega

theorem Element.startOf_body (frame : Frame) (body : Row) (i : Int) :
    (Element.framed frame body).startOf i 0 = i + 1 := rfl

mutual

theorem Element.index_slots (path : List Nat) (i : Int) :
    ∀ x : Element, (x.slots path i).map (·.index) = indices i x.width
  | .glyph c => by simp [Element.slots, Element.width_glyph, indices_one]
  | .fraction above below => by
    have habove := Row.index_slots (path ++ [0]) 0 (i + 1) above
    have hbelow := Row.index_slots (path ++ [1]) 0 (i + 1 + Row.width above + 1) below
    have hwidth : (Element.fraction above below).width = Row.width above + (Row.width below + 1 + 1) + 1 := by
      rw [Element.width_fraction]
      omega
    have hclosing : i + (Element.fraction above below).width - 1 =
        i + 1 + Row.width above + 1 + Row.width below := by
      rw [Element.width_fraction]
      omega
    calc ((Element.fraction above below).slots path i).map (·.index)
      _ = i :: (indices (i + 1) (Row.width above) ++ (i + 1 + Row.width above) ::
          (indices (i + 1 + Row.width above + 1) (Row.width below) ++
            [i + 1 + Row.width above + 1 + Row.width below])) := by
        simp [Element.slots, Element.startOf_numerator, Element.startOf_denominator, habove, hbelow, hclosing]
      _ = indices i (Element.fraction above below).width := by
        rw [hwidth, indices_succ, indices_add, indices_succ, indices_add, indices_one]
  | .framed frame body => by
    have hbody := Row.index_slots (path ++ [0]) 0 (i + 1) body
    have hwidth : (Element.framed frame body).width = Row.width body + 1 + 1 := rfl
    have hclosing : i + (Element.framed frame body).width - 1 = i + 1 + Row.width body := by
      rw [Element.width_framed]
      omega
    calc ((Element.framed frame body).slots path i).map (·.index)
      _ = i :: (indices (i + 1) (Row.width body) ++ [i + 1 + Row.width body]) := by
        simp [Element.slots, Element.startOf_body, hbody, hclosing]
      _ = indices i (Element.framed frame body).width := by
        rw [hwidth, indices_succ, indices_add, indices_one]

/-- The slots of elements side by side have the indices of the elements, in order. -/
theorem Row.index_slots (path : List Nat) (position : Nat) (i : Int) :
    ∀ xs : Row, (Row.slots path position i xs).map (·.index) = indices i (Row.width xs)
  | [] => rfl
  | x :: xs => by
    rw [Row.slots, List.map_append, Element.index_slots _ i x, Row.index_slots path _ _ xs, Row.width,
      indices_add]

end

example : Row.slots [] 0 4 [.fraction [.glyph 'a'] [.glyph 'b']] =
    [⟨[0], .opening, 4⟩, ⟨[0, 0, 0], .glyph 'a', 5⟩, ⟨[0], .separator, 6⟩, ⟨[0, 1, 0], .glyph 'b', 7⟩,
      ⟨[0], .closing, 8⟩] := by decide

/-- **Partition.**  Every index of a row is that of one slot, and no other index is that of any. -/
theorem Row.countP_index_slots (path : List Nat) (position : Nat) (i j : Int) (xs : Row) :
    (Row.slots path position i xs).countP (·.index = j) = if i ≤ j ∧ j < i + Row.width xs then 1 else 0 := by
  have hcount : (Row.slots path position i xs).countP (·.index = j) = (indices i (Row.width xs)).count j := by
    rw [← Row.index_slots path position i xs, List.count, List.countP_map]
    rfl
  rw [hcount]
  split
  · next hj => exact List.count_eq_one_of_mem (nodup_indices i _) (mem_indices.2 hj)
  · next hj => exact List.count_eq_zero_of_not_mem fun hmem => hj (mem_indices.1 hmem)

/-! ## What stands in a layout -/

section
variable {x : Element} {offset : Nat} {c : Row}

/-- The slots of a container are among those of its element. -/
theorem Element.slots_of_container (path : List Nat) (i : Int) (h : (offset, c) ∈ x.offsets.zip x.containers) :
    ∃ k, ∀ s ∈ Row.slots (path ++ [k]) 0 (i + offset) c, s ∈ x.slots path i := by
  obtain ⟨k, h⟩ := List.mem_iff_getElem?.1 h
  refine ⟨k, fun s hs => ?_⟩
  obtain ⟨above, below, rfl, ⟨rfl, rfl, rfl⟩ | ⟨rfl, rfl, rfl⟩⟩ | ⟨frame, rfl, rfl, rfl⟩ := x.container_cases h
  · have hmem : s ∈ Row.slots (path ++ [0]) 0 ((Element.fraction c below).startOf i 0) c := hs
    rw [slots]
    simp [hmem]
  · have hmem : s ∈ Row.slots (path ++ [1]) 0 ((Element.fraction above c).startOf i 1) c := by
      rwa [startOf, offsets_fraction]
    rw [slots]
    simp [hmem]
  · have hmem : s ∈ Row.slots (path ++ [0]) 0 ((Element.framed frame c).startOf i 0) c := hs
    rw [slots]
    simp [hmem]

end

/-- What is ahead in a layout has its slots there. -/
theorem Row.Ahead.slots {base i : Nat} {r xs : Row} (h : Row.Ahead base r i xs) :
    ∃ path position, ∀ s ∈ Row.slots path position i xs, s ∈ Row.slots [] 0 base r := by
  induction h with
  | whole => exact ⟨[], 0, fun s hs => hs⟩
  | @behind i x xs _ ih =>
    obtain ⟨path, position, hall⟩ := ih
    refine ⟨path, position + 1, fun s hs => hall s ?_⟩
    rw [Row.slots]
    exact List.mem_append_right _ (by simpa using hs)
  | @inside i x xs offset c _ hmem ih =>
    obtain ⟨path, position, hall⟩ := ih
    obtain ⟨k, hk⟩ := x.slots_of_container (path ++ [position]) i hmem
    refine ⟨path ++ [position] ++ [k], 0, fun s hs => hall s ?_⟩
    rw [Row.slots]
    exact List.mem_append_left _ (hk s (by simpa using hs))

theorem Row.Stands.slots {base i : Nat} {r : Row} {x : Element} (h : Row.Stands base r i x) :
    ∃ path, ∀ s ∈ x.slots path i, s ∈ Row.slots [] 0 base r := by
  obtain ⟨xs, h⟩ := h
  obtain ⟨path, position, hall⟩ := h.slots
  refine ⟨path ++ [position], fun s hs => hall s ?_⟩
  rw [Row.slots]
  exact List.mem_append_left _ hs

end PlanarMath.Layout
