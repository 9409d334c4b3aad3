import PlanarMath.Layout.Index

/-!
# Levels of nesting

The constructs of a layout by how deep they are nested.  A construct of the layout itself is at level one,
a construct in a container of it at level two, and so on; the path of a site has one position for each of
these constructs and one for each container on the way.

    1 + √(a/b)     the root at level 1, path [2]     the fraction at level 2, path [2, 0, 0]

Sites of one level stand side by side, in the order in which they are listed.
-/

namespace PlanarMath.Layout

/-- How many constructs there are on the way to a site, itself included. -/
def Site.level (s : Site) : Nat := (s.path.length + 1) / 2

/-- The indices that a site takes up. -/
def Site.range (s : Site) : Range := .ofWidth s.index.toNat s.width

theorem Site.level_of_length {s : Site} {n : Nat} (h : s.path.length = 2 * n + 1) : s.level = n + 1 := by
  unfold level
  omega

/-! ## What a site is inside of -/

/-- A site below a path, between two indices. -/
structure Site.Below (path : List Nat) (start stop : Int) (s : Site) : Prop where
  length : path.length < s.path.length
  start : start ≤ s.index
  stop : s.index + s.width ≤ stop

theorem Site.Below.mono {path path' : List Nat} {start start' stop stop' : Int} {s : Site}
    (h : s.Below path start stop) (hpath : path'.length ≤ path.length) (hstart : start' ≤ start)
    (hstop : stop ≤ stop') : s.Below path' start' stop' where
  length := Nat.lt_of_le_of_lt hpath h.length
  start := Int.le_trans hstart h.start
  stop := Int.le_trans h.stop hstop

/-- What is below a container of a site is at a level further down. -/
theorem Site.Below.level_lt {path : List Nat} {start stop : Int} {s t : Site}
    (h : t.Below path start stop) (hs : s.path.length < path.length) : s.level < t.level := by
  have := h.length
  simp only [level]
  omega

mutual

theorem Element.below_of_mem_sites (path : List Nat) (position : Nat) (i : Int) :
    ∀ x : Element, ∀ s ∈ x.sites (path ++ [position]) i, s.Below path i (i + x.width)
  | .glyph c => by simp [Element.sites]
  | .fraction above below => by
    intro s hs
    have hlength : path.length < (path ++ [position]).length := by simp
    rw [Element.sites, List.cons_append, List.mem_cons, List.mem_append] at hs
    obtain rfl | hs | hs := hs
    · exact ⟨hlength, Int.le_refl i, Int.le_refl _⟩
    · have := Row.below_of_mem_sites (path ++ [position] ++ [0]) 0 (i + 1) above s hs
      exact this.mono (by simp) (by omega) (by simp only [Element.width_fraction]; omega)
    · have := Row.below_of_mem_sites (path ++ [position] ++ [1]) 0 (i + Row.width above + 2) below s hs
      exact this.mono (by simp) (by omega) (by simp only [Element.width_fraction]; omega)
  | .framed frame body => by
    intro s hs
    have hlength : path.length < (path ++ [position]).length := by simp
    rw [Element.sites, List.mem_cons] at hs
    obtain rfl | hs := hs
    · exact ⟨hlength, Int.le_refl i, Int.le_refl _⟩
    · have := Row.below_of_mem_sites (path ++ [position] ++ [0]) 0 (i + 1) body s hs
      exact this.mono (by simp) (by omega) (by simp only [Element.width_framed]; omega)

theorem Row.below_of_mem_sites (path : List Nat) (position : Nat) (i : Int) :
    ∀ xs : Row, ∀ s ∈ Row.sites path position i xs, s.Below path i (i + Row.width xs)
  | [] => by simp [Row.sites]
  | x :: xs => by
    intro s hs
    rw [Row.sites, List.mem_append] at hs
    rw [Row.width]
    obtain hs | hs := hs
    · exact (Element.below_of_mem_sites path position i x s hs).mono (Nat.le_refl _) (Int.le_refl i)
        (by omega)
    · have := Row.below_of_mem_sites path (position + 1) (i + x.width) xs s hs
      exact this.mono (Nat.le_refl _) (by omega) (by omega)

end

/-- A construct is listed before all that is inside it. -/
theorem Element.exists_site (path : List Nat) (i : Nat) {x : Element} (hx : x.isGlyph = false) :
    ∃ s inside, x.sites path i = s :: inside ∧ s.path = path ∧ s.range = .ofWidth i x.width ∧
      ∀ t ∈ inside, s.level < t.level := by
  have hlength : ∀ k, path.length < (path ++ [k]).length := by simp
  cases x with
  | glyph c => cases hx
  | fraction above below =>
    refine ⟨_, _, rfl, rfl, rfl, fun t ht => ?_⟩
    obtain ht | ht := List.mem_append.1 ht
    · exact (Row.below_of_mem_sites _ _ _ above t ht).level_lt (hlength 0)
    · exact (Row.below_of_mem_sites _ _ _ below t ht).level_lt (hlength 1)
  | framed frame body =>
    exact ⟨_, _, rfl, rfl, rfl, fun t ht => (Row.below_of_mem_sites _ _ _ body t ht).level_lt (hlength 0)⟩

/-! ## The order of sites -/

/-- Of two sites at one level, the first ends before the second starts. -/
def Site.Precedes (a b : Site) : Prop := a.level = b.level → a.index + a.width ≤ b.index

theorem Site.precedes_of_lt {a b : Site} (h : a.level < b.level) : a.Precedes b :=
  fun hlevel => absurd hlevel (Nat.ne_of_lt h)

mutual

theorem Element.sites_inOrder (path : List Nat) (i : Int) :
    ∀ x : Element, (x.sites path i).Pairwise Site.Precedes
  | .glyph c => by simp [Element.sites]
  | .fraction above below => by
    have habove := Row.below_of_mem_sites (path ++ [0]) 0 (i + 1) above
    have hbelow := Row.below_of_mem_sites (path ++ [1]) 0 (i + Row.width above + 2) below
    rw [Element.sites, List.cons_append, List.pairwise_cons, List.pairwise_append]
    refine ⟨?_, Row.sites_inOrder _ _ _ above, Row.sites_inOrder _ _ _ below, ?_⟩
    · intro s hs
      obtain hs | hs := List.mem_append.1 hs
      · exact Site.precedes_of_lt ((habove s hs).level_lt (by simp))
      · exact Site.precedes_of_lt ((hbelow s hs).level_lt (by simp))
    · intro s hs t ht _
      have := (habove s hs).stop
      have := (hbelow t ht).start
      omega
  | .framed frame body => by
    have hbody := Row.below_of_mem_sites (path ++ [0]) 0 (i + 1) body
    rw [Element.sites, List.pairwise_cons]
    exact ⟨fun s hs => Site.precedes_of_lt ((hbody s hs).level_lt (by simp)), Row.sites_inOrder _ _ _ body⟩

theorem Row.sites_inOrder (path : List Nat) (position : Nat) (i : Int) :
    ∀ xs : Row, (Row.sites path position i xs).Pairwise Site.Precedes
  | [] => by simp [Row.sites]
  | x :: xs => by
    rw [Row.sites, List.pairwise_append]
    refine ⟨Element.sites_inOrder _ i x, Row.sites_inOrder path _ _ xs, ?_⟩
    intro s hs t ht _
    have := (Element.below_of_mem_sites path position i x s hs).stop
    have := (Row.below_of_mem_sites path (position + 1) (i + x.width) xs t ht).start
    omega

end

end PlanarMath.Layout
