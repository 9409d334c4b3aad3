import PlanarMath.Text.Quoted

/-!
# Texts of code points

A text that comes from outside may hold halves: code points that stand for a character in pairs only.
Such a text is a list of code points.  One without halves is a text of characters (`Points.toString?`).

    D83D DE00      two halves side by side      pair      1F600
    D83D 61        a half on its own            stays     no text of characters
-/

namespace PlanarMath.Text

/-- A code point: a character, or a half. -/
abbrev Point := Fin 0x110000

/-- A text of code points. -/
abbrev Points := List Point

namespace Point

/-- The code point of a character. -/
def ofChar (c : Char) : Point :=
  ⟨c.toNat, by
    have h : c.toNat < 0xD800 ∨ 0xDFFF < c.toNat ∧ c.toNat < 0x110000 := c.valid
    omega⟩

/-- The code point of a number that is not too large. -/
def ofNat (n : Nat) : Point := ⟨n % 0x110000, Nat.mod_lt n (by decide)⟩

/-- The character of a code point, unless it is a half. -/
def char? (p : Point) : Option Char :=
  if h : p.val.isValidChar then some (Char.ofNatAux p.val h) else none

/-- The first half of a pair. -/
def isHigh (p : Point) : Bool := 0xD800 ≤ p.val && p.val ≤ 0xDBFF

/-- The second half of a pair. -/
def isLow (p : Point) : Bool := 0xDC00 ≤ p.val && p.val ≤ 0xDFFF

/-- The character that two halves stand for. -/
def join (high low : Point) : Point :=
  .ofNat (0x10000 + (high.val - 0xD800) * 0x400 + (low.val - 0xDC00))

/-- A code point of quoted text; a half cannot be shown. -/
def quoted (quote : Char) (p : Point) : List Char :=
  match p.char? with
  | some c => quotedChar quote c
  | none => '\\' :: 'u' :: hexDigits 4 p.val

end Point

namespace Points

/-- A text of characters as one of code points. -/
def ofString (s : String) : Points := s.toList.map Point.ofChar

instance : Coe String Points := ⟨ofString⟩

/-- The text of characters that a text is, unless it holds a half. -/
def toString? (ps : Points) : Option String := (ps.mapM Point.char?).map String.ofList

/-- The text in which every two halves of a pair side by side are joined, from left to right. -/
def pair : Points → Points
  | [] => []
  | [p] => [p]
  | p :: q :: ps => if p.isHigh && q.isLow then p.join q :: pair ps else p :: pair (q :: ps)

/-- The text between quotes, with what cannot be shown escaped. -/
def quoted (ps : Points) : String :=
  let quote := quoteFor (ps.filterMap Point.char?)
  String.ofList (quote :: ps.flatMap (Point.quoted quote) ++ [quote])

/-! ## Lemmas -/

end Points

namespace Point

theorem char?_ofChar (c : Char) : (ofChar c).char? = some c := by
  have hvalid : (ofChar c).val.isValidChar := c.valid
  unfold char?
  rw [dif_pos hvalid]
  refine congrArg some (Char.ext (UInt32.toNat_inj.1 ?_))
  exact UInt32.toNat_ofNatLT

theorem ofChar_of_char? {p : Point} {c : Char} (h : p.char? = some c) : p = ofChar c := by
  obtain ⟨hvalid, hc⟩ := Option.dite_none_right_eq_some.1 h
  obtain rfl := Option.some.inj hc
  rfl

/-- A character is no half. -/
theorem isHigh_ofChar (c : Char) : (ofChar c).isHigh = false := by
  have h : c.toNat < 0xD800 ∨ 0xDFFF < c.toNat ∧ c.toNat < 0x110000 := c.valid
  rw [isHigh, Bool.and_eq_false_iff]
  obtain hlow | ⟨hhigh, -⟩ := h
  · exact .inl (decide_eq_false (Nat.not_le.2 hlow))
  · exact .inr (decide_eq_false (Nat.not_le.2 (Nat.lt_of_le_of_lt (by decide) hhigh)))

end Point

namespace Points

theorem toString?_ofString (s : String) : toString? (ofString s) = some s := by
  have h : ∀ cs : List Char, (cs.map Point.ofChar).mapM Point.char? = some cs := by
    intro cs
    induction cs with
    | nil => rfl
    | cons c cs ih => simp [Point.char?_ofChar, ih]
  rw [toString?, ofString, h, Option.map_some, String.ofList_toList]

theorem toString?_eq_some_iff {ps : Points} {s : String} : toString? ps = some s ↔ ps = ofString s := by
  refine ⟨fun h => ?_, fun h => h ▸ toString?_ofString s⟩
  obtain ⟨cs, hcs, rfl⟩ := Option.map_eq_some_iff.1 h
  rw [ofString, String.toList_ofList]
  clear h
  induction ps generalizing cs with
  | nil =>
    cases hcs
    rfl
  | cons p ps ih =>
    simp only [List.mapM_cons, Option.bind_eq_bind, Option.bind_eq_some_iff, Option.pure_def,
      Option.some.injEq] at hcs
    obtain ⟨c, hc, ds, hds, rfl⟩ := hcs
    rw [List.map_cons, ← Point.ofChar_of_char? hc, ← ih ds hds]

theorem ofString_inj {s t : String} : ofString s = ofString t ↔ s = t := by
  refine ⟨fun h => ?_, congrArg ofString⟩
  have := toString?_ofString s
  rw [h, toString?_ofString] at this
  exact (Option.some.inj this).symm

/-- In a text of characters there is nothing to join. -/
theorem pair_map_ofChar (cs : List Char) : pair (cs.map Point.ofChar) = cs.map Point.ofChar := by
  match cs with
  | [] => rfl
  | [c] => rfl
  | c :: d :: cs =>
    have ih := pair_map_ofChar (d :: cs)
    rw [List.map_cons] at ih
    rw [List.map_cons, List.map_cons, pair, Point.isHigh_ofChar, ih]
    rfl

end Points

end PlanarMath.Text
