import PlanarMath.Proofs.Layout.Places
import PlanarMath.Proofs.Reading.Elements
import PlanarMath.Proofs.Token.Merged

/-!
# Runs of characters

Each element of a row becomes one token in its own place: a character the glyph at its index, a construct
a token in the range of the construct that is no glyph (`Token.Of`).  So a run of glyphs in front of the
tokens of a row is read from as many characters in front of the row, at consecutive indices.
-/

namespace PlanarMath

open Layout

namespace Token

/-- A token in the place of an element that opens at an index, a glyph exactly where a character stands. -/
def Of (i : Nat) : Element → Token → Prop
  | .glyph c, t => t = .glyph c (.ofWidth i 1)
  | x, t => (∀ c r, t ≠ .glyph c r) ∧ t.range = .ofWidth i x.width

theorem Of.range {i : Nat} {x : Element} {t : Token} (h : Of i x t) : t.range = .ofWidth i x.width := by
  cases x with
  | glyph c => rw [show t = _ from h]; rfl
  | fraction => exact h.2
  | framed => exact h.2

theorem Of.eq_glyph {i : Nat} {x : Element} {c : Char} {r : Range} (h : Of i x (.glyph c r)) :
    x = .glyph c ∧ r = .ofWidth i 1 := by
  cases x with
  | glyph d =>
    have he : Token.glyph c r = .glyph d (.ofWidth i 1) := h
    cases he
    exact ⟨rfl, rfl⟩
  | fraction => exact absurd rfl (h.1 c r)
  | framed => exact absurd rfl (h.1 c r)

/-- A token that is no glyph is in the place of a construct. -/
theorem Of.of_construct {i : Nat} {x : Element} {t : Token} (hx : x.isGlyph = false)
    (ht : ∀ c r, t ≠ .glyph c r) (hr : t.range = .ofWidth i x.width) : t.Of i x := by
  cases x with
  | glyph c => cases hx
  | fraction => exact ⟨ht, hr⟩
  | framed => exact ⟨ht, hr⟩

theorem Of.operand {i : Nat} {x : Element} (hx : x.isGlyph = false) (node : Placed) (function : Bool) :
    (Token.operand node function (.ofWidth i x.width)).Of i x :=
  .of_construct hx (fun c r h => by cases h) rfl

/-- Characters at consecutive indices. -/
def placed (i : Nat) : List Char → List (Char × Range)
  | [] => []
  | c :: cs => (c, .ofWidth i 1) :: placed (i + 1) cs

theorem placed_text (i : Nat) (cs : List Char) : (placed i cs).map (·.1) = cs := by
  induction cs generalizing i with
  | nil => rfl
  | cons c cs ih => rw [placed, List.map_cons, ih]

theorem length_placed (i : Nat) (cs : List Char) : (placed i cs).length = cs.length := by
  induction cs generalizing i with
  | nil => rfl
  | cons c cs ih => rw [placed, List.length_cons, ih, List.length_cons]

/-- Characters at consecutive indices span as many indices. -/
theorem spanOf_placed (i : Nat) (cs : List Char) :
    spanOf (.ofWidth i 1) (placed (i + 1) cs) = .ofWidth i (cs.length + 1) := by
  have last : ∀ (cs : List Char) (i : Nat) (c : Char),
      ((placed i (c :: cs)).getLast?.map (·.2)) = some (.ofWidth (i + cs.length) 1) := by
    intro cs
    induction cs with
    | nil => intro i c; rfl
    | cons d cs ih =>
      intro i c
      rw [placed, placed, List.getLast?_cons_cons]
      have := ih (i + 1) d
      rw [placed] at this
      rw [this, List.length_cons]
      congr 2
      omega
  cases cs with
  | nil => simp [spanOf, placed, Range.span]
  | cons c cs =>
    rw [spanOf, last]
    simp only [Option.getD_some, Range.span, Range.ofWidth, List.length_cons, Range.mk.injEq]
    omega

end Token

namespace Reading

open Token

/-- The token of a frame is in the place of the frame. -/
theorem of_frameToken (i : Nat) (frame : Frame) (body : Row) (inner : Placed) :
    (frameToken frame (.ofWidth i (Element.framed frame body).width) inner).Of i (.framed frame body) := by
  cases frame <;> exact .of_construct rfl (fun c r h => by cases h) rfl

theorem of_deepToken {limit : Int} {role : Option Frame} {i : Nat} {x : Element} {t : Token}
    {found : List Diagnostic} (hx : x.isGlyph = false)
    (h : deepToken limit role (.ofWidth i x.width) = ⟨found, .ok t⟩) : t.Of i x := by
  simp only [deepToken, Report.mk.injEq, Except.ok.injEq] at h
  obtain ⟨-, rfl⟩ := h
  split <;> exact .of_construct hx (fun c r h => by cases h) rfl

/-- The tokens that the grammar sees are the merged ones that are no blanks. -/
theorem exists_merged {o : Options} {ts us : List Token} {found : List Diagnostic}
    (h : merge o ts = ⟨found, .ok us⟩) :
    ∃ vs, Merged o.functions o.number ts found vs ∧ us = vs.filter fun t => !isBlank t := by
  unfold merge at h
  split at h
  · cases h
  · next named hn =>
    simp only [Report.mk.injEq, Except.ok.injEq] at h
    obtain ⟨rfl, rfl⟩ := h
    exact ⟨_, merged_of_mergeWords hn, rfl⟩

/-- A run of glyphs in front of the tokens of a row is read from characters in front of the row. -/
theorem Aligned.exists_characters {token : Nat → Element → List Diagnostic → Token → Prop}
    (hof : ∀ i x found t, token i x found t → t.Of i x) {i : Nat} {xs : Row} {found : List Diagnostic}
    {run : List (Char × Range)} {ts : List Token} (h : Aligned token i xs found (glyphs run ++ ts)) :
    ∃ text rest more, run = placed i text ∧ xs = text.map .glyph ++ rest ∧
      Aligned token (i + text.length) rest more ts := by
  induction run generalizing i xs found with
  | nil => exact ⟨[], xs, found, rfl, rfl, h⟩
  | cons p run ih =>
    cases h with
    | cons ht hts =>
      obtain ⟨rfl, hr⟩ := (hof _ _ _ _ ht).eq_glyph
      obtain ⟨text, rest, more, rfl, rfl, hrest⟩ := ih hts
      have hp : p = (p.1, .ofWidth i 1) := by rw [← hr]
      have hlen : i + (p.1 :: text).length = i + (Element.glyph p.1).width + text.length := by
        rw [List.length_cons, Element.width_glyph]
        omega
      refine ⟨p.1 :: text, rest, more, ?_, rfl, hlen ▸ hrest⟩
      rw [placed, ← hp]
      rfl

/-- Such a run spans the indices of its characters. -/
theorem Aligned.run {token : Nat → Element → List Diagnostic → Token → Prop}
    (hof : ∀ i x found t, token i x found t → t.Of i x) {i : Nat} {xs : Row} {found : List Diagnostic}
    {c : Char} {r : Range} {others : List (Char × Range)} {ts : List Token}
    (h : Aligned token i xs found (glyphs ((c, r) :: others) ++ ts)) :
    ∃ text rest more, ((c, r) :: others).map (·.1) = text ∧ others.length + 1 = text.length ∧
      spanOf r others = .ofWidth i text.length ∧ xs = text.map .glyph ++ rest ∧
      Aligned token (i + text.length) rest more ts := by
  obtain ⟨text, rest, more, hrun, hxs, hrest⟩ := h.exists_characters hof
  have htext : ((c, r) :: others).map (·.1) = text := by rw [hrun, placed_text]
  have hlen : others.length + 1 = text.length := by rw [← htext, List.length_map, List.length_cons]
  refine ⟨text, rest, more, htext, hlen, ?_, hxs, hrest⟩
  cases text with
  | nil => cases hrun
  | cons d text =>
    rw [placed] at hrun
    obtain ⟨hfirst, rfl⟩ := List.cons.inj hrun
    obtain rfl : r = .ofWidth i 1 := congrArg Prod.snd hfirst
    rw [spanOf_placed, List.length_cons]

end Reading

end PlanarMath
