import PlanarMath.Proofs.Reading.Elements
import PlanarMath.Proofs.Token.Segments

/-!
# Induction over rows

What holds of everything read from a layout.  A predicate on tokens with the range of their element and
what was found in it (`token`), and one on expressions with their region and what was found in it
(`content`), hold everywhere when they are kept by the few constructions that reading is made of
(`Closed`).  This is the induction over layouts for what does not depend on the elements themselves.

    token at every element   →   content of a row   →   token of the construct around it
-/

namespace PlanarMath

namespace Reading

open Layout Token

/-! ## Merged tokens -/

theorem merge_eq_ok {o : Options} {ts us : List Token} {found : List Diagnostic}
    (h : merge o ts = ⟨found, .ok us⟩) :
    ∃ named numbered, Named o.functions ts named ∧ Numbered o.number named found numbered ∧
      us = numbered.filter fun t => !isBlank t := by
  unfold merge at h
  split at h
  · cases h
  · next named hn =>
    simp only [Report.mk.injEq, Except.ok.injEq] at h
    obtain ⟨rfl, rfl⟩ := h
    exact ⟨named, _, named_of_mergeWords hn, numbered_mergeNumerals o.number named, rfl⟩

/-- What holds of all tokens of a row, and of all that names and numerals are read as, holds of all that
the grammar sees. -/
theorem forall_mem_merge {o : Options} {P : Token → Prop} {ts us : List Token}
    {found : List Diagnostic} (h : merge o ts = ⟨found, .ok us⟩)
    (hname : ∀ run name function range, Names o.functions run name function → name ≠ "" →
      P (.operand (symbolIn name range) function range))
    (hnumber : ∀ run v range, IsNumeral run → o.number (textOf run) = some v →
      P (.ofNode (numberIn v range)))
    (hrejected : ∀ range, P (.ofNode (.error range))) (hts : ∀ t ∈ ts, P t) : ∀ t ∈ us, P t := by
  obtain ⟨named, numbered, hn, hd, rfl⟩ := merge_eq_ok h
  have hnamed : ∀ t ∈ named, P t := by
    clear hd h
    induction hn with
    | nil => exact hts
    | other _ ih =>
      rw [List.forall_mem_cons] at hts ⊢
      exact ⟨hts.1, ih hts.2⟩
    | name hw hne _ ih =>
      rw [List.forall_mem_append] at hts
      exact List.forall_mem_cons.2 ⟨hname _ _ _ _ hw hne, ih hts.2⟩
  have hnumbered : ∀ t ∈ numbered, P t := by
    clear hn h
    induction hd with
    | nil => exact hnamed
    | other _ ih =>
      rw [List.forall_mem_cons] at hnamed ⊢
      exact ⟨hnamed.1, ih hnamed.2⟩
    | number hr hv _ ih =>
      rw [List.forall_mem_append] at hnamed
      exact List.forall_mem_cons.2 ⟨hnumber _ _ _ hr hv, ih hnamed.2⟩
    | rejected _ _ _ ih =>
      rw [List.forall_mem_append] at hnamed
      exact List.forall_mem_cons.2 ⟨hrejected _, ih hnamed.2⟩
  intro t ht
  exact hnumbered t (List.mem_filter.1 ht).1

/-! ## Neighbours -/

/-- Tokens from index `i` up to index `j`, one for each of some neighbouring elements, with what was
found in each. -/
inductive Neighbours (token : Range → List Diagnostic → Token → Prop) :
    Nat → Nat → List Diagnostic → List Token → Prop
  | nil (i) : Neighbours token i i [] []
  | cons {i width j first more t ts} :
      token (.ofWidth i width) first t → Neighbours token (i + width) j more ts →
      Neighbours token i j (first ++ more) (t :: ts)

theorem Neighbours.forall_mem {P : Token → Prop} {i j : Nat} {found : List Diagnostic}
    {ts : List Token} (h : Neighbours (fun _ _ t => P t) i j found ts) : ∀ t ∈ ts, P t := by
  induction h with
  | nil => simp
  | cons ht _ ih => exact List.forall_mem_cons.2 ⟨ht, ih⟩

/-- The tokens of the elements of a row stand next to one another. -/
theorem Aligned.neighbours {token : Range → List Diagnostic → Token → Prop} {i : Nat}
    {xs : List Element} {found : List Diagnostic} {ts : List Token}
    (h : Aligned (fun i x => token (.ofWidth i x.width)) i xs found ts) :
    Neighbours token i (i + Row.width xs) found ts := by
  induction h with
  | nil i => exact .nil i
  | cons ht _ ih =>
    rw [Row.width, ← Nat.add_assoc]
    exact .cons ht ih

/-- Two predicates that are kept by all that reading does: `token` is about the range of an element, what
was found in it and its token, `content` about a region, what was found in it and its expression. -/
structure Closed (o : Options) (token : Range → List Diagnostic → Token → Prop)
    (content : Range → List Diagnostic → Placed → Prop) : Prop where
  glyph : ∀ i c, token (.ofWidth i 1) [] (.glyph c (.ofWidth i 1))
  /-- A construct that is nested too deep. -/
  deep : ∀ limit frame? range t found, deepToken limit frame? range = ⟨found, .ok t⟩ →
    token range found t
  /-- The tokens of a row, merged and read as one expression. -/
  expression : ∀ i width first ts merged us last e,
    Neighbours token i (i + width) first ts → merge o ts = ⟨merged, .ok us⟩ →
    asExpression (.ofWidth i width) us = ⟨last, .ok e⟩ →
    content (.ofWidth i width) (first ++ (merged ++ last)) e
  /-- The tokens of a row, merged and read as a group; the region is one index wider on both sides. -/
  group : ∀ i width first ts merged us last e,
    Neighbours token (i + 1) (i + 1 + width) first ts → merge o ts = ⟨merged, .ok us⟩ →
    asGroup (.ofWidth (i + 1) width) (.ofWidth i (width + 2)) us = ⟨last, .ok e⟩ →
    content (.ofWidth i (width + 2)) (first ++ (merged ++ last)) e
  fraction : ∀ i above below first more num den,
    content (.ofWidth (i + 1) above) first num →
    content (.ofWidth (i + above + 2) below) more den →
    token (.ofWidth i (above + below + 3)) (first ++ more)
      (.operand (num.pair .divide den (.ofWidth (i + 1 + above) 1)) false
        (.ofWidth i (above + below + 3)))
  framed : ∀ i width frame found inner, frame ≠ .parentheses →
    content (.ofWidth (i + 1) width) found inner →
    token (.ofWidth i (width + 2)) found (frameToken frame (.ofWidth i (width + 2)) inner)
  grouped : ∀ i width found inner, content (.ofWidth i (width + 2)) found inner →
    token (.ofWidth i (width + 2)) found (.operand inner false (.ofWidth i (width + 2)))

namespace Closed

variable {o : Options} {token : Range → List Diagnostic → Token → Prop}
  {content : Range → List Diagnostic → Placed → Prop}

/-- What is closed is kept element by element. -/
theorem anchored (hc : Closed o token content) :
    Anchored o (fun i x => token (.ofWidth i x.width)) (fun i xs => content (.ofWidth i (Row.width xs)))
      (fun i xs => content (.ofWidth i (Row.width xs + 2))) where
  glyph := hc.glyph
  deepFraction limit _ _ _ t found h := hc.deep limit none _ t found h
  deepFrame limit _ frame _ t found _ h := hc.deep limit (some frame) _ t found h
  expression i _ first ts merged us last e hts hm he :=
    hc.expression i _ first ts merged us last e hts.neighbours hm he
  group i _ first ts merged us last e hts hm he :=
    hc.group i _ first ts merged us last e hts.neighbours hm he
  fraction i _ _ first more num den hnum hden := hc.fraction i _ _ first more num den hnum hden
  framed i frame _ found inner hf _ hinner := hc.framed i _ frame found inner hf hinner
  grouped i _ found inner hinner := hc.grouped i _ found inner hinner

/-- The tokens of a row, wherever it is in a layout. -/
theorem rowTokens (hc : Closed o token content) (level i : Nat) (xs : List Element)
    {found : List Diagnostic} {ts : List Token} (h : Reading.rowTokens o level i xs = ⟨found, .ok ts⟩) :
    Neighbours token i (i + Row.width xs) found ts :=
  (hc.anchored.rowTokens level i xs h).neighbours

/-- The expression of a row, wherever it starts. -/
theorem rowExpression (hc : Closed o token content) {i : Nat} {r : Row} {found : List Diagnostic}
    {e : Placed} (h : Reading.expression o i r = ⟨found, .ok e⟩) :
    content (regionOf i r) found e := hc.anchored.rowExpression h

end Closed

end Reading

end PlanarMath
