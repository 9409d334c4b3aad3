import PlanarMath.Reading

/-!
# Induction over layouts, element by element

What holds of everything read from a layout, said of the elements and rows that it is read from.  A
predicate on an element at an index with its token (`token`), one on a row at an index with the expression
it is read as (`content`), and one on a row after the glyph at an index with the group that both are read
as (`grouping`) hold everywhere when they are kept by the few constructions that reading is made of
(`Anchored`).

    token of every element of a row   →   content of the row   →   token of the construct around it
-/

namespace PlanarMath

namespace Report

variable {α β : Type}

/-- The report of an operation that ended, with what was found on the way. -/
theorem andThen_eq_ok {r : Report α} {f : α → Report β} {found : List Diagnostic} {b : β} :
    r.andThen f = ⟨found, .ok b⟩ ↔
      ∃ first a more, r = ⟨first, .ok a⟩ ∧ f a = ⟨more, .ok b⟩ ∧ found = first ++ more := by
  obtain ⟨first, result⟩ := r
  cases result with
  | error e => simp [andThen]
  | ok a =>
    constructor
    · intro h
      cases hf : f a with
      | mk more last =>
        simp only [andThen, hf, mk.injEq] at h
        obtain ⟨rfl, rfl⟩ := h
        exact ⟨first, a, more, rfl, hf, rfl⟩
    · rintro ⟨_, _, more, ⟨⟩, hf, rfl⟩
      simp [andThen, hf]

theorem map_eq_ok {r : Report α} {f : α → β} {found : List Diagnostic} {b : β} :
    r.map f = ⟨found, .ok b⟩ ↔ ∃ a, r = ⟨found, .ok a⟩ ∧ f a = b := by
  obtain ⟨first, result⟩ := r
  cases result with
  | error e => simp [map, Except.map]
  | ok a => simp [map, Except.map, and_assoc]

end Report

namespace Reading

open Layout

/-- The tokens of neighbouring elements, the first of which opens at index `i`, with what was found in each. -/
inductive Aligned (token : Nat → Element → List Diagnostic → Token → Prop) :
    Nat → List Element → List Diagnostic → List Token → Prop
  | nil (i) : Aligned token i [] [] []
  | cons {i x xs first more t ts} :
      token i x first t → Aligned token (i + x.width) xs more ts →
      Aligned token i (x :: xs) (first ++ more) (t :: ts)

theorem Aligned.imp {token token' : Nat → Element → List Diagnostic → Token → Prop}
    (ht : ∀ i x found t, token i x found t → token' i x found t) {i : Nat} {xs : List Element}
    {found : List Diagnostic} {ts : List Token} (h : Aligned token i xs found ts) :
    Aligned token' i xs found ts := by
  induction h with
  | nil i => exact .nil i
  | cons h _ ih => exact .cons (ht _ _ _ _ h) ih

/-- What holds of an element in which nothing was found holds of each in a row in which nothing was. -/
theorem Aligned.of_quiet {token : Nat → Element → List Diagnostic → Token → Prop} {i : Nat}
    {xs : List Element} {found : List Diagnostic} {ts : List Token}
    (h : Aligned (fun i x found t => found = [] → token i x found t) i xs found ts) (hfound : found = []) :
    Aligned token i xs found ts := by
  induction h with
  | nil i => exact .nil i
  | cons h _ ih =>
    obtain ⟨hfirst, hmore⟩ := List.append_eq_nil_iff.1 hfound
    exact .cons (h hfirst) (ih hmore)

/-- Tokens further on are read from elements further on. -/
theorem Aligned.drop {token : Nat → Element → List Diagnostic → Token → Prop} {i : Nat}
    {xs : List Element} {found : List Diagnostic} {ts : List Token} (h : Aligned token i xs found ts)
    (n : Nat) :
    ∃ j first more, found = first ++ more ∧ Aligned token j (xs.drop n) more (ts.drop n) := by
  induction h generalizing n with
  | nil i => exact ⟨i, [], [], rfl, by rw [List.drop_nil, List.drop_nil]; exact .nil i⟩
  | @cons i x xs first more t ts ht hts ih =>
    cases n with
    | zero => exact ⟨i, [], first ++ more, rfl, .cons ht hts⟩
    | succ n =>
      obtain ⟨j, before, last, rfl, hlast⟩ := ih n
      exact ⟨j, first ++ before, last, (List.append_assoc first before last).symm, hlast⟩

/-- An element that opens at an index is read as a token, inside some number of constructs. -/
def ReadAs (o : Options) (i : Nat) (x : Element) (t : Token) : Prop :=
  ∃ level found, elementToken o level i x = ⟨found, .ok t⟩

/-- Three predicates that are kept by all that reading does: `token` is about an element and the index at
which it opens, `content` about a row and the index at which it starts, and `grouping` about a row and the
index before it. -/
structure Anchored (o : Options) (token : Nat → Element → List Diagnostic → Token → Prop)
    (content grouping : Nat → List Element → List Diagnostic → Placed → Prop) : Prop where
  glyph : ∀ i c, token i (.glyph c) [] (.glyph c (.ofWidth i 1))
  /-- A fraction that is nested too deep. -/
  deepFraction : ∀ limit i above below t found,
    deepToken limit none (.ofWidth i (Element.fraction above below).width) = ⟨found, .ok t⟩ →
    token i (.fraction above below) found t
  /-- A frame that is nested too deep. -/
  deepFrame : ∀ limit i frame body t found, ReadAs o i (.framed frame body) t →
    deepToken limit (some frame) (.ofWidth i (Element.framed frame body).width) = ⟨found, .ok t⟩ →
    token i (.framed frame body) found t
  /-- The tokens of a row, merged and read as one expression. -/
  expression : ∀ i xs first ts merged us last e,
    Aligned token i xs first ts → merge o ts = ⟨merged, .ok us⟩ →
    asExpression (.ofWidth i (Row.width xs)) us = ⟨last, .ok e⟩ →
    content i xs (first ++ (merged ++ last)) e
  /-- The tokens of a row, merged and read as a group, of which the indices around the row are a part. -/
  group : ∀ i xs first ts merged us last e,
    Aligned token (i + 1) xs first ts → merge o ts = ⟨merged, .ok us⟩ →
    asGroup (.ofWidth (i + 1) (Row.width xs)) (.ofWidth i (Row.width xs + 2)) us = ⟨last, .ok e⟩ →
    grouping i xs (first ++ (merged ++ last)) e
  fraction : ∀ i above below first more num den,
    content (i + 1) above first num → content (i + Row.width above + 2) below more den →
    token i (.fraction above below) (first ++ more)
      (.operand (num.pair .divide den (.ofWidth (i + 1 + Row.width above) 1)) false
        (.ofWidth i (Element.fraction above below).width))
  framed : ∀ i frame body found inner, frame ≠ .parentheses →
    ReadAs o i (.framed frame body)
      (frameToken frame (.ofWidth i (Element.framed frame body).width) inner) →
    content (i + 1) body found inner →
    token i (.framed frame body) found
      (frameToken frame (.ofWidth i (Element.framed frame body).width) inner)
  grouped : ∀ i body found inner, grouping i body found inner →
    token i (.framed .parentheses body) found
      (.operand inner false (.ofWidth i (Element.framed .parentheses body).width))

namespace Anchored

variable {o : Options} {token : Nat → Element → List Diagnostic → Token → Prop}
  {content grouping : Nat → List Element → List Diagnostic → Placed → Prop}

/-- The content of a row whose tokens are known. -/
theorem of_aligned (ha : Anchored o token content grouping) {i : Nat} {xs : List Element}
    {r : Report (List Token)} (hr : ∀ found ts, r = ⟨found, .ok ts⟩ → Aligned token i xs found ts)
    {found : List Diagnostic} {e : Placed}
    (h : (r.andThen fun ts => (merge o ts).andThen (asExpression (.ofWidth i (Row.width xs)))) =
      ⟨found, .ok e⟩) :
    content i xs found e := by
  obtain ⟨first, ts, more, hts, hmore, rfl⟩ := Report.andThen_eq_ok.1 h
  obtain ⟨merged, us, last, hus, hlast, rfl⟩ := Report.andThen_eq_ok.1 hmore
  exact ha.expression i xs first ts merged us last e (hr first ts hts) hus hlast

theorem group_of_aligned (ha : Anchored o token content grouping) {i : Nat} {xs : List Element}
    {r : Report (List Token)} (hr : ∀ found ts, r = ⟨found, .ok ts⟩ → Aligned token (i + 1) xs found ts)
    {found : List Diagnostic} {e : Placed}
    (h : (r.andThen fun ts => (merge o ts).andThen
      (asGroup (.ofWidth (i + 1) (Row.width xs)) (.ofWidth i (Row.width xs + 2)))) = ⟨found, .ok e⟩) :
    grouping i xs found e := by
  obtain ⟨first, ts, more, hts, hmore, rfl⟩ := Report.andThen_eq_ok.1 h
  obtain ⟨merged, us, last, hus, hlast, rfl⟩ := Report.andThen_eq_ok.1 hmore
  exact ha.group i xs first ts merged us last e (hr first ts hts) hus hlast

mutual

theorem elementToken (ha : Anchored o token content grouping) (level i : Nat) :
    ∀ (x : Element) {found : List Diagnostic} {t : Token},
      Reading.elementToken o level i x = ⟨found, .ok t⟩ → token i x found t
  | .glyph c, found, t, h => by
    rw [Reading.elementToken] at h
    cases h
    exact ha.glyph i c
  | .fraction above below, found, t, h => by
    rw [Reading.elementToken] at h
    split at h
    · exact ha.deepFraction _ _ _ _ _ _ h
    · obtain ⟨first, num, more, hnum, hmore, rfl⟩ := Report.andThen_eq_ok.1 h
      obtain ⟨den, hden, rfl⟩ := Report.map_eq_ok.1 hmore
      have hbelow : (Range.ofWidth (i + 1) (Row.width above)).stop + 1 = i + Row.width above + 2 := by
        simp only [Range.ofWidth]; omega
      rw [hbelow] at hden
      exact ha.fraction i above below first more num den
        (ha.of_aligned (fun _ _ => rowTokens ha (level + 1) (i + 1) above) hnum)
        (ha.of_aligned (fun _ _ => rowTokens ha (level + 1) _ below) hden)
  | .framed frame body, found, t, h => by
    have hread : ReadAs o i (.framed frame body) t := ⟨level, found, h⟩
    rw [Reading.elementToken] at h
    split at h
    · exact ha.deepFrame _ _ _ _ _ _ hread h
    · obtain ⟨inner, hinner, rfl⟩ := Report.map_eq_ok.1 h
      by_cases hf : frame = .parentheses
      · subst hf
        exact ha.grouped i body found inner
          (ha.group_of_aligned (fun _ _ => rowTokens ha (level + 1) (i + 1) body) hinner)
      · have hcontent : ∀ ts, frameContent o frame (.ofWidth (i + 1) (Row.width body))
            (.ofWidth i (Row.width body + 2)) ts =
            (merge o ts).andThen (asExpression (.ofWidth (i + 1) (Row.width body))) := by
          intro ts
          cases frame <;> first | rfl | exact absurd rfl hf
        rw [funext hcontent] at hinner
        exact ha.framed i frame body found inner hf hread
          (ha.of_aligned (fun _ _ => rowTokens ha (level + 1) (i + 1) body) hinner)

theorem rowTokens (ha : Anchored o token content grouping) (level i : Nat) :
    ∀ (xs : List Element) {found : List Diagnostic} {ts : List Token},
      Reading.rowTokens o level i xs = ⟨found, .ok ts⟩ → Aligned token i xs found ts
  | [], found, ts, h => by
    rw [Reading.rowTokens] at h
    cases h
    exact .nil i
  | x :: xs, found, ts, h => by
    rw [Reading.rowTokens] at h
    obtain ⟨first, t, more, ht, hmore, rfl⟩ := Report.andThen_eq_ok.1 h
    obtain ⟨us, hus, rfl⟩ := Report.map_eq_ok.1 hmore
    exact .cons (elementToken ha level i x ht) (rowTokens ha level (i + x.width) xs hus)

end

/-- The expression of a row, wherever it starts. -/
theorem rowExpression (ha : Anchored o token content grouping) {i : Nat} {r : Row}
    {found : List Diagnostic} {e : Placed} (h : Reading.expression o i r = ⟨found, .ok e⟩) :
    content i r found e := by
  unfold Reading.expression Reading.tokens at h
  rw [Report.andThen_assoc] at h
  exact ha.of_aligned (fun _ _ => rowTokens ha 0 i r) h

end Anchored

end Reading

end PlanarMath
