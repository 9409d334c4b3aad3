import PlanarMath.Text.Letter

/-!
# Legible texts

The texts of some things are legible when each can be read off the front of a longer text: whatever of the
allowed rests follows, the thing and the rest are known from the whole.  Texts that are legible before
separators stay so when they are joined by separators.

    text a ++ r = text b ++ s   →   a and b have the same value, and r = s
-/

namespace PlanarMath

/-- The texts of things with a property tell the values of these things, before a rest of some kind. -/
def Legible {α β : Type} (S : α → Prop) (text : α → List Char) (val : α → β)
    (Stop : List Char → Prop) : Prop :=
  ∀ ⦃a b r s⦄, S a → S b → Stop r → Stop s → text a ++ r = text b ++ s → val a = val b ∧ r = s

/-! ## Things joined by separators -/

/-- One thing, and more behind it, each after a separator. -/
structure Joined (ι α : Type) where
  first : α
  rest : List (ι × α)

namespace Joined

variable {ι α β : Type}

/-- The same with other things. -/
def map (f : α → β) (j : Joined ι α) : Joined ι β := ⟨f j.first, j.rest.map fun p => (p.1, f p.2)⟩

/-- All separators and all things have a property. -/
def Forall (I : ι → Prop) (S : α → Prop) (j : Joined ι α) : Prop :=
  S j.first ∧ ∀ p ∈ j.rest, I p.1 ∧ S p.2

/-- The text of things behind separators. -/
def textAfter (text : α → List Char) (sep : ι → List Char) : List (ι × α) → List Char
  | [] => []
  | p :: ps => sep p.1 ++ (text p.2 ++ textAfter text sep ps)

/-- The text of things with separators between them. -/
def text (text : α → List Char) (sep : ι → List Char) (j : Joined ι α) : List Char :=
  text j.first ++ textAfter text sep j.rest

variable {I : ι → Prop} {S : α → Prop} {t : α → List Char} {val : α → β} {sep : ι → List Char}
  {Stop : List Char → Prop}

/-- A rest that may follow a thing: one that may follow all of them, or a separator. -/
def Continues (I : ι → Prop) (sep : ι → List Char) (Stop : List Char → Prop) (r : List Char) : Prop :=
  Stop r ∨ ∃ i s, I i ∧ r = sep i ++ s

theorem textAfter_cons_append (p : ι × α) (ps : List (ι × α)) (r : List Char) :
    textAfter t sep (p :: ps) ++ r = sep p.1 ++ (t p.2 ++ (textAfter t sep ps ++ r)) := by
  simp [textAfter]

theorem continues_textAfter {ps : List (ι × α)} (hp : ∀ p ∈ ps, I p.1 ∧ S p.2) {r : List Char}
    (hr : Stop r) : Continues I sep Stop (textAfter t sep ps ++ r) := by
  cases ps with
  | nil => exact .inl hr
  | cons p ps =>
    exact .inr ⟨p.1, _, (hp p List.mem_cons_self).1, textAfter_cons_append p ps r⟩

/-- Things behind separators are legible where no separator is among the rests. -/
theorem legible_textAfter (h : Legible S t val (Continues I sep Stop))
    (hdisj : ∀ i r, I i → ¬Stop (sep i ++ r))
    (hinj : ∀ i j r s, I i → I j → sep i ++ r = sep j ++ s → i = j ∧ r = s) :
    Legible (fun ps => ∀ p ∈ ps, I p.1 ∧ S p.2) (textAfter t sep)
      (List.map fun p => (p.1, val p.2)) Stop := by
  intro ps qs r s hp hq hr hs he
  induction ps generalizing qs with
  | nil =>
    cases qs with
    | nil => exact ⟨rfl, he⟩
    | cons q qs =>
      exfalso
      rw [textAfter_cons_append, textAfter, List.nil_append] at he
      exact hdisj q.1 _ (hq q List.mem_cons_self).1 (he ▸ hr)
  | cons p ps ih =>
    cases qs with
    | nil =>
      exfalso
      rw [textAfter_cons_append, textAfter, List.nil_append] at he
      exact hdisj p.1 _ (hp p List.mem_cons_self).1 (he ▸ hs)
    | cons q qs =>
      obtain ⟨⟨hpi, hpS⟩, hps⟩ := List.forall_mem_cons.1 hp
      obtain ⟨⟨hqi, hqS⟩, hqs⟩ := List.forall_mem_cons.1 hq
      rw [textAfter_cons_append, textAfter_cons_append] at he
      obtain ⟨hi, he⟩ := hinj _ _ _ _ hpi hqi he
      obtain ⟨hv, he⟩ := h hpS hqS (continues_textAfter hps hr) (continues_textAfter hqs hs) he
      obtain ⟨hm, hrs⟩ := ih hps hqs he
      refine ⟨?_, hrs⟩
      rw [List.map_cons, List.map_cons, hi, hv, hm]

/-- **Joined texts** are legible where no separator is among the rests. -/
theorem legible (h : Legible S t val (Continues I sep Stop)) (hdisj : ∀ i r, I i → ¬Stop (sep i ++ r))
    (hinj : ∀ i j r s, I i → I j → sep i ++ r = sep j ++ s → i = j ∧ r = s) :
    Legible (Joined.Forall I S) (Joined.text t sep) (Joined.map val) Stop := by
  rintro ⟨a, ps⟩ ⟨b, qs⟩ r s ⟨ha, hps⟩ ⟨hb, hqs⟩ hr hs he
  simp only [text, List.append_assoc] at he
  obtain ⟨hv, he⟩ := h ha hb (continues_textAfter hps hr) (continues_textAfter hqs hs) he
  obtain ⟨hm, hrs⟩ := legible_textAfter h hdisj hinj hps hqs hr hs he
  refine ⟨?_, hrs⟩
  show Joined.mk (val a) _ = Joined.mk (val b) _
  rw [hv, hm]

end Joined

/-! ## Words -/

namespace Text

/-- A character that can be part of a word of a formula. -/
def isPlain (c : Char) : Bool := c != ' ' && c != '(' && c != ')' && c != '!' && c != '^' && c != ','

/-- A text of plain characters. -/
def IsWord (w : List Char) : Prop := ∀ c ∈ w, isPlain c

instance (w : List Char) : Decidable (IsWord w) := decidable_of_iff (w.all isPlain) List.all_eq_true

/-- A rest that a word does not go on with. -/
def StopsWord (r : List Char) : Prop := ∀ c ∈ r.head?, isPlain c = false

/-- Words are legible before what does not go on with them. -/
theorem legible_word : Legible IsWord id id StopsWord := by
  intro w v r s hw hv hr hs h
  induction w generalizing v with
  | nil =>
    cases v with
    | nil => exact ⟨rfl, h⟩
    | cons c v =>
      exfalso
      have hc := hv c List.mem_cons_self
      rw [hr c (by rw [show r = _ from h]; rfl)] at hc
      cases hc
  | cons c w ih =>
    cases v with
    | nil =>
      exfalso
      have hc := hw c List.mem_cons_self
      rw [hs c (by rw [← show _ = s from h]; rfl)] at hc
      cases hc
    | cons d v =>
      simp only [id, List.cons_append, List.cons.injEq] at h
      obtain ⟨rfl, h⟩ := h
      obtain ⟨hwv, hrs⟩ := ih (List.forall_mem_cons.1 hw).2 (List.forall_mem_cons.1 hv).2 h
      exact ⟨congrArg (c :: ·) hwv, hrs⟩

/-- Letters are plain, and none is a sign. -/
theorem isPlain_of_isLetter {c : Char} (h : isLetter c) : isPlain c ∧ c ≠ '-' ∧ c ≠ '?' := by
  have ne : ∀ {d : Char}, isLetter d = false → c ≠ d := by
    rintro d hd rfl
    rw [hd] at h
    cases h
  refine ⟨?_, ne (by decide), ne (by decide)⟩
  simp [isPlain, ne (d := ' ') (by decide), ne (d := '(') (by decide), ne (d := ')') (by decide),
    ne (d := '!') (by decide), ne (d := '^') (by decide), ne (d := ',') (by decide)]

end Text

end PlanarMath
