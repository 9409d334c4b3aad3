import PlanarMath.Proofs.Grammar.Plain
import PlanarMath.Proofs.Reading.Numerals
import PlanarMath.Proofs.Token.Longest

/-!
# Plain readings of rows

What a layout says, word for word, without reading it first.  From left to right a row gives a plain token
for the longest word that starts there, or else for a letter; for a run of digits with a value; for a
construct, whose rows are read in the same way; and for any other character that is no blank (`Row.Atoms`).
The row is read as a plain expression when its atoms are a phrase (`Row.Reads`), and as a group when they are
phrases with commas between them (`Row.Lists`).

    2 s i n [a + b]      2  sin  (sum a b)      product 2 (call sin (sum a b))

At each place at most one rule applies, and each has its equation (`atoms_word_iff` and the others).
-/

namespace PlanarMath.Layout

/-- The letters in front of a row. -/
def Row.letters : List Element → List Char
  | .glyph c :: xs => if Text.isLetter c then c :: letters xs else []
  | _ => []

/-- Neither a name nor a number stands in front of a row. -/
def Row.IsBare (xs : List Element) : Prop :=
  letters xs = [] ∧ (digits false xs = [] ∨ digits false xs = ['.'])

/-- The plain token of a frame around an expression. -/
def plainFrame : Frame → Plain → Atom
  | .superscript, x => .superscript x
  | .subscript, x => .subscript x
  | frame, x => match Reading.functionOf? frame with
    | some name => .operand (.call (.symbol name) [x]) false
    | none => .operand x false

mutual

/-- The plain token of a construct. -/
inductive Element.Reads (o : Options) : Element → Atom → Prop
  | fraction {above below x y} :
      Row.Reads o above x → Row.Reads o below y →
      Element.Reads o (.fraction above below) (.operand (.quotient x y) false)
  | framed {frame body x} :
      frame ≠ .parentheses → Row.Reads o body x → Element.Reads o (.framed frame body) (plainFrame frame x)
  | parentheses {body items} :
      Row.Lists o body items →
      Element.Reads o (.framed .parentheses body) (.operand (.tuple items) false)

/-- The plain tokens of a row. -/
inductive Row.Atoms (o : Options) : List Element → List Atom → Prop
  | nil : Row.Atoms o [] []
  | word {xs as n name} :
      o.functions.knownPrefix? (Row.letters xs) = some (n, name) → Row.Atoms o (xs.drop n) as →
      Row.Atoms o xs (.operand (.symbol name) true :: as)
  | letter {xs as c cs} :
      Row.letters xs = c :: cs → o.functions.knownPrefix? (c :: cs) = none → Row.Atoms o (xs.drop 1) as →
      Row.Atoms o xs (.operand (.symbol c.toString) false :: as)
  | number {xs as text v} :
      Row.letters xs = [] → Row.digits false xs = text → text ≠ [] → text ≠ ['.'] →
      o.number (String.ofList text) = some v → Row.Atoms o (xs.drop text.length) as →
      Row.Atoms o xs (.operand (.number v) false :: as)
  | blank {c xs as} :
      Row.IsBare (.glyph c :: xs) → Text.isBlank c → Row.Atoms o xs as → Row.Atoms o (.glyph c :: xs) as
  | glyph {c xs as} :
      Row.IsBare (.glyph c :: xs) → Text.isBlank c = false → Row.Atoms o xs as →
      Row.Atoms o (.glyph c :: xs) (.glyph c :: as)
  | construct {x a xs as} : Element.Reads o x a → Row.Atoms o xs as → Row.Atoms o (x :: xs) (a :: as)

/-- The plain expression of a row. -/
inductive Row.Reads (o : Options) : List Element → Plain → Prop
  | whole {xs as x} : Row.Atoms o xs as → Plain.Derives .relation as [] x → Row.Reads o xs x

/-- The items of a row that is read as a group. -/
inductive Row.Lists (o : Options) : List Element → List Plain → Prop
  | whole {xs as items} : Row.Atoms o xs as → Plain.Lists as items → Row.Lists o xs items

end

variable {o : Options} {xs : List Element} {bs : List Atom}

theorem Element.Reads.isGlyph {x : Element} {a : Atom} (h : x.Reads o a) : x.isGlyph = false := by
  cases h <;> rfl

namespace Row

/-- A construct is no part of a name or of a number. -/
theorem isBare_construct {x : Element} (h : x.isGlyph = false) : IsBare (x :: xs) := by
  cases x with
  | glyph c => cases h
  | _ => exact ⟨rfl, .inl rfl⟩

theorem IsBare.not_word (h : IsBare xs) {n : Nat} {name : String}
    (hw : o.functions.knownPrefix? (letters xs) = some (n, name)) : False := by
  rw [h.1] at hw
  cases hw

theorem IsBare.not_letter (h : IsBare xs) {c : Char} {cs : List Char} (hl : letters xs = c :: cs) :
    False := by
  rw [h.1] at hl
  cases hl

theorem IsBare.not_number (h : IsBare xs) {text : List Char} (hd : digits false xs = text)
    (hne : text ≠ []) (hpoint : text ≠ ['.']) : False := by
  subst hd
  exact h.2.elim hne hpoint

/-- What a row is that neither a name nor a number starts. -/
theorem Atoms.bare_cases {x : Element} (h : Row.Atoms o (x :: xs) bs) (hb : IsBare (x :: xs)) :
    (∃ c, x = .glyph c ∧ Text.isBlank c ∧ Row.Atoms o xs bs) ∨
    (∃ c as, x = .glyph c ∧ Text.isBlank c = false ∧ Row.Atoms o xs as ∧ bs = .glyph c :: as) ∨
    ∃ a as, x.Reads o a ∧ Row.Atoms o xs as ∧ bs = a :: as := by
  cases h with
  | word hw => exact (hb.not_word hw).elim
  | letter hl => exact (hb.not_letter hl).elim
  | number _ hd hne hpoint => exact (hb.not_number hd hne hpoint).elim
  | blank _ hc h => exact .inl ⟨_, rfl, hc, h⟩
  | glyph _ hc h => exact .inr (.inl ⟨_, _, rfl, hc, h, rfl⟩)
  | construct ha h => exact .inr (.inr ⟨_, _, ha, h, rfl⟩)

/-! ## One rule at a place -/

theorem atoms_nil_iff : Row.Atoms o [] bs ↔ bs = [] := by
  constructor
  · intro h
    cases h with
    | nil => rfl
    | word hw => cases hw
    | letter hl => cases hl
    | number _ hd hne => exact absurd hd.symm hne
  · rintro rfl
    exact .nil

theorem atoms_word_iff {n : Nat} {name : String}
    (hw : o.functions.knownPrefix? (letters xs) = some (n, name)) :
    Row.Atoms o xs bs ↔ ∃ as, Row.Atoms o (xs.drop n) as ∧ bs = .operand (.symbol name) true :: as := by
  -- a word is known, so there are letters
  have hl : letters xs ≠ [] := by
    intro hl
    rw [hl] at hw
    cases hw
  constructor
  · intro h
    cases h with
    | nil => exact absurd rfl hl
    | word hw' h =>
      rw [hw] at hw'
      cases hw'
      exact ⟨_, h, rfl⟩
    | letter hl' hn =>
      rw [hl', hn] at hw
      cases hw
    | number hl' => exact absurd hl' hl
    | blank hb => exact absurd hb.1 hl
    | glyph hb => exact absurd hb.1 hl
    | construct hx => exact absurd (isBare_construct hx.isGlyph).1 hl
  · rintro ⟨as, h, rfl⟩
    exact .word hw h

theorem atoms_letter_iff {c : Char} {cs : List Char} (hl : letters xs = c :: cs)
    (hn : o.functions.knownPrefix? (c :: cs) = none) :
    Row.Atoms o xs bs ↔
      ∃ as, Row.Atoms o (xs.drop 1) as ∧ bs = .operand (.symbol c.toString) false :: as := by
  have hne : letters xs ≠ [] := by
    rw [hl]
    exact List.cons_ne_nil _ _
  constructor
  · intro h
    cases h with
    | nil => exact absurd rfl hne
    | word hw =>
      rw [hl, hn] at hw
      cases hw
    | letter hl' _ h =>
      rw [hl] at hl'
      cases hl'
      exact ⟨_, h, rfl⟩
    | number hl' => exact absurd hl' hne
    | blank hb => exact absurd hb.1 hne
    | glyph hb => exact absurd hb.1 hne
    | construct hx => exact absurd (isBare_construct hx.isGlyph).1 hne
  · rintro ⟨as, h, rfl⟩
    exact .letter hl hn h

theorem atoms_number_iff {text : List Char} {v : Number} (hl : letters xs = [])
    (hd : digits false xs = text) (hne : text ≠ []) (hpoint : text ≠ ['.'])
    (hv : o.number (String.ofList text) = some v) :
    Row.Atoms o xs bs ↔
      ∃ as, Row.Atoms o (xs.drop text.length) as ∧ bs = .operand (.number v) false :: as := by
  have hbare : ¬IsBare xs := fun hb => hb.not_number hd hne hpoint
  constructor
  · intro h
    cases h with
    | nil => exact absurd hd.symm hne
    | word hw =>
      rw [hl] at hw
      cases hw
    | letter hl' =>
      rw [hl] at hl'
      cases hl'
    | number _ hd' _ _ hv' h =>
      obtain rfl := hd.symm.trans hd'
      rw [hv] at hv'
      cases hv'
      exact ⟨_, h, rfl⟩
    | blank hb => exact absurd hb hbare
    | glyph hb => exact absurd hb hbare
    | construct hx => exact absurd (isBare_construct hx.isGlyph) hbare
  · rintro ⟨as, h, rfl⟩
    exact .number hl hd hne hpoint hv h

theorem atoms_blank_iff {c : Char} (hb : IsBare (.glyph c :: xs)) (hc : Text.isBlank c) :
    Row.Atoms o (.glyph c :: xs) bs ↔ ∃ as, Row.Atoms o xs as ∧ bs = as := by
  constructor
  · intro h
    obtain ⟨_, ⟨⟩, -, h⟩ | ⟨_, _, ⟨⟩, hc', -⟩ | ⟨_, _, hx, -⟩ := h.bare_cases hb
    · exact ⟨_, h, rfl⟩
    · rw [hc] at hc'; cases hc'
    · cases hx
  · rintro ⟨as, h, rfl⟩
    exact .blank hb hc h

theorem atoms_glyph_iff {c : Char} (hb : IsBare (.glyph c :: xs)) (hc : Text.isBlank c = false) :
    Row.Atoms o (.glyph c :: xs) bs ↔ ∃ as, Row.Atoms o xs as ∧ bs = .glyph c :: as := by
  constructor
  · intro h
    obtain ⟨_, ⟨⟩, hc', -⟩ | ⟨_, as, ⟨⟩, -, h⟩ | ⟨_, _, hx, -⟩ := h.bare_cases hb
    · rw [hc] at hc'; cases hc'
    · exact ⟨as, h⟩
    · cases hx
  · rintro ⟨as, h, rfl⟩
    exact .glyph hb hc h

theorem atoms_construct_iff {x : Element} (hx : x.isGlyph = false) :
    Row.Atoms o (x :: xs) bs ↔ ∃ a as, x.Reads o a ∧ Row.Atoms o xs as ∧ bs = a :: as := by
  have hb : IsBare (x :: xs) := isBare_construct hx
  constructor
  · intro h
    obtain ⟨_, rfl, -⟩ | ⟨_, _, rfl, -⟩ | h := h.bare_cases hb
    · cases hx
    · cases hx
    · exact h
  · rintro ⟨a, as, ha, h, rfl⟩
    exact .construct ha h

end Row

end PlanarMath.Layout
