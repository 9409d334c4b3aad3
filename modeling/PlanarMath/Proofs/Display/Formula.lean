import PlanarMath.Expr.Display
import PlanarMath.Proofs.Text.Legible

/-!
# Formulas

The layers of a formula, with the items of its parentheses left open.  A head is a word, with items in
parentheses behind it or without; what stands around heads is flat, so no layer is recursive.

    chain    sum  =  sum  <  sum             sum      product  +  product  -  product
    product  factor * factor                 factor   head,  head!,  head / head,  head^head
    head     word,  word(items),  word^-1(items)

Formulas are legible as soon as their items are: the layer above never puts a separator of its own where
the layer below would go on.
-/

namespace PlanarMath.Formula

open Text

variable {α β : Type}

/-! ## Layers -/

/-- A word, and the items in parentheses behind it, if there are any; the word may be empty then.  The
mark tells the inverse of a function. -/
structure Head (α : Type) where
  word : List Char
  tail : Option (Bool × Joined Unit α)

/-- What follows the first head of a factor. -/
inductive Suffix (α : Type) where
  | none
  | factorial
  | divided (h : Head α)
  | power (h : Head α)

/-- A head with its suffix. -/
structure Factor (α : Type) where
  head : Head α
  suffix : Suffix α

/-- Factors with asterisks between them. -/
abbrev Product (α : Type) := Joined Unit (Factor α)

/-- Products with signs between them; the mark tells a minus sign. -/
abbrev Sum (α : Type) := Joined Bool (Product α)

/-- Sums with the signs of relations between them. -/
abbrev Chain (α : Type) := Joined BinaryOp (Sum α)

def Head.map (f : α → β) (h : Head α) : Head β := ⟨h.word, h.tail.map fun p => (p.1, p.2.map f)⟩

def Suffix.map (f : α → β) : Suffix α → Suffix β
  | none => .none
  | factorial => .factorial
  | divided h => .divided (h.map f)
  | power h => .power (h.map f)

def Factor.map (f : α → β) (x : Factor α) : Factor β := ⟨x.head.map f, x.suffix.map f⟩

def Product.map (f : α → β) : Product α → Product β := Joined.map (Factor.map f)

def Sum.map (f : α → β) : Sum α → Sum β := Joined.map (Product.map f)

def Chain.map (f : α → β) : Chain α → Chain β := Joined.map (Sum.map f)

/-! ## Texts -/

/-- The text between the items of parentheses. -/
def comma (_ : Unit) : List Char := [',', ' ']

/-- The text between factors. -/
def times (_ : Unit) : List Char := [' ', '*', ' ']

/-- The text between the terms of a sum. -/
def sign (minus : Bool) : List Char := [' ', if minus then '-' else '+', ' ']

/-- The text between the sides of a relation. -/
def relation (op : BinaryOp) : List Char := ' ' :: op.relationSign.toList ++ [' ']

section
variable (t : α → List Char)

/-- What opens the items of a head. -/
def opening (inverse : Bool) : List Char := if inverse then ['^', '-', '1', '('] else ['(']

def tailText : Option (Bool × Joined Unit α) → List Char
  | none => []
  | some (inverse, items) => opening inverse ++ (items.text t comma ++ [')'])

def Head.text (h : Head α) : List Char := h.word ++ tailText t h.tail

def Suffix.text : Suffix α → List Char
  | none => []
  | factorial => ['!']
  | divided h => [' ', '/', ' '] ++ h.text t
  | power h => '^' :: h.text t

def Factor.text (x : Factor α) : List Char := x.head.text t ++ x.suffix.text t

def Product.text : Product α → List Char := Joined.text (Factor.text t) times

def Sum.text : Sum α → List Char := Joined.text (Product.text t) sign

def Chain.text : Chain α → List Char := Joined.text (Sum.text t) relation

end

/-! ## Parts -/

section
variable (S : α → Prop)

/-- The word of a head is one, and its items have a property. -/
def Head.Ok (h : Head α) : Prop := IsWord h.word ∧ ∀ p ∈ h.tail, p.2.Forall (fun _ => True) S

theorem Head.Ok.of_word {w : List Char} (hw : IsWord w) : Head.Ok S ⟨w, none⟩ :=
  ⟨hw, fun p hp => absurd hp (Option.not_mem_none p)⟩

theorem Head.Ok.of_items {w : List Char} (hw : IsWord w) {inverse : Bool} {items : Joined Unit α}
    (hi : items.Forall (fun _ => True) S) : Head.Ok S ⟨w, some (inverse, items)⟩ := by
  refine ⟨hw, ?_⟩
  rintro p ⟨⟩
  exact hi

/-- The same for a suffix; an exponent does not look like the mark of an inverse. -/
def Suffix.Ok : Suffix α → Prop
  | none => True
  | factorial => True
  | divided h => h.Ok S
  | power h => h.Ok S ∧ (h.word = ['-', '1'] → h.tail = .none)

def Factor.Ok (x : Factor α) : Prop := x.head.Ok S ∧ x.suffix.Ok S

def Product.Ok : Product α → Prop := Joined.Forall (fun _ => True) (Factor.Ok S)

def Sum.Ok : Sum α → Prop := Joined.Forall (fun _ => True) (Product.Ok S)

def Chain.Ok : Chain α → Prop := Joined.Forall (fun op => op.isRelation) (Sum.Ok S)

end

/-! ## What may follow -/

/-- What may follow a formula as a whole. -/
def StopChain (r : List Char) : Prop := ∀ c ∈ r.head?, c = ',' ∨ c = ')'

/-- What may follow a sum. -/
def StopSum : List Char → Prop := Joined.Continues (fun op => op.isRelation) relation StopChain

/-- What may follow a product. -/
def StopProduct : List Char → Prop := Joined.Continues (fun _ => True) sign StopSum

/-- What may follow a factor. -/
def StopFactor : List Char → Prop := Joined.Continues (fun _ => True) times StopProduct

/-- What may follow a head: a suffix, or what may follow a factor. -/
def StopHead (r : List Char) : Prop :=
  StopFactor r ∨ (∃ s, r = '!' :: s) ∨ (∃ s, r = ' ' :: '/' :: ' ' :: s) ∨
    ∃ s, r = '^' :: s ∧ ¬['-', '1', '('] <+: s

theorem relation_eq {op : BinaryOp} (h : op.isRelation) :
    ∃ c, relation op = [' ', c, ' '] ∧ c ≠ '+' ∧ c ≠ '-' ∧ c ≠ '*' ∧ c ≠ '/' := by
  cases op with
  | equal => exact ⟨'=', rfl, by decide⟩
  | lessThan => exact ⟨'<', rfl, by decide⟩
  | greaterThan => exact ⟨'>', rfl, by decide⟩
  | lessThanEqual => exact ⟨'≤', rfl, by decide⟩
  | greaterThanEqual => exact ⟨'≥', rfl, by decide⟩
  | add | multiply | divide | exponent => cases h

/-- After a factor there is a space, a comma, a closing parenthesis, or nothing. -/
theorem StopFactor.head {r : List Char} (h : StopFactor r) :
    ∀ c ∈ r.head?, c = ' ' ∨ c = ',' ∨ c = ')' := by
  rcases h with ((h | ⟨op, s, hop, rfl⟩) | ⟨minus, s, -, rfl⟩) | ⟨i, s, -, rfl⟩
  · exact fun c hc => .inr (h c hc)
  · rintro c ⟨⟩
    exact .inl rfl
  · rintro c ⟨⟩
    exact .inl rfl
  · rintro c ⟨⟩
    exact .inl rfl

theorem StopFactor.ne_over {r : List Char} (h : StopFactor r) (s : List Char) :
    r ≠ ' ' :: '/' :: ' ' :: s := by
  rintro rfl
  rcases h with ((h | ⟨op, s, hop, h⟩) | ⟨minus, s, -, h⟩) | ⟨i, s, -, h⟩
  · rcases h ' ' rfl with h | h <;> cases h
  · obtain ⟨c, hc, -, -, -, hne⟩ := relation_eq hop
    rw [hc] at h
    simp only [List.cons_append, List.cons.injEq] at h
    exact hne h.2.1.symm
  · cases minus <;> cases h
  · cases h

theorem StopHead.stopsWord {r : List Char} (h : StopHead r) : StopsWord r := by
  rcases h with h | ⟨s, rfl⟩ | ⟨s, rfl⟩ | ⟨s, rfl, -⟩
  · intro c hc
    rcases h.head c hc with rfl | rfl | rfl <;> rfl
  · rintro c ⟨⟩
    rfl
  · rintro c ⟨⟩
    rfl
  · rintro c ⟨⟩
    rfl

/-- No items open after a head that has none. -/
theorem StopHead.ne_opening {r : List Char} (h : StopHead r) (inverse : Bool) (s : List Char) :
    r ≠ opening inverse ++ s := by
  rintro rfl
  rcases h with h | ⟨s, h⟩ | ⟨s, h⟩ | ⟨s, h, hne⟩
  · cases inverse
    · rcases h.head '(' rfl with h | h | h <;> cases h
    · rcases h.head '^' rfl with h | h | h <;> cases h
  · cases inverse <;> cases h
  · cases inverse <;> cases h
  · cases inverse
    · cases h
    · simp only [opening, if_true, List.cons_append, List.nil_append, List.cons.injEq, true_and] at h
      exact hne ⟨_, h⟩

/-! ## Legibility -/

section
variable {S : α → Prop} {t : α → List Char} {val : α → β}

/-- Items with commas between them, up to the closing parenthesis. -/
theorem legible_items (h : Legible S t val StopChain) :
    Legible (Joined.Forall (fun _ => True) S) (fun items => items.text t comma ++ [')'])
      (Joined.map val) (fun _ => True) := by
  have hjoined : Legible (Joined.Forall (fun _ => True) S) (Joined.text t comma) (Joined.map val)
      (fun r => ∃ s, r = ')' :: s) := by
    refine Joined.legible (fun a b r s ha hb hr hs he => h ha hb ?_ ?_ he) ?_ ?_
    · rcases hr with ⟨s, rfl⟩ | ⟨i, s, -, rfl⟩
      · rintro c ⟨⟩
        exact .inr rfl
      · rintro c ⟨⟩
        exact .inl rfl
    · rcases hs with ⟨s, rfl⟩ | ⟨i, s, -, rfl⟩
      · rintro c ⟨⟩
        exact .inr rfl
      · rintro c ⟨⟩
        exact .inl rfl
    · rintro i r - ⟨s, hs⟩
      cases hs
    · intro i j r s _ _ he
      simp only [comma, List.cons_append, List.nil_append, List.cons.injEq, true_and] at he
      exact ⟨rfl, he⟩
  intro a b r s ha hb _ _ he
  rw [List.append_assoc, List.append_assoc] at he
  obtain ⟨hv, he⟩ := hjoined ha hb ⟨r, rfl⟩ ⟨s, rfl⟩ he
  exact ⟨hv, by simpa using he⟩

/-- The items behind a word, if there are any. -/
theorem legible_tailText (h : Legible S t val StopChain) :
    Legible (fun tail : Option (Bool × Joined Unit α) => ∀ p ∈ tail, p.2.Forall (fun _ => True) S)
      (tailText t) (Option.map fun p => (p.1, p.2.map val)) StopHead := by
  intro a b r s ha hb hr hs he
  match a, b with
  | none, none => exact ⟨rfl, he⟩
  | none, some (inverse, items) =>
    rw [tailText, tailText, List.nil_append, List.append_assoc] at he
    exact absurd he (hr.ne_opening inverse _)
  | some (inverse, items), none =>
    rw [tailText, tailText, List.nil_append, List.append_assoc] at he
    exact absurd he.symm (hs.ne_opening inverse _)
  | some (i, xs), some (j, ys) =>
    rw [tailText, tailText, List.append_assoc (opening i), List.append_assoc (opening j)] at he
    have hij : i = j := by
      cases i <;> cases j <;> first | rfl | cases he
    subst hij
    obtain ⟨hv, hrs⟩ := legible_items h (ha _ rfl) (hb _ rfl) trivial trivial
      (List.append_cancel_left he)
    exact ⟨congrArg (fun v => some (i, v)) hv, hrs⟩

theorem stopsWord_tailText {r : List Char} (hr : StopHead r) (tail : Option (Bool × Joined Unit α)) :
    StopsWord (tailText t tail ++ r) := by
  match tail with
  | none => exact hr.stopsWord
  | some (true, items) => rintro c ⟨⟩; rfl
  | some (false, items) => rintro c ⟨⟩; rfl

theorem legible_head (h : Legible S t val StopChain) :
    Legible (Head.Ok S) (Head.text t) (Head.map val) StopHead := by
  rintro ⟨w, a⟩ ⟨v, b⟩ r s ⟨hw, ha⟩ ⟨hv, hb⟩ hr hs he
  simp only [Head.text, List.append_assoc] at he
  obtain ⟨hwv, he⟩ := legible_word hw hv (stopsWord_tailText hr a) (stopsWord_tailText hs b) he
  obtain ⟨hab, hrs⟩ := legible_tailText h ha hb hr hs he
  refine ⟨?_, hrs⟩
  show Head.mk w _ = Head.mk v _
  rw [show w = v from hwv, hab]

/-- An exponent does not look like the mark of an inverse. -/
theorem not_inverse_prefix {x : Head α} (hx : (Suffix.power x).Ok S) {r : List Char} (hr : StopFactor r) :
    ¬['-', '1', '('] <+: x.text t ++ r := by
  rintro ⟨s, hs⟩
  obtain ⟨⟨hword, -⟩, htail⟩ := hx
  rw [Head.text, List.append_assoc] at hs
  have hr' : StopHead r := .inl hr
  obtain ⟨hw, he⟩ := legible_word (a := ['-', '1']) (b := x.word) (r := '(' :: s)
    (by decide) hword (by rintro c ⟨⟩; rfl) (stopsWord_tailText hr' x.tail) hs
  simp only [id] at hw
  rw [htail hw.symm] at he
  exact hr'.ne_opening false s he.symm

theorem stopHead_suffix {x : Suffix α} (hx : x.Ok S) {r : List Char} (hr : StopFactor r) :
    StopHead (x.text t ++ r) := by
  match x with
  | .none => exact .inl hr
  | .factorial => exact .inr (.inl ⟨r, rfl⟩)
  | .divided y => exact .inr (.inr (.inl ⟨y.text t ++ r, rfl⟩))
  | .power y => exact .inr (.inr (.inr ⟨y.text t ++ r, rfl, not_inverse_prefix hx hr⟩))

theorem legible_suffix (h : Legible S t val StopChain) :
    Legible (Suffix.Ok S) (Suffix.text t) (Suffix.map val) StopFactor := by
  -- a rest that stops a factor is no suffix
  have stops : ∀ {x : Suffix α} {r s : List Char}, StopFactor r → x ≠ .none → r ≠ x.text t ++ s := by
    intro x r s hr hx he
    match x with
    | .none => exact hx rfl
    | .factorial => subst he; rcases hr.head '!' rfl with h | h | h <;> cases h
    | .divided y => exact hr.ne_over (y.text t ++ s) he
    | .power y => subst he; rcases hr.head '^' rfl with h | h | h <;> cases h
  intro a b r s ha hb hr hs he
  match a, b with
  | .none, .none => exact ⟨rfl, he⟩
  | .factorial, .factorial =>
    simp only [Suffix.text, List.cons_append, List.nil_append, List.cons.injEq, true_and] at he
    exact ⟨rfl, he⟩
  | .divided x, .divided y =>
    simp only [Suffix.text, List.cons_append, List.nil_append, List.cons.injEq, true_and] at he
    obtain ⟨hv, hrs⟩ := legible_head h ha hb (.inl hr) (.inl hs) he
    exact ⟨congrArg Suffix.divided hv, hrs⟩
  | .power x, .power y =>
    simp only [Suffix.text, List.cons_append, List.cons.injEq, true_and] at he
    obtain ⟨hv, hrs⟩ := legible_head h ha.1 hb.1 (.inl hr) (.inl hs) he
    exact ⟨congrArg Suffix.power hv, hrs⟩
  | .none, .factorial | .none, .divided y | .none, .power y => exact absurd he (stops hr nofun)
  | .factorial, .none | .divided x, .none | .power x, .none => exact absurd he.symm (stops hs nofun)
  | .factorial, .divided y | .factorial, .power y | .divided x, .factorial | .divided x, .power y
  | .power x, .factorial | .power x, .divided y => cases he

theorem legible_factor (h : Legible S t val StopChain) :
    Legible (Factor.Ok S) (Factor.text t) (Factor.map val) StopFactor := by
  rintro ⟨x, a⟩ ⟨y, b⟩ r s ⟨hx, ha⟩ ⟨hy, hb⟩ hr hs he
  rw [Factor.text, Factor.text, List.append_assoc, List.append_assoc] at he
  obtain ⟨hv, he⟩ := legible_head h hx hy (stopHead_suffix ha hr) (stopHead_suffix hb hs) he
  obtain ⟨hw, hrs⟩ := legible_suffix h ha hb hr hs he
  refine ⟨?_, hrs⟩
  show Factor.mk _ _ = Factor.mk _ _
  rw [hv, hw]

/-- A separator of three characters, by the one in its middle. -/
theorem middle_inj {c d : Char} {r s : List Char} (h : [' ', c, ' '] ++ r = [' ', d, ' '] ++ s) :
    c = d ∧ r = s := by
  simpa using h

theorem legible_product (h : Legible S t val StopChain) :
    Legible (Product.Ok S) (Product.text t) (Product.map val) StopProduct := by
  refine Joined.legible (legible_factor h) ?_ ?_
  · rintro i r - ((hr | ⟨op, s, hop, hr⟩) | ⟨minus, s, -, hr⟩)
    · rcases hr ' ' rfl with h | h <;> cases h
    · obtain ⟨c, hc, -, -, hne, -⟩ := relation_eq hop
      rw [hc] at hr
      exact hne (middle_inj hr).1.symm
    · cases minus <;> cases (middle_inj hr).1
  · intro i j r s _ _ he
    exact ⟨rfl, (middle_inj he).2⟩

theorem legible_sum (h : Legible S t val StopChain) :
    Legible (Sum.Ok S) (Sum.text t) (Sum.map val) StopSum := by
  refine Joined.legible (legible_product h) ?_ ?_
  · rintro minus r - (hr | ⟨op, s, hop, hr⟩)
    · rcases hr ' ' rfl with h | h <;> cases h
    · obtain ⟨c, hc, hplus, hminus, -⟩ := relation_eq hop
      rw [hc] at hr
      cases minus
      · exact hplus (middle_inj hr).1.symm
      · exact hminus (middle_inj hr).1.symm
  · intro i j r s _ _ he
    obtain ⟨hc, hrs⟩ := middle_inj he
    cases i <;> cases j <;> first | exact ⟨rfl, hrs⟩ | cases hc

/-- **Formulas** are legible when their items are. -/
theorem legible_chain (h : Legible S t val StopChain) :
    Legible (Chain.Ok S) (Chain.text t) (Chain.map val) StopChain := by
  refine Joined.legible (legible_sum h) ?_ ?_
  · intro op r hop hr
    obtain ⟨c, hc, -⟩ := relation_eq hop
    rw [hc] at hr
    rcases hr ' ' rfl with h | h <;> cases h
  · intro i j r s hi hj he
    cases i <;> cases hi <;> cases j <;> cases hj <;>
      first | exact ⟨rfl, (middle_inj he).2⟩ | cases (middle_inj he).1

end

end PlanarMath.Formula
