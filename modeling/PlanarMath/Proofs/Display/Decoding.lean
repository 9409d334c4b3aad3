import PlanarMath.Proofs.Display.Layers
import PlanarMath.Proofs.Display.Outline

/-!
# Reading formulas back

The outline that the layers of a formula stand for, when its items are outlines.  A word is a number
unless it is a name; a minus sign at the front of a factor belongs to a number if one follows it directly,
and stands for a negation otherwise.  The same holds of a term after a minus sign.

    -5        number -5            -x       negation of x        -(5)        negation of 5
    a - 5     a and number -5      a - x    a and its negation   a - 5 * x   a and a negation
-/

namespace PlanarMath

/-- The things that are joined. -/
def Joined.things {ι α : Type} (j : Joined ι α) : List α := j.first :: j.rest.map (·.2)

theorem Joined.things_map {ι α β : Type} (f : α → β) (j : Joined ι α) :
    (j.map f).things = j.things.map f := by
  simp [things, map]

theorem Joined.things_of {α : Type} (x : α) (xs : List α) : (Joined.of x xs).things = x :: xs := by
  simp [things, of, Function.comp_def]

namespace Outline

/-- An operator around operands, of which a single one stands for itself. -/
def under (op : BinaryOp) : List Outline → Outline
  | [x] => x
  | xs => binary op xs

/-- The opposite of a number, and the negation of everything else. -/
def minus : Outline → Outline
  | number w => number ('-' :: w)
  | x => unary .negate x

/-- Relations of a thing to the next, nested to the right. -/
def related : Outline → List (BinaryOp × Outline) → Outline
  | x, [] => x
  | x, (op, y) :: rest => binary op [x, related y rest]

end Outline

namespace Formula

open Text

/-! ## Layers of outlines -/

/-- A word without items. -/
def bare (w : List Char) : Outline :=
  if w = ['?'] then .error else if isName w then .symbol w else .number w

/-- A word with items: a group when it is empty, and a call otherwise. -/
def withItems (w : List Char) (inverse : Bool) (items : List Outline) : Outline :=
  if w = [] then .group items
  else if inverse then .call (.unary .inverse (.symbol w)) items else .call (.symbol w) items

def Head.outline (h : Head Outline) : Outline :=
  match h.tail with
  | none => bare h.word
  | some (inverse, items) => withItems h.word inverse items.things

/-- A head that may have a minus sign in front. -/
def Head.signed (h : Head Outline) : Outline :=
  match h.word with
  | '-' :: w => if h.tail.isNone && !isName w then .number h.word else .unary .negate (outline ⟨w, h.tail⟩)
  | _ => h.outline

def Factor.outline (x : Factor Outline) : Outline :=
  match x.suffix with
  | .none => x.head.signed
  | .factorial => .unary .factorial x.head.outline
  | .divided h => .binary .divide [x.head.outline, h.outline]
  | .power h => .binary .exponent [x.head.outline, h.outline]

def Product.outline (p : Product Outline) : Outline := .under .multiply (p.things.map Factor.outline)

/-- A product that is a word and nothing else. -/
def Product.isBare {α : Type} (p : Product α) : Bool :=
  match p.first, p.rest with
  | ⟨⟨_, none⟩, .none⟩, [] => true
  | _, _ => false

/-- A term after its sign. -/
def Term.outline (t : Bool × Product Outline) : Outline :=
  if t.1 then if t.2.isBare then t.2.outline.minus else .unary .negate t.2.outline
  else t.2.outline

def Sum.outline (s : Sum Outline) : Outline := .under .add (s.first.outline :: s.rest.map Term.outline)

def Chain.outline (c : Chain Outline) : Outline :=
  .related c.first.outline (c.rest.map fun p => (p.1, p.2.outline))

end Formula

namespace Expr

open Formula Text

/-! ## Heads -/

variable {u : Bool}

theorem outline_of_items (w : List Char) (inverse : Bool) (x : Expr) (xs : List Expr) :
    (Head.map outline ⟨w, some (inverse, .of x xs)⟩).outline = withItems w inverse (outlineAll (x :: xs)) := by
  show withItems w inverse ((Joined.of x xs).map outline).things = _
  rw [Joined.things_map, Joined.things_of, outlineAll_eq_map]

theorem outline_grouped (e : Expr) : (e.grouped.map outline).outline = e.outline := by
  unfold grouped
  rw [outline_of_items]
  rfl

theorem bare_number (v : Number) : bare v.text.toList = .number v.text.toList := by
  have hname := (Number.isSigned_text v).not_name
  have hne : v.text.toList ≠ ['?'] := by
    intro h
    rw [h] at hname
    cases hname
  unfold bare
  rw [if_neg hne, hname]
  rfl

theorem bare_letter {c : Char} (h : isLetter c) : bare [c] = .symbol [c] := by
  have hne : [c] ≠ ['?'] := by simpa using (isPlain_of_isLetter h).2.2
  have hname : isName [c] := by simp [isName, h]
  unfold bare
  rw [if_neg hne, if_pos hname]

theorem outline_headOf {e : Expr} (h : e.Regular u) : (e.headOf.map outline).outline = e.outline := by
  by_cases ha : e.isAtomic
  · cases e with
    | number v r =>
      rw [headOf, if_pos (show v.isNonnegative from ha)]
      exact bare_number v
    | symbol name r =>
      obtain ⟨c, hc, hname⟩ := h
      show bare name.toList = .symbol name.toList
      rw [hname, bare_letter hc]
    | error r => rfl
    | tuple items r =>
      obtain ⟨x, xs, rfl⟩ := List.exists_cons_of_ne_nil h.1
      rw [headOf, outline_of_items, outline]
      rfl
    | call target args s r =>
      obtain ⟨ht, hne, -⟩ := h
      obtain ⟨x, xs, rfl⟩ := List.exists_cons_of_ne_nil hne
      cases ht with
      | name hs | inverse hs =>
        rw [headOf, outline_of_items, withItems, if_neg hs.1]
        rfl
    | unary | binary => cases ha
  · rw [Bool.not_eq_true] at ha
    rw [headOf_of_not_isAtomic ha, outline_grouped]

/-- A head without a sign, which has items or is a name. -/
structure IsUnsigned (h : Head Expr) : Prop where
  word : ∀ w, h.word ≠ '-' :: w
  name : h.tail = none → isName h.word

theorem isUnsigned_items {w : List Char} (hw : ∀ v, w ≠ '-' :: v) (p : Bool × Joined Unit Expr) :
    IsUnsigned ⟨w, some p⟩ := ⟨hw, fun ht => absurd ht (Option.some_ne_none p)⟩

theorem ne_minus_of_isLetters {w : List Char} (hw : IsLetters w) (v : List Char) : w ≠ '-' :: v := by
  rintro rfl
  exact absurd rfl (isPlain_of_isLetter (hw.2 '-' List.mem_cons_self)).2.1

/-- The head of all but a number has no sign. -/
theorem isUnsigned_headOf {e : Expr} (h : e.Regular u) (hn : e.isNumber = false) : IsUnsigned e.headOf := by
  have empty : ∀ v : List Char, [] ≠ '-' :: v := fun v => (List.cons_ne_nil '-' v).symm
  by_cases ha : e.isAtomic
  · cases e with
    | number => cases hn
    | symbol name r =>
      obtain ⟨c, hc, hname⟩ := h
      have hletters : IsLetters name.toList := by
        rw [hname]
        exact ⟨List.cons_ne_nil _ _, List.forall_mem_singleton.2 hc⟩
      refine ⟨ne_minus_of_isLetters hletters, fun _ => ?_⟩
      show isName name.toList
      rw [hname]
      simp [isName, hc]
    | error r => exact ⟨fun w hw => absurd (List.cons.inj hw).1 (by decide), fun _ => rfl⟩
    | tuple items r =>
      obtain ⟨x, xs, rfl⟩ := List.exists_cons_of_ne_nil h.1
      exact isUnsigned_items empty _
    | call target args s r =>
      obtain ⟨ht, hne, -⟩ := h
      obtain ⟨x, xs, rfl⟩ := List.exists_cons_of_ne_nil hne
      cases ht with
      | name hs | inverse hs => exact isUnsigned_items (ne_minus_of_isLetters hs) _
    | unary | binary => cases ha
  · rw [Bool.not_eq_true] at ha
    rw [headOf_of_not_isAtomic ha]
    exact isUnsigned_items empty _

/-! ## Factors and products -/

theorem signed_number (v : Number) : Head.signed ⟨v.text.toList, none⟩ = .number v.text.toList := by
  unfold Head.signed
  split
  · next w hw =>
    have hw : v.text.toList = '-' :: w := hw
    have hname := (hw ▸ Number.isSigned_text v).not_name_tail
    rw [if_pos (by simp [hname])]
  · exact bare_number v

theorem signed_of_ne {h : Head Outline} (hw : ∀ w, h.word ≠ '-' :: w) : h.signed = h.outline := by
  unfold Head.signed
  split
  · next w he => exact absurd he (hw w)
  · rfl

theorem signed_minus {h : Head Outline} (hname : h.tail = none → isName h.word) :
    Head.signed ⟨'-' :: h.word, h.tail⟩ = .unary .negate h.outline := by
  unfold Head.signed
  refine if_neg ?_
  intro hc
  simp only [Bool.and_eq_true, Option.isNone_iff_eq_none, Bool.not_eq_true'] at hc
  rw [hname hc.1] at hc
  exact Bool.noConfusion hc.2

theorem tail_map_eq_none {h : Head Expr} : (h.map outline).tail = none ↔ h.tail = none := by
  simp [Head.map]

theorem outline_factorOf_of_head {e : Expr} (h : e.Regular u) (he : e.factorOf = ⟨e.headOf, .none⟩)
    (hn : e.isNumber = false) : (e.factorOf.map outline).outline = e.outline := by
  rw [he, ← outline_headOf h]
  exact signed_of_ne (isUnsigned_headOf h hn).word

theorem outline_factorOf {e : Expr} (h : e.Regular u) : (e.factorOf.map outline).outline = e.outline := by
  cases e with
  | number v r => exact signed_number v
  | symbol | tuple | call | error => exact outline_factorOf_of_head h rfl rfl
  | unary op a r s =>
    have ha := outline_headOf h.2.2
    cases op with
    | inverse => exact absurd rfl h.1
    | negate =>
      have hname := (isUnsigned_headOf h.2.2 (h.2.1 rfl)).name
      show Head.signed ⟨'-' :: (a.headOf.map outline).word, (a.headOf.map outline).tail⟩ = _
      rw [signed_minus fun ht => hname (tail_map_eq_none.1 ht), ha]
      rfl
    | factorial =>
      show Outline.unary .factorial (a.headOf.map outline).outline = _
      rw [ha]
      rfl
  | binary op args r s =>
    cases op with
    | divide | exponent =>
      obtain ⟨a, b, rfl, ha, hb⟩ := h.exists_pair rfl
      show Outline.binary _ [(a.headOf.map outline).outline, (b.headOf.map outline).outline] = _
      rw [outline_headOf ha, outline_headOf hb]
      rfl
    | add | multiply | equal | lessThan | greaterThan | lessThanEqual | greaterThanEqual =>
      exact outline_factorOf_of_head h rfl rfl

theorem outline_of_factors {x : Expr} {xs : List Expr} (h : ∀ a ∈ x :: xs, a.Regular u) :
    (Product.map outline (.of x.factorOf (xs.map factorOf))).outline = .under .multiply (outlineAll (x :: xs)) := by
  show Outline.under .multiply ((Joined.map (Factor.map outline) _).things.map Factor.outline) = _
  rw [Joined.things_map, Joined.things_of, outlineAll_eq_map, ← List.map_cons (f := factorOf), List.map_map,
    List.map_map]
  exact congrArg _ (List.map_congr_left fun a ha => outline_factorOf (h a ha))

theorem outline_productOf {e : Expr} (h : e.Regular u) : (e.productOf.map outline).outline = e.outline := by
  by_cases hm : e.isUnder .multiply
  · obtain ⟨x, y, ys, r, s, rfl, hargs⟩ := h.exists_operands rfl hm
    show (Product.map outline (.of x.factorOf ((y :: ys).map factorOf))).outline = _
    rw [outline_of_factors fun a ha => (hargs a ha).1]
    rfl
  · rw [Bool.not_eq_true] at hm
    rw [productOf_of_not_multiply hm]
    exact outline_factorOf h

/-! ## Sums -/

/-- What is no number has the outline of one only when it is a group, and then it is in parentheses. -/
theorem not_isBare_of_outline {e : Expr} (h : e.Regular u) (hn : e.isNumber = false) {w : List Char}
    (hw : e.outline = .number w) : e.productOf.isBare = false := by
  cases e with
  | number => cases hn
  | tuple items r =>
    obtain ⟨x, xs, rfl⟩ := List.exists_cons_of_ne_nil h.1
    rfl
  | symbol | unary | binary | call | error => cases hw

theorem isBare_map (p : Product Expr) : (p.map outline).isBare = p.isBare := by
  obtain ⟨⟨⟨w, tail⟩, suffix⟩, rest⟩ := p
  cases tail <;> cases suffix <;> cases rest <;> rfl

theorem outline_negated {e : Expr} (h : e.Regular u) (hn : e.isNumber = false) :
    Term.outline (true, e.productOf.map outline) = .unary .negate e.outline := by
  show (if (e.productOf.map outline).isBare then (e.productOf.map outline).outline.minus
    else .unary .negate (e.productOf.map outline).outline) = _
  rw [isBare_map, outline_productOf h]
  split
  · next hb =>
    cases ho : e.outline with
    | number w =>
      rw [not_isBare_of_outline h hn ho] at hb
      cases hb
    | symbol | unary | binary | tuple | call | error => rfl
  · rfl

theorem outline_termOf {e : Expr} (h : e.Regular u) :
    Term.outline (e.termOf.1, e.termOf.2.map outline) = e.outline := by
  have plain : Term.outline (false, e.productOf.map outline) = e.outline := outline_productOf h
  cases e with
  | symbol | tuple | call | error | binary => exact plain
  | number v r =>
    by_cases hv : v.isNegative
    · rw [termOf, if_pos hv]
      show Outline.minus (Head.signed ⟨v.neg.text.toList, none⟩) = .number v.text.toList
      rw [signed_number, Number.text_of_isNegative hv]
      rfl
    · rw [termOf, if_neg hv]
      exact plain
  | unary op a r s =>
    cases op with
    | inverse => exact absurd rfl h.1
    | factorial => exact plain
    | negate => exact outline_negated h.2.2 (h.2.1 rfl)

theorem outline_sumOf {e : Expr} (h : e.Regular u) : (e.sumOf.map outline).outline = e.outline := by
  by_cases hs : e.isSum
  · rw [isSum_eq] at hs
    obtain ⟨x, y, ys, r, s, rfl, hargs⟩ := h.exists_operands rfl hs
    obtain ⟨⟨hx, -⟩, hys⟩ := List.forall_mem_cons.1 hargs
    have hterms : (((y :: ys).map termOf).map fun p => (p.1, p.2.map outline)).map Term.outline =
        outlineAll (y :: ys) := by
      rw [List.map_map, List.map_map, outlineAll_eq_map]
      exact List.map_congr_left fun a ha => outline_termOf (hys a ha).1
    show Outline.under .add ((x.productOf.map outline).outline :: _) = _
    rw [outline_productOf hx]
    exact congrArg (fun os => Outline.under .add (x.outline :: os)) hterms
  · rw [Bool.not_eq_true] at hs
    rw [sumOf_of_not_isSum hs]
    exact outline_productOf h

/-! ## Relations -/

/-- **The layers of an expression** stand for its outline. -/
theorem outline_chainOf {e : Expr} (h : e.Regular u) : (e.chainOf.map outline).outline = e.outline := by
  by_cases hrel : e.isRelation
  · match e, hrel with
    | binary op args s i, hop =>
      obtain ⟨l, r, rfl, hl, hr⟩ := h.exists_pair (isVariadic_of_isRelation hop)
      have ih := outline_chainOf hr
      rw [chainOf_of_isRelation hop]
      show Outline.binary op [(l.sumOf.map outline).outline, (r.chainOf.map outline).outline] = _
      rw [outline_sumOf hl, ih]
      rfl
  · rw [Bool.not_eq_true] at hrel
    rw [chainOf_of_not_isRelation hrel]
    exact outline_sumOf h
termination_by sizeOf e
decreasing_by
  subst_vars
  simp
  omega

end Expr

end PlanarMath
