import Mathlib
import PlanarMath.Proofs.Grammar.PlainPhrases
import PlanarMath.Proofs.Reading.Acceptance
import PlanarMath.Proofs.Reading.PlainRows

/-!
# What is read means what is written

A layout that is read without a complaint has a plain reading, and the expression that it is read as is worth
the same as any plain reading of it, whatever numbers, names and operators stand for: sums and products are
flattened and signs folded into numbers without a change of value.

The proof goes up the layout with the tokens of its elements.  Each construct is read as a token that agrees
with what it says; merging keeps the agreement, as names and numbers stand where the row has them; and the
grammar keeps it.
-/

namespace PlanarMath

universe u

open Layout

/-- Something is as `P` says, and all that is so is also as `Q` says. -/
def Only {α : Type} (P Q : α → Prop) : Prop := (∃ a, P a) ∧ ∀ a, P a → Q a

theorem Only.of_iff {α β : Type} {P Q : α → Prop} {P' Q' : β → Prop} {f : α → β} (h : Only P Q)
    (hP : ∀ b, P' b ↔ ∃ a, P a ∧ b = f a) (hQ : ∀ a, Q a → Q' (f a)) : Only P' Q' := by
  obtain ⟨⟨a, ha⟩, hall⟩ := h
  refine ⟨⟨f a, (hP _).2 ⟨a, ha, rfl⟩⟩, fun b hb => ?_⟩
  obtain ⟨c, hc, rfl⟩ := (hP b).1 hb
  exact hQ c (hall c hc)

variable {R : Type u} [CommRing R] {ι : Interpretation R}

/-! ## Constructs -/

namespace Expr.Agrees

theorem values_of_forall {es : List Placed} {xs : List Plain}
    (h : List.Forall₂ (fun e x => e.expr.Agrees ι x) es xs) :
    Expr.values ι (es.map (·.expr)) = Plain.values ι xs := by
  induction h with
  | nil => rw [List.map_nil, Expr.values, Plain.values]
  | cons he _ ih => rw [List.map_cons, Expr.values, Plain.values, he.value, ih]

theorem tuple {es : List Placed} {xs : List Plain} (h : List.Forall₂ (fun e x => e.expr.Agrees ι x) es xs)
    (range : Range) : (Reading.tuple range es).expr.Agrees ι (.tuple xs) where
  value := by rw [Reading.tuple, Expr.value, Plain.value, values_of_forall h]
  arguments := values_of_forall h
  isTuple := rfl
  literal := rfl

theorem enclosed {inner : Placed} {x : Plain} (h : inner.expr.Agrees ι x) (name : String) (range : Range) :
    (Reading.enclosed name range inner).expr.Agrees ι (.call (.symbol name) [x]) := by
  refine .of_value ?_ rfl rfl rfl
  rw [Reading.enclosed, Expr.value, Expr.values_singleton, Plain.value, Plain.values_singleton, h.value,
    (symbol name (some range)).value]

end Expr.Agrees

theorem Token.agrees_frameToken {inner : Placed} {x : Plain} (h : inner.expr.Agrees ι x) (frame : Frame)
    (range : Range) : (Reading.frameToken frame range inner).Agrees ι (plainFrame frame x) := by
  cases frame with
  | superscript => exact .superscript range h
  | subscript => exact .subscript range h
  | radical => exact .operand false range (h.enclosed "sqrt" range)
  | absoluteValue => exact .operand false range (h.enclosed "abs" range)
  | ceiling => exact .operand false range (h.enclosed "ceil" range)
  | floor => exact .operand false range (h.enclosed "floor" range)
  | parentheses => exact .operand false range h
  | brackets => exact .operand false range h

/-! ## Rows -/

namespace Reading

open Grammar Token

/-- A token in the place of an element, which agrees with what the element says when it is a construct. -/
def Reflects (o : Options) (ι : Interpretation R) (i : Nat) (x : Element) (_ : List Diagnostic) (t : Token) :
    Prop :=
  t.Of i x ∧ (x.isGlyph = false → Only (x.Reads o) (t.Agrees ι))

variable {o : Options} {i : Nat} {xs : Row} {found : List Diagnostic} {ts us : List Token}

/-- The letters in front of the tokens of a row are those in front of the row. -/
theorem Aligned.letters (h : Aligned InPlaces i xs found ts) :
    Row.letters xs = (letterRun ts).map (·.1) := by
  induction h with
  | nil => rfl
  | @cons i x xs first more t ts ht _ ih =>
    cases x with
    | glyph c =>
      obtain rfl : t = .glyph c (.ofWidth i 1) := ht
      rw [Row.letters, letterRun, ih]
      split <;> rfl
    | _ =>
      cases t with
      | glyph c r => exact absurd rfl (ht.1 c r)
      | _ => rfl

theorem Aligned.inPlaces (h : Aligned (Reflects o ι) i xs found ts) : Aligned InPlaces i xs found ts :=
  h.imp fun _ _ _ _ h => h.1

/-! ## One step of merging -/

section
variable (hts : Aligned (Reflects o ι) i xs found ts)
include hts

/-- A name in front of a row. -/
theorem only_name {c : Char} {r range : Range} {others : List (Char × Range)} {n : Nat} {name : String}
    {function : Bool} (hr : letterRun ts = (c, r) :: others)
    (hw : Word.first o.functions c (others.map (·.1)) = ⟨n + 1, name, function⟩)
    (hmore : Only (Row.Atoms o (xs.drop (n + 1))) (AllAgree ι us)) :
    Only (Row.Atoms o xs) (AllAgree ι (.operand (symbolIn name range) function range :: us)) := by
  have hletters : Row.letters xs = c :: others.map (·.1) := by
    rw [hts.inPlaces.letters, hr, List.map_cons]
  rw [Word.first_eq, ← hletters] at hw
  split at hw
  · next length name' hk =>
    cases hw
    exact hmore.of_iff (fun _ => Row.atoms_word_iff hk) fun as has =>
      .cons (.operand true _ (.symbol name _)) has
  · next hk =>
    cases hw
    rw [hletters] at hk
    exact hmore.of_iff (fun _ => Row.atoms_letter_iff hletters hk) fun as has =>
      .cons (.operand false _ (.symbol _ _)) has

/-- A numeral with a value in front of a row. -/
theorem only_number {c : Char} {r : Range} {others : List (Char × Range)} {v : Number}
    (hr : numeralRun false ts = (c, r) :: others) (hn : startsNumeral ts)
    (hv : o.number (textOf ((c, r) :: others)) = some v)
    (hmore : Only (Row.Atoms o (xs.drop (others.length + 1))) (AllAgree ι us)) (range : Range) :
    Only (Row.Atoms o xs) (AllAgree ι (.ofNode (numberIn v range) :: us)) := by
  have hletters : Row.letters xs = [] := by
    rw [hts.inPlaces.letters, letterRun_of_numeralRun hr, List.map_nil]
  have hdigits : Row.digits false xs = ((c, r) :: others).map (·.1) := by
    rw [hts.inPlaces.digits, hr]
  have hpoint : ((c, r) :: others).map (·.1) ≠ ['.'] := by
    intro hp
    rw [← hr] at hp
    rw [startsNumeral_eq_false_iff.2 (.inr hp)] at hn
    cases hn
  have hlen : (((c, r) :: others).map (·.1)).length = others.length + 1 := by
    rw [List.length_map, List.length_cons]
  rw [← hlen] at hmore
  exact hmore.of_iff
    (fun _ => Row.atoms_number_iff hletters hdigits (List.cons_ne_nil _ _) hpoint hv) fun as has =>
      .cons (.operand false _ (.number v _)) has

end

/-- A construct in front of a row. -/
theorem only_construct {x : Element} {t : Token} (hx : x.isGlyph = false)
    (ht : Only (x.Reads o) (t.Agrees ι)) (hmore : Only (Row.Atoms o xs) (AllAgree ι us)) :
    Only (Row.Atoms o (x :: xs)) (AllAgree ι (t :: us)) := by
  obtain ⟨⟨a, ha⟩, hread⟩ := ht
  obtain ⟨⟨as, has⟩, hall⟩ := hmore
  refine ⟨⟨a :: as, .construct ha has⟩, fun bs hbs => ?_⟩
  obtain ⟨b, cs, hb, hcs, rfl⟩ := (Row.atoms_construct_iff hx).1 hbs
  exact .cons (hread b hb) (hall cs hcs)

/-- A character in front of a row that belongs to no name and no number, or a construct. -/
theorem only_other {x : Element} {t : Token} (hb : Row.IsBare (x :: xs)) (ht : Reflects o ι i x found t)
    (hmore : Only (Row.Atoms o xs) (AllAgree ι us)) :
    Only (Row.Atoms o (x :: xs)) (AllAgree ι (if !isBlank t then t :: us else us)) := by
  obtain ⟨hof, hread⟩ := ht
  cases hx : x.isGlyph with
  | true =>
    match x, hx with
    | .glyph c, _ =>
      obtain rfl : t = .glyph c (.ofWidth i 1) := hof
      cases hc : Text.isBlank c with
      | true => simpa [isBlank, hc] using hmore.of_iff (fun _ => Row.atoms_blank_iff hb hc) fun _ => id
      | false =>
        simpa [isBlank, hc] using hmore.of_iff (fun _ => Row.atoms_glyph_iff hb hc) fun as has =>
          .cons (.glyph c _) has
  | false =>
    have hblank : isBlank t = false := by
      cases t with
      | glyph c r => rw [hof.eq_glyph.1] at hx; cases hx
      | _ => rfl
    rw [hblank]
    exact only_construct hx (hread hx) hmore

end Reading

/-- The tokens of a row, merged without a complaint, agree with the atoms of the row. -/
theorem Token.Merged.atoms {o : Options} {ts us : List Token}
    (h : Merged o.functions o.number ts [] us) {i : Nat} {xs : Row} {first : List Diagnostic}
    (hts : Reading.Aligned (Reading.Reflects o ι) i xs first ts) :
    Only (Row.Atoms o xs) (AllAgree ι (us.filter fun t => !Reading.isBlank t)) := by
  generalize hfound : ([] : List Diagnostic) = found at h
  induction h generalizing i xs first with
  | nil =>
    cases hts
    exact ⟨⟨[], Row.atoms_nil_iff.2 rfl⟩, fun as has => (Row.atoms_nil_iff.1 has) ▸ .nil⟩
  | other hl hn _ ih =>
    have hletters := hts.inPlaces.letters
    have hdigits := hts.inPlaces.digits false
    rw [hl] at hletters
    have hnone := startsNumeral_eq_false_iff.1 hn
    rw [← hdigits] at hnone
    cases hts with
    | cons ht hts =>
      rw [List.filter_cons]
      exact Reading.only_other ⟨hletters, hnone⟩ ht (ih hts hfound)
  | @name _ _ _ _ _ _ n _ _ hr hw _ _ ih =>
    obtain ⟨j, _, _, _, hrest⟩ := hts.drop (n + 1)
    exact Reading.only_name hts hr hw (ih hrest hfound)
  | @number _ _ _ _ _ others _ hr hn hv _ ih =>
    obtain ⟨j, _, _, _, hrest⟩ := hts.drop (others.length + 1)
    exact Reading.only_number hts hr hn hv (ih hrest hfound) _
  | rejected => cases hfound

/-! ## Layouts -/

namespace Reading

open Grammar Token

variable {o : Options} {xs : Row} {us : List Token}

/-- The expression of a row agrees with its plain one when the tokens do. -/
theorem only_reads (h : Only (Row.Atoms o xs) (AllAgree ι us)) {e : Placed}
    (he : Derives true .relation us [] e) : Only (Row.Reads o xs) (e.expr.Agrees ι) := by
  obtain ⟨⟨as, has⟩, hall⟩ := h
  refine ⟨?_, fun x hx => ?_⟩
  · obtain ⟨bs, x, hx, hbs, -⟩ := he.hasPlain (hall as has)
    obtain rfl := hbs.nil_left
    exact ⟨x, .whole has hx⟩
  · obtain ⟨hbs, hx⟩ := hx
    obtain ⟨vs, e', he', hvs, hagrees⟩ := hx.hasExpr (hall _ hbs)
    obtain rfl := hvs.nil_right
    rwa [he.unique he']

/-- The items of a group agree with the plain ones when the tokens do. -/
theorem only_lists (h : Only (Row.Atoms o xs) (AllAgree ι us)) {es : List Placed} (hes : Lists true us es) :
    Only (Row.Lists o xs) fun items => List.Forall₂ (fun e x => e.expr.Agrees ι x) es items := by
  obtain ⟨⟨as, has⟩, hall⟩ := h
  refine ⟨?_, fun items hitems => ?_⟩
  · obtain ⟨items, hitems, -⟩ := hes.exists_plain (hall as has)
    exact ⟨items, .whole has hitems⟩
  · obtain ⟨hbs, hitems⟩ := hitems
    obtain ⟨es', hes', hagree⟩ := hitems.exists_expr (hall _ hbs)
    rwa [hes.unique hes']

/-- Each element, row and group that is read without a complaint agrees with what it says. -/
theorem anchored_reflects (o : Options) (ι : Interpretation R) :
    Anchored o (fun i x found t => found = [] → Reflects o ι i x found t)
      (fun _ xs found e => found = [] → Only (Row.Reads o xs) (e.expr.Agrees ι))
      (fun _ xs found e => found = [] →
        Only (Row.Lists o xs) fun items => e.expr.Agrees ι (.tuple items)) where
  glyph i c _ := ⟨rfl, nofun⟩
  deepFraction limit i above below t found h hfound := by
    cases hfound
    cases h
  deepFrame limit i frame body t found _ h hfound := by
    cases hfound
    cases h
  expression i xs first ts merged us last e hts hm he hfound := by
    simp only [List.append_eq_nil_iff] at hfound
    obtain ⟨rfl, rfl, rfl⟩ := hfound
    obtain ⟨vs, hvs, rfl⟩ := exists_merged hm
    exact only_reads (hvs.atoms (hts.of_quiet rfl)) (whole_eq_ok_iff.1 (orError_eq_ok.1 he))
  group i xs first ts merged us last e hts hm he hfound := by
    simp only [List.append_eq_nil_iff] at hfound
    obtain ⟨rfl, rfl, rfl⟩ := hfound
    obtain ⟨vs, hvs, rfl⟩ := exists_merged hm
    obtain ⟨es, hes, rfl⟩ := map_group_eq_ok.1 (orError_eq_ok.1 he)
    obtain ⟨hlists, hall⟩ := only_lists (hvs.atoms (hts.of_quiet rfl)) hes
    exact ⟨hlists, fun items hitems => .tuple (hall items hitems) _⟩
  fraction i above below first more num den hnum hden hfound := by
    obtain ⟨hfirst, hmore⟩ := List.append_eq_nil_iff.1 hfound
    obtain ⟨⟨x, hx⟩, hxs⟩ := hnum hfirst
    obtain ⟨⟨y, hy⟩, hys⟩ := hden hmore
    refine ⟨.operand rfl _ false, fun _ => ⟨⟨_, .fraction hx hy⟩, fun a ha => ?_⟩⟩
    cases ha with
    | fraction hx hy => exact .operand false _ ((hxs _ hx).quotient (hys _ hy) _)
  framed i frame body found inner hf _ hinner hfound := by
    obtain ⟨⟨x, hx⟩, hxs⟩ := hinner hfound
    refine ⟨of_frameToken i frame body inner, fun _ => ⟨⟨_, .framed hf hx⟩, fun a ha => ?_⟩⟩
    cases ha with
    | framed _ hx => exact agrees_frameToken (hxs _ hx) frame _
    | parentheses => exact absurd rfl hf
  grouped i body found inner hinner hfound := by
    obtain ⟨⟨items, hitems⟩, hall⟩ := hinner hfound
    refine ⟨.operand rfl inner false, fun _ => ⟨⟨_, .parentheses hitems⟩, fun a ha => ?_⟩⟩
    cases ha with
    | framed hf => exact absurd rfl hf
    | parentheses hitems => exact .operand false _ (hall _ hitems)

end Reading

/-- **Meaning.**  A layout that is read without a complaint has a plain reading, and in every commutative ring
the expression that it is read as is worth what any plain reading of it is worth. -/
theorem readLayout_value {o : Options} {row : Row} {e : Placed} (h : readLayout o row = .ok e) :
    (∃ x, Row.Reads o row x) ∧
      ∀ x, Row.Reads o row x → ∀ {R : Type u} [CommRing R] (ι : Interpretation R),
        e.expr.value ι = x.value ι := by
  have read : ∀ {R : Type u} [CommRing R] (ι : Interpretation R), Only (Row.Reads o row) (e.expr.Agrees ι) :=
    fun ι => (Reading.anchored_reflects o ι).rowExpression h rfl
  exact ⟨(read (default : Interpretation PUnit)).1, fun x hx R _ ι => ((read ι).2 x hx).value⟩

/-- A difference in brackets from which a number is taken: one sum of three, with a negative number in it. -/
theorem readLayout_value_of_difference :
    let row : Row := [.framed .brackets [.glyph 'a', .glyph '-', .glyph 'b'], .glyph '-', .glyph '5']
    let written : Plain := .difference (.difference (.symbol "a") (.symbol "b")) (.number (.int 5))
    let ι : Interpretation ℚ :=
      Interpretation.exact { (default : Interpretation ℚ) with symbol := fun s => if s = "a" then 7 else 3 }
    ∃ e args r s, readLayout {} row = .ok e ∧ e.expr = .binary .add args r s ∧ args.length = 3 ∧
      Row.Reads {} row written ∧ e.expr.value ι = written.value ι ∧ written.value ι = -1 := by
  intro row written ι
  let args : List Expr := [.symbol "a" (some (.ofWidth 1 1)),
    .unary .negate (.symbol "b" (some (.ofWidth 3 1))) (some (.ofWidth 2 2)) (some (.ofWidth 2 1)),
    .number (.int (-5)) (some (.ofWidth 5 2))]
  have hrow : readLayout {} row =
      .ok ⟨.binary .add args (some (.ofWidth 1 6)) (some (.ofWidth 5 1)), .ofWidth 1 6, rfl⟩ := by cbv
  have hinner : Row.Reads {} [.glyph 'a', .glyph '-', .glyph 'b'] (.difference (.symbol "a") (.symbol "b")) :=
    .whole (.letter rfl (by cbv) (.glyph ⟨rfl, .inl rfl⟩ rfl (.letter rfl (by cbv) .nil)))
      (.ofSum (.subtraction (.ofProduct (.ofFactor (.ofAtom .operand))) rfl (.ofFactor (.ofAtom .operand))))
  have hread : Row.Reads {} row written :=
    .whole (.construct (.framed (by decide) hinner) (.glyph ⟨rfl, .inl rfl⟩ rfl
        (.number rfl rfl (by decide) (by decide) (by cbv) .nil)))
      (.ofSum (.subtraction (.ofProduct (.ofFactor (.ofAtom .operand))) rfl (.ofFactor (.ofAtom .operand))))
  refine ⟨_, args, _, _, hrow, rfl, rfl, hread, (readLayout_value hrow).2 written hread ι, ?_⟩
  have hb : ("b" : String) ≠ "a" := by decide
  norm_num [written, ι, Plain.value, Interpretation.exact, Number.rational, hb]

end PlanarMath
