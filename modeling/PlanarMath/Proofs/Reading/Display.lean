import Mathlib
import PlanarMath.Proofs.Display.Legible
import PlanarMath.Proofs.Display.Siblings
import PlanarMath.Proofs.Expr.WellFormed
import PlanarMath.Proofs.Reading.Kept

/-!
# What formulas tell of what was read

Under the standard table reading gives regular expressions: the grammar joins sums with sums and products
with products, folds signs into numbers, and calls nothing but functions and their inverses.  So formulas
tell the skeletons of what was read, but for one thing: a relation that stands in brackets may be the left
side of another, and the formula does not have these brackets.

    [a = b] = c     (= (= a b) c)     a = b = c
    a = b = c       (= a (= b c))     a = b = c
-/

namespace PlanarMath

open Text

instance (w : List Char) : Decidable (IsLetters w) :=
  decidable_of_iff (w ≠ [] ∧ w.all isLetter) (and_congr_right fun _ => List.all_eq_true)

/-- All functions of the standard table have names in letters. -/
theorem FunctionTable.isLetters_standard : ∀ e ∈ standard.entries, IsLetters e.name.toList := by decide

namespace Expr

theorem Regular.arguments {e : Expr} {u : Bool} (h : e.Regular u) :
    e.arguments ≠ [] ∧ RegularAll u e.arguments := by
  unfold Expr.arguments
  split
  · exact h
  · exact ⟨List.cons_ne_nil _ _, h, trivial⟩

/-- What a regular expression contributes to an operator is regular and under other operators. -/
theorem Regular.operandsUnder {e : Expr} {op : BinaryOp} (h : e.Regular false) (hop : op.isVariadic) :
    1 ≤ (e.operandsUnder op).length ∧
      ∀ a ∈ e.operandsUnder op, a.Regular false ∧ a.isUnder op = false := by
  unfold Expr.operandsUnder
  split
  · next op' args r s =>
    by_cases heq : op' = op
    · subst heq
      rw [if_pos rfl]
      have hlen := h.1
      simp only [BinaryOp.allows, Bool.and_eq_true, decide_eq_true_eq] at hlen
      exact ⟨by omega, fun a ha => ⟨regularAll_iff.1 h.2.2.2 a ha, h.2.1 hop a ha⟩⟩
    · rw [if_neg heq]
      exact ⟨Nat.le_refl _, List.forall_mem_singleton.2 ⟨h, by simpa [isUnder] using heq⟩⟩
  · next hne =>
    refine ⟨Nat.le_refl _, List.forall_mem_singleton.2 ⟨h, ?_⟩⟩
    cases e with
    | binary op' args r s => exact absurd rfl (hne op' args r s)
    | _ => rfl

end Expr

namespace Placed

open PlanarMath.Expr

/-- A regular expression in its place. -/
def Regular (e : Placed) : Prop := e.expr.Regular false

/-- The name of a function in its place. -/
def IsName (e : Placed) : Prop := ∃ s r, e.expr = .symbol s r ∧ IsLetters s.toList

theorem Regular.join {l r : Placed} {op : BinaryOp} (hop : op = .add ∨ op = .multiply) (hl : l.Regular)
    (hr : r.Regular) (sign? : Option Range) : (l.join op r sign?).Regular := by
  have hv : op.isVariadic := by rcases hop with rfl | rfl <;> rfl
  obtain ⟨hl, hls⟩ := Expr.Regular.operandsUnder hl hv
  obtain ⟨hr, hrs⟩ := Expr.Regular.operandsUnder hr hv
  have hall := List.forall_mem_append.2 ⟨hls, hrs⟩
  refine ⟨?_, fun _ a ha => (hall a ha).2, fun hu => Bool.noConfusion hu,
    regularAll_iff.2 fun a ha => (hall a ha).1⟩
  rw [List.length_append]
  exact BinaryOp.allows_add hop hl hr

theorem Regular.pair {l r : Placed} {op : BinaryOp} (hop : op.isVariadic = false) (hl : l.Regular)
    (hr : r.Regular) (sign : Range) : (l.pair op r sign).Regular :=
  regular_pair hop (fun hu => Bool.noConfusion hu) hl hr

theorem Regular.negate {e : Placed} (h : e.Regular) (minus : Range) : (e.negate minus).Regular := by
  show (e.expr.negation _ _).Regular false
  unfold negation
  split
  · trivial
  · next hne =>
    refine ⟨by decide, fun _ => ?_, h⟩
    cases he : e.expr with
    | number v r => exact absurd he (hne v r)
    | _ => rfl

theorem Regular.apply {target args : Placed} (ht : target.expr.IsFunction) (ha : args.Regular) :
    (target.apply args).Regular := by
  obtain ⟨hne, hargs⟩ := Expr.Regular.arguments ha
  unfold Regular
  rw [apply_expr]
  exact ⟨ht, hne, hargs⟩

end Placed

namespace Reading

open Grammar Layout Placed

/-- The constructions of the grammar keep expressions regular. -/
theorem kept_regular_grammar : Grammar.Kept (Token.Holds IsName Placed.Regular) Placed.Regular where
  operand node range h := h
  group node function range h ht := by
    cases function with
    | false => exact h
    | true =>
      obtain ⟨s, r, he, -⟩ := h
      rw [he] at ht
      cases ht
  call name named args hn ha := by
    obtain ⟨s, r, he, hs⟩ := hn
    refine Regular.apply ?_ ha
    rw [he]
    exact .name hs
  inverseCall name named raised args hn ha := by
    obtain ⟨s, r, he, hs⟩ := hn
    refine Regular.apply ?_ ha
    show (Expr.unary .inverse name.expr _ none).IsFunction
    rw [he]
    exact .inverse hs
  join op l r sign? hop hl hr := hl.join hop hr sign?
  pair op l r sign hop hl hr := by
    refine Regular.pair ?_ hl hr sign
    rcases hop with rfl | hop
    · rfl
    · exact Expr.isVariadic_of_isRelation hop
  negate e sign h := h.negate sign
  power e exponent raised hx h := Expr.regular_pair rfl (fun hu => Bool.noConfusion hu) h hx
  factorial e sign h := ⟨by decide, fun hn => absurd hn (by decide), h⟩

/-- All constructions of reading do, where functions have names in letters. -/
theorem kept_regular {o : Options} (ho : ∀ e ∈ o.functions.entries, IsLetters e.name.toList) :
    Kept o IsName Placed.Regular where
  toKept := kept_regular_grammar
  function run s range hn _ := by
    cases hn with
    | function hl =>
      obtain ⟨entry, hentry, rfl⟩ := Token.lookup_mem hl
      exact ⟨_, _, rfl, ho entry hentry⟩
  letter c range hc := ⟨c, hc, by simp⟩
  number run v range _ _ := trivial
  error range := trivial
  enclosed frame s range inner hs hinner := by
    have hletters : IsLetters s.toList := by
      cases frame <;> cases hs <;> decide
    exact ⟨.name hletters, List.cons_ne_nil _ _, hinner, trivial⟩
  tuple range items hne hitems := by
    refine ⟨by simpa using hne, Expr.regularAll_iff.2 ?_⟩
    intro e he
    obtain ⟨x, hx, rfl⟩ := List.mem_map.1 he
    exact hitems x hx

/-- Under the standard table all that is read is regular. -/
theorem regular_readLayout {o : Options} (ho : o.functions = .standard) {row : Row} {found : List Diagnostic}
    {e : Placed} (h : readLayout o row = ⟨found, .ok e⟩) : e.expr.Regular false := by
  have hletters : ∀ entry ∈ o.functions.entries, IsLetters entry.name.toList := by
    rw [ho]
    exact FunctionTable.isLetters_standard
  exact (kept_regular hletters).readLayout h

end Reading

namespace Expr

/-- Formulas of regular expressions tell the skeletons of their siblings. -/
theorem skeleton_nestRight_of_display {e f : Expr} (he : e.Regular false) (hf : f.Regular false)
    (hnum : ToldByText (e.numbers ++ f.numbers)) (h : e.display = f.display) :
    e.nestRight.skeleton = f.nestRight.skeleton := by
  have hdisplay : e.nestRight.display = f.nestRight.display := by
    rw [(alike_nestRight he).display, (alike_nestRight hf).display, h]
  rw [← numbers_nestRight he, ← numbers_nestRight hf] at hnum
  exact skeleton_eq_of_outline hnum
    (outline_eq_of_display (regular_nestRight he) (regular_nestRight hf) hdisplay)

/-- Upright expressions are those with the skeleton of their sibling. -/
theorem skeleton_nestRight_iff {e : Expr} (h : e.Regular false) :
    e.nestRight.skeleton = e.skeleton ↔ e.Upright := by
  constructor
  · intro hs
    have ho : e.nestRight.outline = e.outline := by
      rw [← outline_skeleton e.nestRight, hs, outline_skeleton]
    exact h.upright_iff.1 (regular_of_outline h ho)
  · intro hu
    rw [nestRight_eq_self (h.upright_iff.2 hu)]

end Expr

namespace Reading

open Layout

/-- **Faithfulness.**  Two expressions that are read under the standard table, with whatever complaints,
are the same but for ranges and groups of a single item when they have the same formula and no relation has
a relation on its left.  Without the last condition their siblings, with all relations nested to the right,
are; and the formula does not tell an expression from its sibling, which is another one unless the condition
holds.  The texts of numbers are taken to tell the numbers. -/
theorem display_faithful {o o' : Options} (ho : o.functions = .standard) (ho' : o'.functions = .standard)
    {row row' : Row} {found found' : List Diagnostic} {e f : Placed}
    (he : readLayout o row = ⟨found, .ok e⟩) (hf : readLayout o' row' = ⟨found', .ok f⟩)
    (hnum : Expr.ToldByText (e.expr.numbers ++ f.expr.numbers)) :
    (e.expr.display = f.expr.display → e.expr.Upright → f.expr.Upright →
      e.expr.skeleton = f.expr.skeleton) ∧
    (e.expr.display = f.expr.display → e.expr.nestRight.skeleton = f.expr.nestRight.skeleton) ∧
    e.expr.nestRight.Upright ∧ e.expr.nestRight.display = e.expr.display ∧
    (e.expr.nestRight.skeleton = e.expr.skeleton ↔ e.expr.Upright) := by
  have hre := regular_readLayout ho he
  have hrf := regular_readLayout ho' hf
  have siblings := Expr.skeleton_nestRight_of_display hre hrf hnum
  refine ⟨?_, siblings, ?_, ?_, Expr.skeleton_nestRight_iff hre⟩
  · intro hd hue huf
    rw [← (Expr.skeleton_nestRight_iff hre).2 hue, ← (Expr.skeleton_nestRight_iff hrf).2 huf]
    exact siblings hd
  · exact Expr.Regular.upright_walk (Expr.regular_nestRight hre)
  · exact (Expr.alike_nestRight hre).display

/-- The parentheses of a group are those around a sum in a product. -/
theorem display_faithful_of_group :
    ∃ e f : Placed,
      readLayout {} [.glyph '2', .glyph '*', .framed .parentheses [.glyph 'y', .glyph '+', .glyph 'z']] =
        ⟨[], .ok e⟩ ∧
      readLayout {} [.glyph '2', .glyph '*', .framed .brackets [.glyph 'y', .glyph '+', .glyph 'z']] =
        ⟨[], .ok f⟩ ∧
      e.expr.display = f.expr.display ∧ e.expr.Upright ∧ f.expr.Upright ∧ e.expr ≠ f.expr ∧
      e.expr.skeleton = f.expr.skeleton := by
  let sum : Expr := .binary .add [.symbol "y" (some (.ofWidth 3 1)), .symbol "z" (some (.ofWidth 5 1))]
    (some (.ofWidth 3 3)) (some (.ofWidth 4 1))
  let two : Expr := .number (.int 2) (some (.ofWidth 0 1))
  let e : Placed := ⟨.binary .multiply [two, .tuple [sum] (some (.ofWidth 2 5))] (some (.ofWidth 0 7))
    (some (.ofWidth 1 1)), .ofWidth 0 7, rfl⟩
  let f : Placed := ⟨.binary .multiply [two, sum] (some (.ofWidth 0 6)) (some (.ofWidth 1 1)), .ofWidth 0 6, rfl⟩
  have he : readLayout {} [.glyph '2', .glyph '*', .framed .parentheses [.glyph 'y', .glyph '+', .glyph 'z']] =
      ⟨[], .ok e⟩ := by cbv
  have hf : readLayout {} [.glyph '2', .glyph '*', .framed .brackets [.glyph 'y', .glyph '+', .glyph 'z']] =
      ⟨[], .ok f⟩ := by cbv
  have htwo : ∀ v ∈ e.expr.numbers ++ f.expr.numbers, v = .int 2 := by decide
  have hnum : Expr.ToldByText (e.expr.numbers ++ f.expr.numbers) :=
    fun v hv w hw _ => (htwo v hv).trans (htwo w hw).symm
  have hd : e.expr.display = f.expr.display := rfl
  have hue : e.expr.Upright := by decide
  have huf : f.expr.Upright := by decide
  exact ⟨e, f, he, hf, hd, hue, huf, by decide, (display_faithful rfl rfl he hf hnum).1 hd hue huf⟩

/-- A relation in brackets on the left of another is lost. -/
theorem display_of_relation_in_brackets :
    ∃ e f : Placed,
      readLayout {} [.framed .brackets [.glyph 'a', .glyph '=', .glyph 'b'], .glyph '=', .glyph 'c'] =
        ⟨[], .ok e⟩ ∧
      readLayout {} [.glyph 'a', .glyph '=', .glyph 'b', .glyph '=', .glyph 'c'] = ⟨[], .ok f⟩ ∧
      e.expr.display = f.expr.display ∧ e.expr.numbers = [] ∧ f.expr.numbers = [] ∧
      e.expr.skeleton ≠ f.expr.skeleton := by
  let a : Expr := .symbol "a" (some (.ofWidth 1 1))
  let b : Expr := .symbol "b" (some (.ofWidth 3 1))
  let c : Expr := .symbol "c" (some (.ofWidth 6 1))
  let e : Placed := ⟨.binary .equal [.binary .equal [a, b] (some (.ofWidth 1 3)) (some (.ofWidth 2 1)), c]
    (some (.ofWidth 1 6)) (some (.ofWidth 5 1)), .ofWidth 1 6, rfl⟩
  let a' : Expr := .symbol "a" (some (.ofWidth 0 1))
  let b' : Expr := .symbol "b" (some (.ofWidth 2 1))
  let c' : Expr := .symbol "c" (some (.ofWidth 4 1))
  let f : Placed := ⟨.binary .equal [a', .binary .equal [b', c'] (some (.ofWidth 2 3)) (some (.ofWidth 3 1))]
    (some (.ofWidth 0 5)) (some (.ofWidth 1 1)), .ofWidth 0 5, rfl⟩
  refine ⟨e, f, ?_, ?_, rfl, rfl, rfl, by decide⟩
  · cbv
  · cbv

end Reading

end PlanarMath
