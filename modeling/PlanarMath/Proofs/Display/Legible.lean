import PlanarMath.Proofs.Display.Decoding

/-!
# Formulas are legible

Every item of the layers of an expression is smaller than the expression, so formulas are legible by
induction on their size: the layers are, as soon as smaller formulas are.

    formula e = formula f   →   outline e = outline f      (e, f regular and upright)
-/

namespace PlanarMath.Expr

open Formula Text

/-! ## Parts -/

/-- Expressions below a size that tell their structure. -/
def Below (n : Nat) (e : Expr) : Prop := e.Regular true ∧ sizeOf e < n

variable {n : Nat} {e : Expr}

theorem isWord_of_isLetters {w : List Char} (h : IsLetters w) : IsWord w := fun c hc =>
  (isPlain_of_isLetter (h.2 c hc)).1

theorem below_items {x : Expr} {xs : List Expr} (h : RegularAll true (x :: xs))
    (hn : sizeOf (x :: xs) ≤ n) : (Joined.of x xs).Forall (fun _ => True) (Below n) := by
  have all : ∀ a ∈ x :: xs, Below n a := by
    intro a ha
    have hsize := List.sizeOf_lt_of_mem ha
    exact ⟨regularAll_iff.1 h a ha, by omega⟩
  refine ⟨all x List.mem_cons_self, ?_⟩
  intro p hp
  obtain ⟨a, ha, rfl⟩ := List.mem_map.1 hp
  exact ⟨trivial, all a (List.mem_cons_of_mem _ ha)⟩

theorem headOf_ok (h : e.Regular true) (hn : sizeOf e ≤ n) (ha : e.isAtomic = false → sizeOf e < n) :
    e.headOf.Ok (Below n) := by
  by_cases hatom : e.isAtomic
  · cases e with
    | number v r =>
      rw [headOf, if_pos (show v.isNonnegative from hatom)]
      exact .of_word _ (Number.isSigned_text v).word
    | symbol name r =>
      obtain ⟨c, hc, hname⟩ := h
      have hword : IsWord name.toList := by
        rw [hname]
        exact List.forall_mem_singleton.2 (isPlain_of_isLetter hc).1
      exact .of_word _ hword
    | error r =>
      have hword : IsWord ['?'] := by decide
      exact .of_word _ hword
    | tuple items r =>
      obtain ⟨x, xs, rfl⟩ := List.exists_cons_of_ne_nil h.1
      exact .of_items _ (List.forall_mem_nil _) (below_items h.2 (by simp at hn ⊢; omega))
    | call target args s r =>
      obtain ⟨ht, hne, hargs⟩ := h
      obtain ⟨x, xs, rfl⟩ := List.exists_cons_of_ne_nil hne
      cases ht with
      | name hs | inverse hs =>
        exact .of_items _ (isWord_of_isLetters hs) (below_items hargs (by simp at hn ⊢; omega))
    | unary | binary => cases hatom
  · rw [Bool.not_eq_true] at hatom
    rw [headOf_of_not_isAtomic hatom]
    exact .of_items _ (List.forall_mem_nil _) ⟨⟨h, ha hatom⟩, List.forall_mem_nil _⟩

/-- A head that starts with a sign is a number, which has no items. -/
theorem tail_headOf_of_minus (h : e.Regular true) {w : List Char} (hw : e.headOf.word = '-' :: w) :
    e.headOf.tail = none := by
  by_cases hn : e.isNumber
  · cases e with
    | number v r =>
      by_cases hv : v.isNonnegative
      · rw [headOf, if_pos hv]
      · rw [headOf, if_neg hv] at hw
        cases hw
    | _ => cases hn
  · rw [Bool.not_eq_true] at hn
    exact absurd hw ((isUnsigned_headOf h hn).word w)

theorem sizeOf_lt_of_operand {op : BinaryOp} {args : List Expr} {r s : Option Range} {a : Expr} (ha : a ∈ args)
    (hn : sizeOf (binary op args r s) ≤ n) : sizeOf a < n := by
  have hsize := List.sizeOf_lt_of_mem ha
  simp at hn
  omega

theorem factorOf_ok (h : e.Regular true) (hn : sizeOf e ≤ n)
    (hc : e.isSum ∨ e.isRelation ∨ e.isUnder .multiply → sizeOf e < n) : e.factorOf.Ok (Below n) := by
  cases e with
  | number v r => exact ⟨.of_word _ (Number.isSigned_text v).word, trivial⟩
  | symbol | tuple | call | error => exact ⟨headOf_ok h hn fun ha => Bool.noConfusion ha, trivial⟩
  | unary op a r s =>
    have hsize : sizeOf a < n := by simp at hn; omega
    have ha := headOf_ok h.2.2 (Nat.le_of_lt hsize) fun _ => hsize
    cases op with
    | inverse => exact absurd rfl h.1
    | negate => exact ⟨⟨List.forall_mem_cons.2 ⟨by decide, ha.1⟩, ha.2⟩, trivial⟩
    | factorial => exact ⟨ha, trivial⟩
  | binary op args r s =>
    have hitem : ∀ a ∈ args, a.Regular true → a.headOf.Ok (Below n) := by
      intro a ha hreg
      have hsize := sizeOf_lt_of_operand ha hn
      exact headOf_ok hreg (Nat.le_of_lt hsize) fun _ => hsize
    cases op with
    | divide =>
      obtain ⟨a, b, rfl, ha, hb⟩ := h.exists_pair rfl
      exact ⟨hitem a (by simp) ha, hitem b (by simp) hb⟩
    | exponent =>
      obtain ⟨a, b, rfl, ha, hb⟩ := h.exists_pair rfl
      exact ⟨hitem a (by simp) ha, hitem b (by simp) hb, tail_headOf_of_minus hb⟩
    | add | multiply | equal | lessThan | greaterThan | lessThanEqual | greaterThanEqual =>
      exact ⟨headOf_ok h hn fun _ => hc (by simp [isSum, isRelation, isUnder, BinaryOp.isRelation]), trivial⟩

theorem productOf_ok (h : e.Regular true) (hn : sizeOf e ≤ n)
    (hc : e.isSum ∨ e.isRelation → sizeOf e < n) : e.productOf.Ok (Below n) := by
  by_cases hm : e.isUnder .multiply
  · obtain ⟨x, y, ys, r, s, rfl, hargs⟩ := h.exists_operands rfl hm
    have hitem : ∀ a ∈ x :: y :: ys, a.factorOf.Ok (Below n) := by
      intro a ha
      have hsize := sizeOf_lt_of_operand ha hn
      exact factorOf_ok (hargs a ha).1 (Nat.le_of_lt hsize) fun _ => hsize
    refine ⟨hitem x List.mem_cons_self, ?_⟩
    intro p hp
    obtain ⟨z, hz, rfl⟩ := List.mem_map.1 hp
    obtain ⟨a, ha, rfl⟩ := List.mem_map.1 hz
    exact ⟨trivial, hitem a (List.mem_cons_of_mem _ ha)⟩
  · rw [Bool.not_eq_true] at hm
    rw [productOf_of_not_multiply hm]
    refine ⟨factorOf_ok h hn ?_, List.forall_mem_nil _⟩
    rintro (hs | hr | hm')
    · exact hc (.inl hs)
    · exact hc (.inr hr)
    · rw [hm] at hm'
      cases hm'

theorem termOf_ok (h : e.Regular true) (hn : sizeOf e < n) : e.termOf.2.Ok (Below n) := by
  have plain : e.productOf.Ok (Below n) := productOf_ok h (Nat.le_of_lt hn) fun _ => hn
  cases e with
  | symbol | tuple | call | error | binary => exact plain
  | number v r =>
    by_cases hv : v.isNegative
    · rw [termOf, if_pos hv]
      have hneg : IsWord v.neg.text.toList := (Number.isSigned_text v.neg).word
      exact ⟨⟨.of_word _ hneg, trivial⟩, List.forall_mem_nil _⟩
    · rw [termOf, if_neg hv]
      exact plain
  | unary op a r s =>
    cases op with
    | inverse => exact absurd rfl h.1
    | factorial => exact plain
    | negate =>
      have hsize : sizeOf a < n := by simp at hn; omega
      exact productOf_ok h.2.2 (Nat.le_of_lt hsize) fun _ => hsize

theorem sumOf_ok (h : e.Regular true) (hn : sizeOf e ≤ n) (hc : e.isRelation → sizeOf e < n) :
    e.sumOf.Ok (Below n) := by
  by_cases hs : e.isSum
  · rw [isSum_eq] at hs
    obtain ⟨x, y, ys, r, s, rfl, hargs⟩ := h.exists_operands rfl hs
    have hx := sizeOf_lt_of_operand List.mem_cons_self hn
    refine ⟨productOf_ok (hargs x List.mem_cons_self).1 (Nat.le_of_lt hx) fun _ => hx, ?_⟩
    intro p hp
    obtain ⟨a, ha, rfl⟩ := List.mem_map.1 hp
    have ha := List.mem_cons_of_mem x ha
    exact ⟨trivial, termOf_ok (hargs a ha).1 (sizeOf_lt_of_operand ha hn)⟩
  · rw [Bool.not_eq_true] at hs
    rw [sumOf_of_not_isSum hs]
    refine ⟨productOf_ok h hn ?_, List.forall_mem_nil _⟩
    rintro (hs' | hr)
    · rw [hs] at hs'
      cases hs'
    · exact hc hr

theorem chainOf_ok {e : Expr} (h : e.Regular true) (hn : sizeOf e ≤ n) : e.chainOf.Ok (Below n) := by
  by_cases hrel : e.isRelation
  · match e, hrel with
    | binary op args s i, hop =>
      obtain ⟨l, r, rfl, hl, hr⟩ := h.exists_pair (isVariadic_of_isRelation hop)
      have hln : sizeOf l < n := by simp at hn; omega
      have hrn : sizeOf r ≤ n := by simp at hn; omega
      obtain ⟨hfirst, hrest⟩ := chainOf_ok hr hrn
      rw [chainOf_of_isRelation hop]
      exact ⟨sumOf_ok hl (Nat.le_of_lt hln) fun _ => hln, List.forall_mem_cons.2 ⟨⟨hop, hfirst⟩, hrest⟩⟩
  · rw [Bool.not_eq_true] at hrel
    rw [chainOf_of_not_isRelation hrel]
    refine ⟨sumOf_ok h hn fun hr => ?_, List.forall_mem_nil _⟩
    rw [hrel] at hr
    cases hr
termination_by sizeOf e
decreasing_by
  subst_vars
  simp
  omega

/-! ## Legibility -/

/-- **Formulas** of regular upright expressions are legible. -/
theorem legible_formula (n : Nat) : Legible (Below n) formula outline StopChain := by
  induction n with
  | zero => exact fun a b r s ha => absurd ha.2 (Nat.not_lt_zero _)
  | succ n ih =>
    intro a b r s ha hb hr hs he
    rw [← text_chainOf ha.1, ← text_chainOf hb.1] at he
    have hoka := chainOf_ok (n := n) ha.1 (Nat.le_of_lt_succ ha.2)
    have hokb := chainOf_ok (n := n) hb.1 (Nat.le_of_lt_succ hb.2)
    obtain ⟨hmap, hrs⟩ := legible_chain ih hoka hokb hr hs he
    refine ⟨?_, hrs⟩
    calc
      a.outline = (a.chainOf.map outline).outline := (outline_chainOf ha.1).symm
      _ = (b.chainOf.map outline).outline := congrArg Chain.outline hmap
      _ = b.outline := outline_chainOf hb.1

/-- Formulas tell the outlines of regular upright expressions. -/
theorem outline_eq_of_display {e f : Expr} (he : e.Regular true) (hf : f.Regular true)
    (h : e.display = f.display) : e.outline = f.outline := by
  have hstop : StopChain [] := fun c hc => absurd hc (Option.not_mem_none c)
  have htext : e.formula ++ [] = f.formula ++ [] := by rw [formula, formula, h]
  refine (legible_formula (sizeOf e + sizeOf f + 1) ⟨he, ?_⟩ ⟨hf, ?_⟩ hstop hstop htext).1
  · omega
  · omega

end PlanarMath.Expr
