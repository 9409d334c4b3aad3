import PlanarMath.Proofs.Grammar.Halts
import PlanarMath.Proofs.Token.Relabel

/-!
# Readers of relabelled tokens

The grammar sees of a token what it is and what it means, never where it stands, nor which of several glyphs of
one meaning it is.  So relabelled tokens are read as the same expression, relabelled, at every level, or stopped
at by the same complaint, relabelled.

    f ts = e, us left         →    f (ts relabelled) = e relabelled, us relabelled left
    f ts stops at a token     →    f (ts relabelled) stops at the same token, relabelled
-/

namespace PlanarMath.Grammar

variable {ρ : Relabelling}

/-- The suffix with other ranges. -/
def Suffix.relabel (ρ : Relabelling) : Suffix → Suffix
  | product right sign? => product (right.relabel ρ) (sign?.map ρ.range)
  | quotient right sign => quotient (right.relabel ρ) (ρ.range sign)
  | relation op right sign => relation op (right.relabel ρ) (ρ.range sign)
  | sum right sign => sum (right.relabel ρ) (ρ.range sign)
  | difference right sign => difference (right.relabel ρ) (ρ.range sign)
  | power exponent raised => power (exponent.relabel ρ) (ρ.range raised)
  | factorial sign => factorial (ρ.range sign)

theorem Suffix.relabel_apply (ρ : Relabelling) (s : Suffix) (left : Placed) :
    (s.apply left).relabel ρ = (s.relabel ρ).apply (left.relabel ρ) := by
  cases s with
  | product right sign? => exact Placed.relabel_join ρ .multiply left right sign?
  | quotient right sign => exact Placed.relabel_pair ρ .divide left right sign
  | relation op right sign => exact Placed.relabel_pair ρ op left right sign
  | sum right sign => exact Placed.relabel_join ρ .add left right (some sign)
  | difference right sign =>
    rw [Suffix.apply, Placed.relabel_join, Placed.relabel_negate]
    rfl
  | power exponent raised => exact Placed.relabel_power ρ left exponent raised
  | factorial sign => exact Placed.relabel_factorial ρ left sign

/-- The halt with other ranges and glyphs. -/
def Halt.relabel (ρ : Relabelling) (h : Halt) : Halt := ⟨h.diagnostic.relabel ρ, h.rest.map (Token.relabel ρ)⟩

theorem unexpected_relabel (ρ : Relabelling) (stop : Range) (ts : List Token) :
    unexpected (ρ.range stop) (ts.map (Token.relabel ρ)) = (unexpected stop ts).relabel ρ := by
  cases ts with
  | nil => rfl
  | cons t ts =>
    have hfirst := Diagnostic.unexpected_relabel ρ t
    simp only [List.map_cons, unexpected, Mark.first, Halt.relabel, hfirst]

/-! ## What readers compare -/

theorem startsWith_relabel {P : Token → Bool} (hP : ∀ t, P (t.relabel ρ) = P t) (ts : List Token) :
    startsWith P (ts.map (Token.relabel ρ)) = startsWith P ts := by
  cases ts with
  | nil => rfl
  | cons t ts => exact hP t

theorem isPlainOperand_relabel (ρ : Relabelling) (t : Token) : (t.relabel ρ).isPlainOperand = t.isPlainOperand := by
  cases t <;> rfl

theorem isSuperscript_relabel (ρ : Relabelling) (t : Token) : isSuperscript (t.relabel ρ) = isSuperscript t := by
  cases t <;> rfl

theorem isComma_relabel (ρ : Relabelling) (t : Token) : isComma (t.relabel ρ) = isComma t := by
  cases t with
  | glyph c r => exact congrArg (· == Role.comma) (ρ.roleOf_glyph c)
  | _ => rfl

theorem isGroup_relabel (ρ : Relabelling) (t : Token) : isGroup (t.relabel ρ) = isGroup t := by
  cases t with
  | operand node function range => exact Expr.isTuple_relabel ρ node.expr
  | _ => rfl

theorem binding?_relabel (ρ : Relabelling) (t : Token) : binding? (t.relabel ρ) = binding? t := by
  cases t with
  | glyph c r => exact congrArg Role.binding? (ρ.roleOf_glyph c)
  | _ => rfl

theorem goesOnWith_relabel (ρ : Relabelling) (level : Int) (ts : List Token) :
    goesOnWith level (ts.map (Token.relabel ρ)) = goesOnWith level ts := by
  cases ts with
  | nil => rfl
  | cons t ts => exact congrArg (Option.any (level < ·)) (binding?_relabel ρ t)

/-! ## What readers give -/

section
variable {α β : Type}

/-- What a reader gives, relabelled; `move` moves the value. -/
def moved (ρ : Relabelling) (move : α → α) : Except Halt (α × List Token) → Except Halt (α × List Token)
  | .error h => .error (h.relabel ρ)
  | .ok (a, us) => .ok (move a, us.map (Token.relabel ρ))

theorem moved_andThen {move : α → α} {move' : β → β} {r : Except Halt (α × List Token)}
    {f g : α → List Token → Except Halt (β × List Token)}
    (h : ∀ a us, r = .ok (a, us) → f (move a) (us.map (Token.relabel ρ)) = moved ρ move' (g a us)) :
    andThen (moved ρ move r) f = moved ρ move' (andThen r g) := by
  rcases r with halt | ⟨a, us⟩
  · rfl
  · exact h a us rfl

/-- Two readers of which the first puts into a shape, relabelled, what the second puts into it before. -/
theorem moved_map {move : α → α} {move' : β → β} {φ : α → β} (ψ : α → β)
    (h : ∀ a, φ (move a) = move' (ψ a)) (r : Except Halt (α × List Token)) :
    andThen (moved ρ move r) (fun a us => .ok (φ a, us)) =
      moved ρ move' (andThen r fun a us => .ok (ψ a, us)) :=
  moved_andThen fun a us _ => by rw [h]; rfl

theorem moved_unexpected (move : α → α) (stop : Range) (ts : List Token) :
    (.error (unexpected (ρ.range stop) (ts.map (Token.relabel ρ))) : Except Halt (α × List Token)) =
      moved ρ move (.error (unexpected stop ts)) := by
  rw [unexpected_relabel]
  rfl

end

/-! ## The readers -/

section
variable {stop : Range} {n : Nat} {ts : List Token}

theorem view_target_relabel (name : Placed) (named : Range) (ts : List Token) :
    (target (name.relabel ρ) (ρ.range named) (ts.map (Token.relabel ρ))).view =
      moved ρ (Placed.relabel ρ) (target name named ts).view := by
  cases hs : startsWith isSuperscript ts with
  | false =>
    have hs' := (startsWith_relabel (isSuperscript_relabel ρ) ts).trans hs
    rw [view_target_of_not_superscript name named hs, view_target_of_not_superscript _ _ hs']
    rfl
  | true =>
    match ts, hs with
    | .superscript exponent raised :: ts, _ =>
      have hminus : (exponent.relabel ρ).expr.isMinusOne = exponent.expr.isMinusOne :=
        Expr.isMinusOne_relabel ρ exponent.expr
      rw [List.map_cons, Token.relabel, view_target_superscript, view_target_superscript, hminus,
        ← Placed.relabel_inverse]
      split <;> rfl

/-- On fewer than `n` tokens, relabelled expressions are read as they are before. -/
def ReadsRelabelled (ρ : Relabelling) (stop : Range) (n : Nat) : Prop :=
  ∀ ts, ts.length < n → ∀ level, (expression (ρ.range stop) level (ts.map (Token.relabel ρ))).view =
    moved ρ (Placed.relabel ρ) (expression stop level ts).view

/-- A loop over suffixes that goes on by the first token. -/
theorem loop_relabel {loop loop' : Placed → List Token → Except Halt (Placed × List Token)}
    {goes : List Token → Bool}
    (hloop : ∀ l ts, loop l ts = if goes ts then
      andThen (suffix stop ts).view fun s us => loop (s.apply l) us else .ok (l, ts))
    (hloop' : ∀ l ts, loop' l ts = if goes ts then
      andThen (suffix (ρ.range stop) ts).view fun s us => loop' (s.apply l) us else .ok (l, ts))
    (hgoes : ∀ ts, goes (ts.map (Token.relabel ρ)) = goes ts)
    (hsuffix : ∀ us, us.length ≤ ts.length → (suffix (ρ.range stop) (us.map (Token.relabel ρ))).view =
      moved ρ (Suffix.relabel ρ) (suffix stop us).view)
    (l : Placed) : loop' (l.relabel ρ) (ts.map (Token.relabel ρ)) = moved ρ (Placed.relabel ρ) (loop l ts) := by
  induction hn : ts.length using Nat.strongRecOn generalizing l ts with
  | _ n ih =>
    rw [hloop, hloop', hgoes]
    cases goes ts with
    | false => rfl
    | true =>
      rw [if_pos rfl, if_pos rfl, hsuffix ts (Nat.le_refl _)]
      apply moved_andThen
      intro s us hs
      have hlt := length_lt_of_view hs
      rw [← Suffix.relabel_apply]
      exact ih us.length (by omega) (fun vs hv => hsuffix vs (by omega)) (s.apply l) rfl

namespace ReadsRelabelled

theorem suffix (hn : ReadsRelabelled ρ stop n) (hts : ts.length < n) :
    (Grammar.suffix (ρ.range stop) (ts.map (Token.relabel ρ))).view =
      moved ρ (Suffix.relabel ρ) (Grammar.suffix stop ts).view := by
  match ts with
  | [] =>
    -- the equation for what no rule fits asks that none does
    rw [List.map_nil, Grammar.suffix, Grammar.suffix]
    · exact moved_unexpected _ stop []
    all_goals simp
  | .subscript x raised :: ts =>
    rw [List.map_cons, Token.relabel, Grammar.suffix, Grammar.suffix]
    · exact moved_unexpected _ stop (.subscript x raised :: ts)
    all_goals simp
  | .superscript x raised :: ts =>
    rw [List.map_cons, Token.relabel, Grammar.suffix, Grammar.suffix]
    rfl
  | .operand node function range :: ts =>
    have hread := hn _ hts productLevel
    rw [List.map_cons, Token.relabel] at hread ⊢
    rw [view_suffix_operand, view_suffix_operand, hread]
    exact moved_map (Suffix.product · none) (fun _ => rfl) _
  | .glyph c sign :: ts =>
    have hread := hn ts (by simp only [List.length_cons] at hts; omega)
    rw [List.map_cons, Token.relabel, view_suffix_glyph, view_suffix_glyph, ρ.roleOf_glyph]
    cases roleOf c with
    | comma => exact moved_unexpected _ stop (.glyph c sign :: ts)
    | plain => exact moved_unexpected _ stop (.glyph c sign :: ts)
    | factorial => rfl
    | plus =>
      simp only [hread]
      exact moved_map (Suffix.sum · sign) (fun _ => rfl) _
    | minus =>
      simp only [hread]
      exact moved_map (Suffix.difference · sign) (fun _ => rfl) _
    | times =>
      simp only [hread]
      exact moved_map (Suffix.product · (some sign)) (fun _ => rfl) _
    | divide =>
      simp only [hread]
      exact moved_map (Suffix.quotient · sign) (fun _ => rfl) _
    | relation op =>
      simp only [hread]
      exact moved_map (Suffix.relation op · sign) (fun _ => rfl) _

theorem suffixes (hn : ReadsRelabelled ρ stop n) (hts : ts.length < n) (level : Int) (l : Placed) :
    (Grammar.suffixes (ρ.range stop) level (l.relabel ρ) (ts.map (Token.relabel ρ))).view =
      moved ρ (Placed.relabel ρ) (Grammar.suffixes stop level l ts).view :=
  loop_relabel (view_suffixes stop level) (view_suffixes (ρ.range stop) level) (goesOnWith_relabel ρ level)
    (fun us hu => hn.suffix (by omega)) l

theorem factors (hn : ReadsRelabelled ρ stop n) (hts : ts.length < n) (l : Placed) :
    (Grammar.factors (ρ.range stop) (l.relabel ρ) (ts.map (Token.relabel ρ))).view =
      moved ρ (Placed.relabel ρ) (Grammar.factors stop l ts).view :=
  loop_relabel (view_factors stop) (view_factors (ρ.range stop)) (startsWith_relabel (isPlainOperand_relabel ρ))
    (fun us hu => hn.suffix (by omega)) l

theorem argument (hn : ReadsRelabelled ρ stop n) (hts : ts.length < n) :
    (Grammar.argument (ρ.range stop) (ts.map (Token.relabel ρ))).view =
      moved ρ (Placed.relabel ρ) (Grammar.argument stop ts).view := by
  rw [view_argument, view_argument, hn ts hts productLevel]
  apply moved_andThen
  intro e us he
  have hlt := length_lt_of_view he
  exact hn.factors (by omega) e

theorem arguments (hn : ReadsRelabelled ρ stop n) (hts : ts.length < n) :
    (Grammar.arguments (ρ.range stop) (ts.map (Token.relabel ρ))).view =
      moved ρ (Placed.relabel ρ) (Grammar.arguments stop ts).view := by
  cases hg : startsWith isGroup ts with
  | false =>
    have hg' := (startsWith_relabel (isGroup_relabel ρ) ts).trans hg
    rw [view_arguments_of_not_group stop hg, view_arguments_of_not_group _ hg']
    exact hn.argument hts
  | true =>
    match ts, hg with
    | .operand args function range :: ts, hg =>
      have hg' : (args.relabel ρ).expr.isTuple := (Expr.isTuple_relabel ρ args.expr).trans hg
      rw [List.map_cons, Token.relabel, view_arguments_group stop hg, view_arguments_group _ hg']
      rfl

theorem operand (hn : ReadsRelabelled ρ stop n) (hts : ts.length ≤ n) :
    (Grammar.operand (ρ.range stop) (ts.map (Token.relabel ρ))).view =
      moved ρ (Placed.relabel ρ) (Grammar.operand stop ts).view := by
  match ts with
  | [] =>
    rw [List.map_nil, Grammar.operand, Grammar.operand]
    · exact moved_unexpected _ stop []
    all_goals simp
  | .superscript x raised :: ts =>
    rw [List.map_cons, Token.relabel, Grammar.operand, Grammar.operand]
    · exact moved_unexpected _ stop (.superscript x raised :: ts)
    all_goals simp
  | .subscript x raised :: ts =>
    rw [List.map_cons, Token.relabel, Grammar.operand, Grammar.operand]
    · exact moved_unexpected _ stop (.subscript x raised :: ts)
    all_goals simp
  | .operand node false range :: ts =>
    rw [List.map_cons, Token.relabel, Grammar.operand, Grammar.operand]
    rfl
  | .operand name true named :: ts =>
    simp only [List.length_cons] at hts
    rw [List.map_cons, Token.relabel, view_operand_name, view_operand_name, view_target_relabel]
    apply moved_andThen
    intro t us ht
    have hlt := length_lt_of_view ht
    rw [hn.arguments (by omega)]
    exact moved_map t.apply (fun args => (Placed.relabel_apply ρ t args).symm) _
  | .glyph c sign :: ts =>
    have hread := hn ts (by simp only [List.length_cons] at hts; omega) signLevel
    rw [List.map_cons, Token.relabel, view_operand_glyph, view_operand_glyph, ρ.roleOf_glyph]
    cases roleOf c with
    | plus => exact hread
    | minus =>
      simp only [hread]
      exact moved_map (Placed.negate sign) (fun e => (Placed.relabel_negate ρ sign e).symm) _
    | _ => exact moved_unexpected _ stop (.glyph c sign :: ts)

end ReadsRelabelled

theorem readsRelabelled (ρ : Relabelling) (stop : Range) (n : Nat) : ReadsRelabelled ρ stop n := by
  induction n with
  | zero => intro ts hts; omega
  | succ n ih =>
    intro ts hts level
    rw [view_expression, view_expression, ih.operand (by omega)]
    apply moved_andThen
    intro e us he
    have hlt := length_lt_of_view he
    exact ih.suffixes (by omega) level e

theorem view_expression_relabel (ρ : Relabelling) (stop : Range) (level : Int) (ts : List Token) :
    (expression (ρ.range stop) level (ts.map (Token.relabel ρ))).view =
      moved ρ (Placed.relabel ρ) (expression stop level ts).view :=
  readsRelabelled ρ stop (ts.length + 1) ts (Nat.lt_succ_self _) level

theorem view_items_relabel (ρ : Relabelling) (stop : Range) (ts : List Token) :
    (items (ρ.range stop) (ts.map (Token.relabel ρ))).view =
      moved ρ (List.map (Placed.relabel ρ)) (items stop ts).view := by
  obtain ⟨n, hn⟩ : ∃ n, ts.length = n := ⟨_, rfl⟩
  induction n using Nat.strongRecOn generalizing ts with
  | _ n ih =>
    rw [view_items, view_items, view_expression_relabel]
    apply moved_andThen
    intro e us he
    have hlt := length_lt_of_view he
    rw [startsWith_relabel (isComma_relabel ρ)]
    split
    · rw [← List.map_tail, ih us.tail.length (by rw [List.length_tail]; omega) us.tail rfl]
      exact moved_map (e :: ·) (fun _ => List.map_cons.symm) _
    · rfl

/-! ## Whole rows -/

theorem toEnd_relabel {α : Type} {move : α → α} {f f' : List Token → Except Halt (α × List Token)}
    (hf : f' (ts.map (Token.relabel ρ)) = moved ρ move (f ts)) :
    toEnd (ρ.range stop) f' (ts.map (Token.relabel ρ)) = moved ρ move (toEnd stop f ts) := by
  unfold toEnd
  rw [hf]
  apply moved_andThen
  intro a us _
  cases us with
  | nil => rfl
  | cons t us => exact moved_unexpected _ stop (t :: us)

/-- What reads a whole row, relabelled. -/
def relabelResult {α : Type} (ρ : Relabelling) (move : α → α) : Except Halt α → Except Halt α
  | .error h => .error (h.relabel ρ)
  | .ok a => .ok (move a)

theorem moved_fst {α : Type} (move : α → α) (r : Except Halt (α × List Token)) :
    (moved ρ move r).map (·.1) = relabelResult ρ move (r.map (·.1)) := by
  cases r <;> rfl

theorem whole_relabel (ρ : Relabelling) (stop : Range) (ts : List Token) :
    whole (ρ.range stop) (ts.map (Token.relabel ρ)) = relabelResult ρ (Placed.relabel ρ) (whole stop ts) := by
  have hend : toEnd (ρ.range stop) (fun ts => (expression (ρ.range stop) lowest ts).view)
      (ts.map (Token.relabel ρ)) =
      moved ρ (Placed.relabel ρ) (toEnd stop (fun ts => (expression stop lowest ts).view) ts) :=
    toEnd_relabel (view_expression_relabel ρ stop lowest ts)
  rw [whole_eq, whole_eq, hend, moved_fst]

theorem group_relabel (ρ : Relabelling) (stop : Range) (ts : List Token) :
    group (ρ.range stop) (ts.map (Token.relabel ρ)) =
      relabelResult ρ (List.map (Placed.relabel ρ)) (group stop ts) := by
  have hend : toEnd (ρ.range stop) (fun ts => (items (ρ.range stop) ts).view) (ts.map (Token.relabel ρ)) =
      moved ρ (List.map (Placed.relabel ρ)) (toEnd stop (fun ts => (items stop ts).view) ts) :=
    toEnd_relabel (view_items_relabel ρ stop ts)
  rw [group_eq, group_eq, hend, moved_fst]

end

end PlanarMath.Grammar
