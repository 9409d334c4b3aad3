import PlanarMath.Proofs.Grammar.Phrases

/-!
# What is read is a phrase

A reader that succeeds has read a phrase of the grammar, greedily, and stands where nothing goes on at
its level:

    (expression level ts).view = .ok (e, us)  →  Derives true (phraseAt level) ts us e      (expression_derives)

The loop over suffixes keeps a `Stage`: what it has read so far is a phrase of some kind, and what
follows does not go on inside that phrase.
-/

namespace PlanarMath.Grammar

/-- The kind of phrase that is read at a level. -/
def phraseAt (level : Int) : Phrase :=
  if level < relationLevel then .relation
  else if level < sumLevel then .sum
  else if level < productLevel then .product
  else .factor

theorem phraseAt_signLevel : phraseAt signLevel = .factor := by decide

theorem phraseAt_lowest : phraseAt lowest = .relation := by decide

theorem goesOnWith_mono {low high : Int} (h : low ≤ high) {ts : List Token}
    (ht : goesOnWith low ts = false) : goesOnWith high ts = false := by
  cases ts with
  | nil => rfl
  | cons t ts =>
    cases hg : goesOn high t with
    | false => exact hg
    | true => exact absurd (goesOn_mono h hg) (by simpa [goesOnWith] using ht)

/-- Between the levels of products and of signs nothing goes on. -/
theorem goesOnWith_signLevel (ts : List Token) : goesOnWith signLevel ts = goesOnWith productLevel ts := by
  cases ts with
  | nil => rfl
  | cons t ts =>
    cases t with
    | glyph c r => simp only [goesOnWith, goesOn, binding?]; cases roleOf c <;> rfl
    | operand => rfl
    | superscript => rfl
    | subscript => rfl

section
variable {stop : Range}

/-! ## One suffix -/

/-- All that a suffix can be. -/
theorem suffix_cases {ts us : List Token} {s : Suffix} (h : (suffix stop ts).view = .ok (s, us)) :
    (startsWith isOperand ts ∧
      ∃ e, (expression stop productLevel ts).view = .ok (e, us) ∧ s = .product e none) ∨
    (∃ x r, ts = .superscript x r :: us ∧ s = .power x r) ∨
    ∃ c r vs, ts = .glyph c r :: vs ∧
      ((roleOf c = .factorial ∧ vs = us ∧ s = .factorial r) ∨
       (roleOf c = .times ∧
          ∃ e, (expression stop productLevel vs).view = .ok (e, us) ∧ s = .product e (some r)) ∨
       (roleOf c = .divide ∧
          ∃ e, (expression stop productLevel vs).view = .ok (e, us) ∧ s = .quotient e r) ∨
       (∃ op, roleOf c = .relation op ∧
          ∃ e, (expression stop lowest vs).view = .ok (e, us) ∧ s = .relation op e r) ∨
       (roleOf c = .plus ∧ ∃ e, (expression stop sumLevel vs).view = .ok (e, us) ∧ s = .sum e r) ∨
       (roleOf c = .minus ∧
          ∃ e, (expression stop sumLevel vs).view = .ok (e, us) ∧ s = .difference e r)) := by
  match ts with
  | [] => simp [suffix, Outcome.view] at h
  | .subscript x r :: vs => simp [suffix, Outcome.view] at h
  | .superscript x r :: vs =>
    simp only [suffix, Outcome.view, Except.ok.injEq, Prod.mk.injEq] at h
    obtain ⟨rfl, rfl⟩ := h
    exact .inr (.inl ⟨x, r, rfl, rfl⟩)
  | .operand node function range :: vs =>
    rw [view_suffix_operand, andThen_eq_ok] at h
    obtain ⟨e, ws, he, h⟩ := h
    simp only [Except.ok.injEq, Prod.mk.injEq] at h
    obtain ⟨rfl, rfl⟩ := h
    exact .inl ⟨rfl, e, he, rfl⟩
  | .glyph c r :: vs =>
    refine .inr (.inr ⟨c, r, vs, rfl, ?_⟩)
    rw [view_suffix_glyph] at h
    -- the readers of the five signs with an operand end alike
    have peel : ∀ {level : Int} {f : Placed → Suffix},
        (andThen (expression stop level vs).view fun e ws => .ok (f e, ws)) = .ok (s, us) →
        ∃ e, (expression stop level vs).view = .ok (e, us) ∧ s = f e := by
      intro level f h
      obtain ⟨e, ws, he, h⟩ := andThen_eq_ok.1 h
      simp only [Except.ok.injEq, Prod.mk.injEq] at h
      obtain ⟨rfl, rfl⟩ := h
      exact ⟨e, he, rfl⟩
    cases hr : roleOf c with
    | plus => rw [hr] at h; simpa using peel h
    | minus => rw [hr] at h; simpa using peel h
    | times => rw [hr] at h; simpa using peel h
    | divide => rw [hr] at h; simpa using peel h
    | relation op => rw [hr] at h; simpa using peel h
    | factorial =>
      rw [hr] at h
      simp only [Except.ok.injEq, Prod.mk.injEq] at h
      simp [h.1, h.2]
    | comma => rw [hr] at h; cases h
    | plain => rw [hr] at h; cases h

/-! ## Stages -/

/-- What the loop over suffixes has read so far, at a level, with the tokens `us` still to come. -/
inductive Stage (level : Int) (ts us : List Token) (e : Placed) : Prop
  | atom : Derives true .atom ts us e → Stage level ts us e
  | factor : Derives true .factor ts us e → goesOnWith productLevel us = false → Stage level ts us e
  | product : Derives true .product ts us e → goesOnWith productLevel us = false →
      level < productLevel → Stage level ts us e
  | sum : Derives true .sum ts us e → goesOnWith sumLevel us = false → level < sumLevel →
      Stage level ts us e
  | relation : Derives true .relation ts us e → goesOnWith lowest us = false → level < relationLevel →
      Stage level ts us e

namespace Stage

variable {level : Int} {ts us : List Token} {e : Placed}

theorem atom_of_goesOn (h : Stage level ts us e) (hg : goesOnWith productLevel us = true) :
    Derives true .atom ts us e := by
  have low : ∀ {k : Int}, k ≤ productLevel → goesOnWith k us = false → False := by
    intro k hk hf
    rw [goesOnWith_mono hk hf] at hg
    cases hg
  cases h with
  | atom h => exact h
  | factor h hf => exact (low (by decide) hf).elim
  | product h hf => exact (low (by decide) hf).elim
  | sum h hf => exact (low (by decide) hf).elim
  | relation h hf => exact (low (by decide) hf).elim

theorem product_of_goesOn (h : Stage level ts us e) (hg : goesOnWith sumLevel us = true) :
    Derives true .product ts us e := by
  have low : ∀ {k : Int}, k ≤ sumLevel → goesOnWith k us = false → False := by
    intro k hk hf
    rw [goesOnWith_mono hk hf] at hg
    cases hg
  cases h with
  | atom h => exact .ofFactor (.ofAtom h)
  | factor h => exact .ofFactor h
  | product h => exact h
  | sum h hf => exact (low (by decide) hf).elim
  | relation h hf => exact (low (by decide) hf).elim

theorem sum_of_goesOn (h : Stage level ts us e) (hg : goesOnWith lowest us = true) :
    Derives true .sum ts us e := by
  cases h with
  | atom h => exact .ofProduct (.ofFactor (.ofAtom h))
  | factor h => exact .ofProduct (.ofFactor h)
  | product h => exact .ofProduct h
  | sum h => exact h
  | relation h hf => rw [hf] at hg; cases hg

/-- At the end of the loop a phrase of the level is read. -/
theorem derives (h : Stage level ts us e) : Derives true (phraseAt level) ts us e := by
  have up : Derives true .factor ts us e → Derives true (phraseAt level) ts us e := by
    intro h
    unfold phraseAt
    split
    · exact .ofSum (.ofProduct (.ofFactor h))
    · split
      · exact .ofProduct (.ofFactor h)
      · split
        · exact .ofFactor h
        · exact h
  cases h with
  | atom h => exact up (.ofAtom h)
  | factor h => exact up h
  | product h _ hl =>
    unfold phraseAt
    rw [if_pos hl]
    split
    · exact .ofSum (.ofProduct h)
    · split
      · exact .ofProduct h
      · exact h
  | sum h _ hl =>
    unfold phraseAt
    rw [if_pos hl]
    split
    · exact .ofSum h
    · exact h
  | relation h _ hl => unfold phraseAt; rw [if_pos hl]; exact h

end Stage

/-! ## The readers -/

/-- On fewer than `n` tokens, expressions are phrases of their level. -/
def ReadsPhrases (stop : Range) (n : Nat) : Prop :=
  ∀ us, us.length < n → ∀ level e vs, (expression stop level us).view = .ok (e, vs) →
    Derives true (phraseAt level) us vs e ∧ goesOnWith level vs = false

namespace ReadsPhrases

variable {n : Nat} {us vs : List Token} {e : Placed}

theorem factor (hn : ReadsPhrases stop n) (hu : us.length < n)
    (h : (expression stop productLevel us).view = .ok (e, vs)) :
    Derives true .factor us vs e ∧ goesOnWith productLevel vs = false := hn us hu _ e vs h

theorem product (hn : ReadsPhrases stop n) (hu : us.length < n)
    (h : (expression stop sumLevel us).view = .ok (e, vs)) :
    Derives true .product us vs e ∧ goesOnWith sumLevel vs = false := hn us hu _ e vs h

theorem relation (hn : ReadsPhrases stop n) (hu : us.length < n)
    (h : (expression stop lowest us).view = .ok (e, vs)) :
    Derives true .relation us vs e ∧ goesOnWith lowest vs = false := hn us hu _ e vs h

/-- One suffix takes the loop from stage to stage. -/
theorem stage_apply (hn : ReadsPhrases stop n) (hu : us.length < n) {level : Int} {ts : List Token}
    {l : Placed} (hl : Stage level ts us l) (hg : goesOnWith level us = true) {s : Suffix}
    (h : (suffix stop us).view = .ok (s, vs)) : Stage level ts vs (s.apply l) := by
  rcases suffix_cases h with ⟨ho, r, hr, rfl⟩ | ⟨x, r, rfl, rfl⟩ | ⟨c, sign, ws, rfl, hs⟩
  · -- a factor beside the product
    obtain ⟨hd, hv⟩ := hn.factor hu hr
    match us, ho with
    | .operand node function range :: us, _ =>
      exact .product (.juxtaposition (hl.product_of_goesOn rfl) rfl hd) hv
        (by simpa [goesOnWith, goesOn, binding?] using hg)
  · exact .atom (.power (hl.atom_of_goesOn rfl))
  · have hw : ws.length < n := by simp only [List.length_cons] at hu; omega
    -- what a glyph goes on at is the level of its role
    have role : ∀ {k : Int}, goesOnWith k (.glyph c sign :: ws) = (roleOf c).binding?.any (k < ·) := rfl
    rcases hs with ⟨hc, rfl, rfl⟩ | ⟨hc, r, hr, rfl⟩ | ⟨hc, r, hr, rfl⟩ | ⟨op, hc, r, hr, rfl⟩ |
      ⟨hc, r, hr, rfl⟩ | ⟨hc, r, hr, rfl⟩
    · exact .atom (.factorial (hl.atom_of_goesOn (by rw [role, hc]; rfl)) hc)
    · obtain ⟨hd, hv⟩ := hn.factor hw hr
      exact .product (.multiplication (hl.product_of_goesOn (by rw [role, hc]; rfl)) hc hd) hv
        (by simpa [role, hc, Role.binding?] using hg)
    · obtain ⟨hd, hv⟩ := hn.factor hw hr
      exact .product (.division (hl.product_of_goesOn (by rw [role, hc]; rfl)) hc hd) hv
        (by simpa [role, hc, Role.binding?] using hg)
    · obtain ⟨hd, hv⟩ := hn.relation hw hr
      exact .relation (.relation (hl.sum_of_goesOn (by rw [role, hc]; rfl)) hc hd) hv
        (by simpa [role, hc, Role.binding?] using hg)
    · obtain ⟨hd, hv⟩ := hn.product hw hr
      exact .sum (.addition (hl.sum_of_goesOn (by rw [role, hc]; rfl)) hc hd) hv
        (by simpa [role, hc, Role.binding?] using hg)
    · obtain ⟨hd, hv⟩ := hn.product hw hr
      exact .sum (.subtraction (hl.sum_of_goesOn (by rw [role, hc]; rfl)) hc hd) hv
        (by simpa [role, hc, Role.binding?] using hg)

/-- The loop over suffixes. -/
theorem stage_suffixes (hn : ReadsPhrases stop n) {level : Int} {ts : List Token} {l : Placed}
    (hu : us.length < n) (hl : Stage level ts us l)
    (h : (suffixes stop level l us).view = .ok (e, vs)) :
    Stage level ts vs e ∧ goesOnWith level vs = false := by
  have step : ∀ l us s ws, us.length < n ∧ Stage level ts us l → goesOnWith level us →
      (suffix stop us).view = .ok (s, ws) → ws.length < n ∧ Stage level ts ws (s.apply l) := by
    rintro l us s ws ⟨hu, hl⟩ hg hs
    have := length_lt_of_view hs
    exact ⟨by omega, hn.stage_apply hu hl hg hs⟩
  obtain ⟨⟨-, hs⟩, hg⟩ := loop_invariant stop (view_suffixes stop level) step ⟨hu, hl⟩ h
  exact ⟨hs, hg⟩

/-- The loop over the plain operands beside an argument. -/
theorem argument_factors (hn : ReadsPhrases stop n) {ts : List Token} {l : Placed}
    (hu : us.length < n) (hl : Derives true .argument ts us l) (hg : goesOnWith productLevel us = false)
    (h : (factors stop l us).view = .ok (e, vs)) :
    Derives true .argument ts vs e ∧ goesOnWith productLevel vs = false ∧
      startsWith Token.isPlainOperand vs = false := by
  have step : ∀ l us s ws,
      us.length < n ∧ Derives true .argument ts us l ∧ goesOnWith productLevel us = false →
      startsWith Token.isPlainOperand us → (suffix stop us).view = .ok (s, ws) →
      ws.length < n ∧ Derives true .argument ts ws (s.apply l) ∧
        goesOnWith productLevel ws = false := by
    rintro l us s ws ⟨hu, hl, -⟩ hp hs
    have := length_lt_of_view hs
    match us, hp with
    | .operand node false range :: us, hp =>
      rw [view_suffix_operand, andThen_eq_ok] at hs
      obtain ⟨r, xs, hr, hs⟩ := hs
      simp only [Except.ok.injEq, Prod.mk.injEq] at hs
      obtain ⟨rfl, rfl⟩ := hs
      obtain ⟨hd, hv⟩ := hn.factor hu hr
      exact ⟨by omega, .absorption hl hp hd, hv⟩
  obtain ⟨⟨-, hd, hv⟩, hp⟩ := loop_invariant stop (view_factors stop) step ⟨hu, hl, hg⟩ h
  exact ⟨hd, hv, hp⟩

/-- The arguments of a name: a group, which leaves an atom, or an argument, which leaves a factor. -/
theorem stage_arguments (hn : ReadsPhrases stop n) {name : Placed} {named : Range} {ts : List Token}
    {t args : Placed} (ht : Target name named ts us t) (hu : us.length < n)
    (h : (arguments stop us).view = .ok (args, vs)) (level : Int) :
    Stage level (.operand name true named :: ts) vs (t.apply args) := by
  cases hg : startsWith isGroup us with
  | true =>
    match us, hg with
    | .operand group function range :: us, hg =>
      rw [view_arguments_group stop hg] at h
      simp only [Except.ok.injEq, Prod.mk.injEq] at h
      obtain ⟨rfl, rfl⟩ := h
      exact .atom (.groupCall ht hg)
  | false =>
    rw [view_arguments_of_not_group stop hg, view_argument, andThen_eq_ok] at h
    obtain ⟨first, ws, hf, h⟩ := h
    obtain ⟨hd, hw⟩ := hn.factor hu hf
    have := length_lt_of_view hf
    obtain ⟨ha, hv, hp⟩ := hn.argument_factors (by omega) (.ofFirst hd) hw h
    exact .factor (.call ht hg ha fun _ => hp) hv

/-- An operand with the signs in front of it. -/
theorem stage_operand (hn : ReadsPhrases stop n) (hu : us.length ≤ n)
    (h : (operand stop us).view = .ok (e, vs)) (level : Int) : Stage level us vs e := by
  match us with
  | [] => simp [operand, Outcome.view] at h
  | .superscript x r :: ts => simp [operand, Outcome.view] at h
  | .subscript x r :: ts => simp [operand, Outcome.view] at h
  | .operand node false range :: ts =>
    simp only [operand, Outcome.view, Except.ok.injEq, Prod.mk.injEq] at h
    obtain ⟨rfl, rfl⟩ := h
    exact .atom .operand
  | .operand name true named :: ts =>
    rw [view_operand_name, andThen_eq_ok] at h
    obtain ⟨t, ws, ht, h⟩ := h
    obtain ⟨args, xs, ha, h⟩ := andThen_eq_ok.1 h
    simp only [Except.ok.injEq, Prod.mk.injEq] at h
    obtain ⟨rfl, rfl⟩ := h
    have htarget := view_target_eq_ok ht
    have := htarget.length_le
    simp only [List.length_cons] at hu
    exact hn.stage_arguments htarget (by omega) ha level
  | .glyph c range :: ts =>
    have ht : ts.length < n := by simp only [List.length_cons] at hu; omega
    rw [view_operand_glyph] at h
    cases hc : roleOf c with
    | plus =>
      rw [hc] at h
      obtain ⟨hd, hv⟩ := hn ts ht _ e vs h
      rw [phraseAt_signLevel] at hd
      exact .factor (.positive hc hd) (by rwa [← goesOnWith_signLevel])
    | minus =>
      rw [hc] at h
      obtain ⟨x, ws, hx, h⟩ := andThen_eq_ok.1 h
      simp only [Except.ok.injEq, Prod.mk.injEq] at h
      obtain ⟨rfl, rfl⟩ := h
      obtain ⟨hd, hv⟩ := hn ts ht _ x ws hx
      rw [phraseAt_signLevel] at hd
      exact .factor (.negative hc hd) (by rwa [← goesOnWith_signLevel])
    | _ => rw [hc] at h; cases h

end ReadsPhrases

theorem readsPhrases (stop : Range) (n : Nat) : ReadsPhrases stop n := by
  induction n with
  | zero => intro us hu; omega
  | succ n ih =>
    intro us hu level e vs h
    rw [view_expression] at h
    obtain ⟨first, ws, hf, h⟩ := andThen_eq_ok.1 h
    have := length_lt_of_view hf
    have hs := ih.stage_operand (by omega) hf level
    obtain ⟨hd, hv⟩ := ih.stage_suffixes (by omega) hs h
    exact ⟨hd.derives, hv⟩

/-- **Soundness.**  What is read at a level is a phrase of that level, and nothing goes on there. -/
theorem expression_derives {level : Int} {ts us : List Token} {e : Placed}
    (h : (expression stop level ts).view = .ok (e, us)) :
    Derives true (phraseAt level) ts us e ∧ goesOnWith level us = false :=
  readsPhrases stop (ts.length + 1) ts (Nat.lt_succ_self _) level e us h

end

end PlanarMath.Grammar
