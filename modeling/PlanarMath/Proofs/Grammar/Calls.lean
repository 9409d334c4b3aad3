import PlanarMath.Proofs.Grammar.Kept

/-!
# Calls between readers

The readers call one another.  `Calls r ts s us` says that reader `r`, at the tokens `ts`, comes to call
reader `s` at the tokens `us`, whether or not `r` succeeds in the end.  What is true of all calls is then
an invariant of these steps:

    the tokens of a call are the last ones of its caller's           (Calls.exists_used)
    a call has fewer tokens than its caller, or a lower rank         (Calls.rank_lt)
    what the grammar keeps, it keeps at every call on the way        (Kept.callsFrom)
-/

namespace PlanarMath.Grammar

/-- A reader, with what it is given besides tokens. -/
inductive Reader where
  | expression (level : Int)
  | operand
  | arguments
  | argument
  | factors (left : Placed)
  | suffixes (level : Int) (left : Placed)
  | suffix
  | items

/-- The level at which the operand after a sign is read. -/
def Role.operandLevel? : Role → Option Int
  | .times | .divide => some productLevel
  | .relation _ => some lowest
  | .plus | .minus => some sumLevel
  | .factorial | .comma | .plain => none

section
variable (stop : Range)

/-- The calls of the readers. -/
inductive Calls : Reader → List Token → Reader → List Token → Prop
  | operand {level ts} : Calls (.expression level) ts .operand ts
  | suffixes {level ts us e} : (operand stop ts).view = .ok (e, us) →
      Calls (.expression level) ts (.suffixes level e) us
  | signed {c sign ts} : roleOf c = .plus ∨ roleOf c = .minus →
      Calls .operand (.glyph c sign :: ts) (.expression signLevel) ts
  | arguments {name named ts us t} : (target name named ts).view = .ok (t, us) →
      Calls .operand (.operand name true named :: ts) .arguments us
  | argument {ts} : startsWith isGroup ts = false → Calls .arguments ts .argument ts
  | first {ts} : Calls .argument ts (.expression productLevel) ts
  | factors {ts us e} : (expression stop productLevel ts).view = .ok (e, us) →
      Calls .argument ts (.factors e) us
  | beside {l ts} : startsWith Token.isPlainOperand ts → Calls (.factors l) ts .suffix ts
  | absorb {l ts us s} : startsWith Token.isPlainOperand ts → (suffix stop ts).view = .ok (s, us) →
      Calls (.factors l) ts (.factors (s.apply l)) us
  | goesOn {level l ts} : goesOnWith level ts → Calls (.suffixes level l) ts .suffix ts
  | loop {level l ts us s} : goesOnWith level ts → (suffix stop ts).view = .ok (s, us) →
      Calls (.suffixes level l) ts (.suffixes level (s.apply l)) us
  | juxtaposed {ts} : startsWith isOperand ts → Calls .suffix ts (.expression productLevel) ts
  | after {c sign ts level} : (roleOf c).operandLevel? = some level →
      Calls .suffix (.glyph c sign :: ts) (.expression level) ts
  | item {ts} : Calls .items ts (.expression lowest) ts
  | items {ts us e} : (expression stop lowest ts).view = .ok (e, us) → startsWith isComma us →
      Calls .items ts .items us.tail

/-- A call, and all that comes of it. -/
inductive CallsFrom (r : Reader) (ts : List Token) : Reader → List Token → Prop
  | itself : CallsFrom r ts r ts
  | step {s us s' vs} : CallsFrom r ts s us → Calls stop s us s' vs → CallsFrom r ts s' vs

/-- What a reader returns; a suffix is no expression, what it makes of one is given to the next call. -/
inductive Returns : Reader → List Token → Placed → Prop
  | expression {level ts us e} : (expression stop level ts).view = .ok (e, us) →
      Returns (.expression level) ts e
  | operand {ts us e} : (operand stop ts).view = .ok (e, us) → Returns .operand ts e
  | arguments {ts us e} : (arguments stop ts).view = .ok (e, us) → Returns .arguments ts e
  | argument {ts us e} : (argument stop ts).view = .ok (e, us) → Returns .argument ts e
  | factors {l ts us e} : (factors stop l ts).view = .ok (e, us) → Returns (.factors l) ts e
  | suffixes {level l ts us e} : (suffixes stop level l ts).view = .ok (e, us) →
      Returns (.suffixes level l) ts e
  | items {ts us es e} : (items stop ts).view = .ok (es, us) → e ∈ es → Returns .items ts e

end

/-- What a reader is given besides tokens has a property. -/
def Reader.Given (Q : Placed → Prop) : Reader → Prop
  | .factors l | .suffixes _ l => Q l
  | _ => True

section
variable {stop : Range} {level : Int} {ts us : List Token} {e : Placed}

/-! ## What is read is a phrase -/

theorem operand_derives (h : (operand stop ts).view = .ok (e, us)) : Derives true .factor ts us e :=
  ((readsPhrases stop ts.length).stage_operand (Nat.le_refl _) h signLevel).derives

theorem expression_used (h : (expression stop level ts).view = .ok (e, us)) :
    ∃ used, used ≠ [] ∧ ts = used ++ us := (expression_derives h).1.exists_used

/-- A suffix takes tokens from the front. -/
theorem suffix_used {s : Suffix} (h : (suffix stop ts).view = .ok (s, us)) :
    ∃ used, used ≠ [] ∧ ts = used ++ us := by
  have sign : ∀ {t : Token} {vs : List Token} {k : Int} {e : Placed},
      (expression stop k vs).view = .ok (e, us) → ∃ used, used ≠ [] ∧ t :: vs = used ++ us := by
    intro t vs k e he
    obtain ⟨used, -, rfl⟩ := expression_used he
    exact ⟨t :: used, List.cons_ne_nil _ _, rfl⟩
  rcases suffix_cases h with ⟨-, r, hr, -⟩ | ⟨x, r, rfl, -⟩ | ⟨c, r, vs, rfl, hs⟩
  · exact expression_used hr
  · exact ⟨[_], List.cons_ne_nil _ _, rfl⟩
  · rcases hs with ⟨-, rfl, -⟩ | ⟨-, e, he, -⟩ | ⟨-, e, he, -⟩ | ⟨op, -, e, he, -⟩ | ⟨-, e, he, -⟩ |
      ⟨-, e, he, -⟩
    · exact ⟨[_], List.cons_ne_nil _ _, rfl⟩
    · exact sign he
    · exact sign he
    · exact sign he
    · exact sign he
    · exact sign he

/-! ## Calls end -/

/-- The tokens of a call are the last ones of its caller's. -/
theorem Calls.exists_used {r s : Reader} (h : Calls stop r ts s us) : ∃ used, ts = used ++ us := by
  cases h with
  | operand | argument | first | beside | goesOn | juxtaposed | item => exact ⟨[], rfl⟩
  | signed | after => exact ⟨[_], rfl⟩
  | suffixes h =>
    obtain ⟨used, -, h⟩ := (operand_derives h).exists_used
    exact ⟨used, h⟩
  | arguments h =>
    obtain ⟨used, rfl⟩ := (view_target_eq_ok h).exists_used
    exact ⟨_ :: used, rfl⟩
  | factors h =>
    obtain ⟨used, -, h⟩ := expression_used h
    exact ⟨used, h⟩
  | absorb _ h =>
    obtain ⟨used, -, h⟩ := suffix_used h
    exact ⟨used, h⟩
  | loop _ h =>
    obtain ⟨used, -, h⟩ := suffix_used h
    exact ⟨used, h⟩
  | @items _ vs e h hc =>
    obtain ⟨used, -, rfl⟩ := expression_used h
    match vs, hc with
    | t :: vs, _ => exact ⟨used ++ [t], by simp⟩

/-- Where two readers start at the same token, the one with the lower rank is called by the other. -/
def Reader.rank : Reader → Nat
  | .operand => 0
  | .expression _ => 1
  | .argument | .suffix => 2
  | .arguments | .factors _ | .suffixes .. => 3
  | .items => 4

/-- A call has fewer tokens than its caller, or as many and a lower rank. -/
theorem Calls.rank_lt {r s : Reader} (h : Calls stop r ts s us) :
    5 * us.length + s.rank < 5 * ts.length + r.rank := by
  cases h with
  | operand | argument | first | beside | goesOn | juxtaposed | item => simp only [Reader.rank]; omega
  | signed | after => simp only [Reader.rank, List.length_cons]; omega
  | suffixes h | factors h | absorb _ h | loop _ h =>
    have := length_lt_of_view h
    simp only [Reader.rank]
    omega
  | arguments h =>
    have := (view_target_eq_ok h).length_le
    simp only [Reader.rank, List.length_cons]
    omega
  | items h =>
    have := length_lt_of_view h
    simp only [Reader.rank, List.length_tail]
    omega

/-! ## What is kept at every call -/

namespace Kept

variable {token : Token → Prop} {Q : Placed → Prop}

theorem expression (hk : Kept token Q) (hts : ∀ t ∈ ts, token t)
    (h : (expression stop level ts).view = .ok (e, us)) : Q e := hk.derives (expression_derives h).1 hts

/-- What a suffix makes of an expression. -/
theorem suffix (hk : Kept token Q) (hts : ∀ t ∈ ts, token t) {s : Suffix}
    (h : (suffix stop ts).view = .ok (s, us)) {l : Placed} (hl : Q l) : Q (s.apply l) := by
  rcases suffix_cases h with ⟨-, r, hr, rfl⟩ | ⟨x, r, rfl, rfl⟩ | ⟨c, sign, vs, rfl, hs⟩
  · exact hk.join _ _ _ _ (.inr rfl) hl (hk.expression hts hr)
  · exact hk.power _ _ _ (List.forall_mem_cons.1 hts).1 hl
  · have hvs := (List.forall_mem_cons.1 hts).2
    rcases hs with ⟨-, -, rfl⟩ | ⟨-, r, hr, rfl⟩ | ⟨-, r, hr, rfl⟩ | ⟨op, hc, r, hr, rfl⟩ |
      ⟨-, r, hr, rfl⟩ | ⟨-, r, hr, rfl⟩
    · exact hk.factorial _ _ hl
    · exact hk.join _ _ _ _ (.inr rfl) hl (hk.expression hvs hr)
    · exact hk.pair _ _ _ _ (.inl rfl) hl (hk.expression hvs hr)
    · exact hk.pair _ _ _ _ (.inr (isRelation_of_roleOf hc)) hl (hk.expression hvs hr)
    · exact hk.join _ _ _ _ (.inl rfl) hl (hk.expression hvs hr)
    · exact hk.join _ _ _ _ (.inl rfl) hl (hk.negate _ _ (hk.expression hvs hr))

/-- What a loop over suffixes makes of an expression. -/
theorem loop (hk : Kept token Q) {loop : Placed → List Token → Except Halt (Placed × List Token)}
    {goes : List Token → Bool}
    (hloop : ∀ l ts, loop l ts = if goes ts then
      andThen (Grammar.suffix stop ts).view fun s us => loop (s.apply l) us else .ok (l, ts))
    (hts : ∀ t ∈ ts, token t) {l : Placed} (hl : Q l) (h : loop l ts = .ok (e, us)) : Q e := by
  have step : ∀ l ts s us, Q l ∧ (∀ t ∈ ts, token t) → goes ts →
      (Grammar.suffix stop ts).view = .ok (s, us) → Q (s.apply l) ∧ ∀ t ∈ us, token t := by
    rintro l ts s us ⟨hl, hts⟩ - hs
    obtain ⟨used, -, rfl⟩ := suffix_used hs
    exact ⟨hk.suffix hts hs hl, (List.forall_mem_append.1 hts).2⟩
  exact (loop_invariant stop hloop step ⟨hl, hts⟩ h).1.1

theorem argument (hk : Kept token Q) (hts : ∀ t ∈ ts, token t)
    (h : (argument stop ts).view = .ok (e, us)) : Q e := by
  rw [view_argument, andThen_eq_ok] at h
  obtain ⟨first, vs, hf, h⟩ := h
  obtain ⟨used, -, rfl⟩ := expression_used hf
  exact hk.loop (view_factors stop) (List.forall_mem_append.1 hts).2 (hk.expression hts hf) h

theorem arguments (hk : Kept token Q) (hts : ∀ t ∈ ts, token t)
    (h : (arguments stop ts).view = .ok (e, us)) : Q e := by
  cases hg : startsWith isGroup ts with
  | false =>
    rw [view_arguments_of_not_group stop hg] at h
    exact hk.argument hts h
  | true =>
    match ts, hg with
    | .operand node function range :: ts, hg =>
      rw [view_arguments_group stop hg] at h
      simp only [Except.ok.injEq, Prod.mk.injEq] at h
      obtain ⟨rfl, rfl⟩ := h
      exact hk.group _ _ _ (List.forall_mem_cons.1 hts).1 hg

theorem items (hk : Kept token Q) (hts : ∀ t ∈ ts, token t) {es : List Placed}
    (h : (items stop ts).view = .ok (es, us)) : ∀ e ∈ es, Q e := by
  have key := readsItems_of_view stop h
  clear h
  induction key with
  | last he => exact List.forall_mem_singleton.2 (hk.expression hts he)
  | more he _ _ ih =>
    obtain ⟨used, -, rfl⟩ := expression_used he
    have hus := (List.forall_mem_append.1 hts).2
    exact List.forall_mem_cons.2
      ⟨hk.expression hts he, ih fun t ht => hus t (List.mem_of_mem_tail ht)⟩

/-- What any reader returns. -/
theorem returns (hk : Kept token Q) {r : Reader} (hts : ∀ t ∈ ts, token t) (hr : r.Given Q)
    (h : Returns stop r ts e) : Q e := by
  cases h with
  | expression h => exact hk.expression hts h
  | operand h => exact hk.derives (operand_derives h) hts
  | arguments h => exact hk.arguments hts h
  | argument h => exact hk.argument hts h
  | factors h => exact hk.loop (view_factors stop) hts hr h
  | suffixes h => exact hk.loop (view_suffixes stop _) hts hr h
  | items h he => exact hk.items hts h e he

/-- A call keeps what its caller was given. -/
theorem calls (hk : Kept token Q) {r s : Reader} (hts : ∀ t ∈ ts, token t) (hr : r.Given Q)
    (h : Calls stop r ts s us) : (∀ t ∈ us, token t) ∧ s.Given Q := by
  obtain ⟨used, hu⟩ := h.exists_used
  refine ⟨by rw [hu] at hts; exact (List.forall_mem_append.1 hts).2, ?_⟩
  cases h with
  | suffixes h => exact hk.derives (operand_derives h) hts
  | factors h => exact hk.expression hts h
  | absorb _ h => exact hk.suffix hts h hr
  | loop _ h => exact hk.suffix hts h hr
  | _ => trivial

/-- **All calls.**  What the grammar keeps holds, at every call that a reader comes to, of the tokens, of
what the call is given, and of what it returns. -/
theorem callsFrom (hk : Kept token Q) {r s : Reader} (hts : ∀ t ∈ ts, token t) (hr : r.Given Q)
    (h : CallsFrom stop r ts s us) :
    (∀ t ∈ us, token t) ∧ s.Given Q ∧ ∀ e, Returns stop s us e → Q e := by
  have key : (∀ t ∈ us, token t) ∧ s.Given Q := by
    induction h with
    | itself => exact ⟨hts, hr⟩
    | step _ hc ih => exact hk.calls ih.1 ih.2 hc
  exact ⟨key.1, key.2, fun e he => hk.returns key.1 key.2 he⟩

end Kept

/-- A suffix is only read where there is a token. -/
theorem Calls.suffix_ne_nil {r : Reader} (h : Calls stop r ts .suffix us) : us ≠ [] := by
  rintro rfl
  cases h with
  | beside h => cases h
  | goesOn h => cases h

end

end PlanarMath.Grammar
