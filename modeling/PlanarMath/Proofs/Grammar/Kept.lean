import PlanarMath.Proofs.Grammar.Soundness

/-!
# What derivations keep

A property of expressions that holds of the operands of a row, and that every construction of the grammar
keeps, holds of all that is read from the row.  The phrase that an expression was read as does not matter
here, so the rules of the grammar come down to seven constructions (`Kept`).
-/

namespace PlanarMath.Grammar

/-- A property of tokens and one of expressions, the second of which holds of plain operands and groups
and is kept by the constructions of the grammar. -/
structure Kept (token : Token → Prop) (Q : Placed → Prop) : Prop where
  operand : ∀ node range, token (.operand node false range) → Q node
  group : ∀ node function range, token (.operand node function range) → node.expr.isTuple → Q node
  call : ∀ name named args, token (.operand name true named) → Q args → Q (name.apply args)
  inverseCall : ∀ name named raised args, token (.operand name true named) → Q args →
    Q ((name.inverse named raised).apply args)
  join : ∀ op l r sign?, op = .add ∨ op = .multiply → Q l → Q r → Q (l.join op r sign?)
  pair : ∀ op l r sign, op = .divide ∨ op.isRelation → Q l → Q r → Q (l.pair op r sign)
  negate : ∀ e sign, Q e → Q (e.negate sign)
  power : ∀ e exponent raised, token (.superscript exponent raised) → Q e → Q (e.power exponent raised)
  factorial : ∀ e sign, Q e → Q (e.factorial sign)

/-- Only the sign of a relation has the role of one. -/
theorem isRelation_of_roleOf {c : Char} {op : BinaryOp} (h : roleOf c = .relation op) :
    op.isRelation := by
  unfold roleOf at h
  split at h <;> cases h <;> rfl

theorem Target.forall_mem {P : Token → Prop} {name : Placed} {named : Range} {ts us : List Token}
    {t : Placed} (h : Target name named ts us t) (hts : ∀ x ∈ ts, P x) : ∀ x ∈ us, P x := by
  obtain ⟨used, rfl⟩ := h.exists_used
  exact (List.forall_mem_append.1 hts).2

theorem DerivesWith.forall_mem {group : Token → Bool} {P : Token → Prop} {greedy : Bool} {p : Phrase}
    {ts us : List Token} {e : Placed} (h : DerivesWith group greedy p ts us e) (hts : ∀ x ∈ ts, P x) :
    ∀ x ∈ us, P x := by
  obtain ⟨used, -, rfl⟩ := h.exists_used
  exact (List.forall_mem_append.1 hts).2

/-- What holds of tokens holds of those behind a phrase and the sign after it. -/
theorem DerivesWith.forall_mem_behind {group : Token → Bool} {P : Token → Prop} {greedy : Bool} {p : Phrase}
    {t : Token} {ts us : List Token} {e : Placed} (h : DerivesWith group greedy p ts (t :: us) e)
    (hts : ∀ x ∈ ts, P x) : ∀ x ∈ us, P x := (List.forall_mem_cons.1 (h.forall_mem hts)).2

namespace Kept

variable {token : Token → Prop} {Q : Placed → Prop}

/-- A call of what a name and the superscript after it stand for. -/
theorem target (hk : Kept token Q) {name : Placed} {named : Range} {ts us : List Token}
    {t args : Placed} (hname : token (.operand name true named)) (ht : Target name named ts us t)
    (hargs : Q args) : Q (t.apply args) := by
  cases ht with
  | itself => exact hk.call name named args hname hargs
  | inverse raised ts hx => exact hk.inverseCall name named raised args hname hargs

theorem derives (hk : Kept token Q) {greedy : Bool} {p : Phrase} {ts us : List Token} {e : Placed}
    (h : Derives greedy p ts us e) (hts : ∀ t ∈ ts, token t) : Q e := by
  induction h with
  | ofSum _ ih => exact ih hts
  | ofProduct _ ih => exact ih hts
  | ofFactor _ ih => exact ih hts
  | ofAtom _ ih => exact ih hts
  | ofFirst _ ih => exact ih hts
  | relation hl hc _ ihl ihr =>
    exact hk.pair _ _ _ _ (.inr (isRelation_of_roleOf hc)) (ihl hts) (ihr (hl.forall_mem_behind hts))
  | addition hl _ _ ihl ihr =>
    exact hk.join _ _ _ _ (.inl rfl) (ihl hts) (ihr (hl.forall_mem_behind hts))
  | subtraction hl _ _ ihl ihr =>
    exact hk.join _ _ _ _ (.inl rfl) (ihl hts) (hk.negate _ _ (ihr (hl.forall_mem_behind hts)))
  | multiplication hl _ _ ihl ihr =>
    exact hk.join _ _ _ _ (.inr rfl) (ihl hts) (ihr (hl.forall_mem_behind hts))
  | division hl _ _ ihl ihr =>
    exact hk.pair _ _ _ _ (.inl rfl) (ihl hts) (ihr (hl.forall_mem_behind hts))
  | juxtaposition hl _ _ ihl ihr =>
    exact hk.join _ _ _ _ (.inr rfl) (ihl hts) (ihr (hl.forall_mem hts))
  | absorption hl _ _ ihl ihr =>
    exact hk.join _ _ _ _ (.inr rfl) (ihl hts) (ihr (hl.forall_mem hts))
  | positive _ _ ih => exact ih (List.forall_mem_cons.1 hts).2
  | negative _ _ ih => exact hk.negate _ _ (ih (List.forall_mem_cons.1 hts).2)
  | call ht _ _ _ ih =>
    obtain ⟨hname, hts⟩ := List.forall_mem_cons.1 hts
    exact hk.target hname ht (ih (ht.forall_mem hts))
  | operand => exact hk.operand _ _ (List.forall_mem_cons.1 hts).1
  | groupCall ht hg =>
    obtain ⟨hname, hts⟩ := List.forall_mem_cons.1 hts
    exact hk.target hname ht (hk.group _ _ _ (List.forall_mem_cons.1 (ht.forall_mem hts)).1 hg)
  | factorial _ _ ih => exact hk.factorial _ _ (ih hts)
  | power h ih => exact hk.power _ _ _ (List.forall_mem_cons.1 (h.forall_mem hts)).1 (ih hts)

theorem lists (hk : Kept token Q) {greedy : Bool} {ts : List Token} {es : List Placed}
    (h : Lists greedy ts es) (hts : ∀ t ∈ ts, token t) : ∀ e ∈ es, Q e := by
  induction h with
  | last h => exact List.forall_mem_singleton.2 (hk.derives h hts)
  | more h _ _ ih =>
    exact List.forall_mem_cons.2
      ⟨hk.derives h hts, ih (h.forall_mem_behind hts)⟩

end Kept

/-- A list of phrases has at least one. -/
theorem Lists.ne_nil {greedy : Bool} {ts : List Token} {es : List Placed} (h : Lists greedy ts es) :
    es ≠ [] := by
  cases h <;> exact List.cons_ne_nil _ _

end PlanarMath.Grammar
