import PlanarMath.Proofs.Grammar.Kept

/-!
# Which operands can be groups

The readers take any operand that is a parenthesised group for the arguments of a name, whether or not it is
marked as a name itself.  Under the stricter rule that only a plain operand can be one, fewer rows are phrases:
none ends in the name of a function (`exists_last`).  The two rules agree where every group is a plain operand
(`derivesWith_iff_of_eq`).

    sin [x + 1]        a call under both rules            [x + 1] a plain operand
    sin [x + 1]        a call under the looser one only   [x + 1] marked as a name
-/

namespace PlanarMath.Grammar

/-- An operand that is a parenthesised group, and not the name of a function. -/
def isPlainGroup (t : Token) : Bool := isGroup t && t.isPlainOperand

/-- An operand that is the name of a function. -/
def isName : Token → Bool
  | .operand _ function _ => function
  | _ => false

section
variable {group other : Token → Bool} {greedy : Bool} {p : Phrase} {ts us : List Token} {e : Placed}

theorem startsWith_eq_of_forall {P Q : Token → Bool} (h : ∀ t ∈ ts, P t = Q t) : startsWith P ts = startsWith Q ts := by
  cases ts with
  | nil => rfl
  | cons t ts => exact h t List.mem_cons_self

/-- A phrase under one rule is a phrase under another that takes the same of its tokens for groups. -/
theorem DerivesWith.congr (h : DerivesWith group greedy p ts us e) (hts : ∀ t ∈ ts, group t = other t) :
    DerivesWith other greedy p ts us e := by
  induction h with
  | ofSum _ ih => exact .ofSum (ih hts)
  | relation hl hc _ ihl ihr => exact .relation (ihl hts) hc (ihr (hl.forall_mem_behind hts))
  | ofProduct _ ih => exact .ofProduct (ih hts)
  | addition hl hc _ ihl ihr => exact .addition (ihl hts) hc (ihr (hl.forall_mem_behind hts))
  | subtraction hl hc _ ihl ihr => exact .subtraction (ihl hts) hc (ihr (hl.forall_mem_behind hts))
  | ofFactor _ ih => exact .ofFactor (ih hts)
  | multiplication hl hc _ ihl ihr => exact .multiplication (ihl hts) hc (ihr (hl.forall_mem_behind hts))
  | division hl hc _ ihl ihr => exact .division (ihl hts) hc (ihr (hl.forall_mem_behind hts))
  | juxtaposition hl ho _ ihl ihr => exact .juxtaposition (ihl hts) ho (ihr (hl.forall_mem hts))
  | ofAtom _ ih => exact .ofAtom (ih hts)
  | positive hc _ ih => exact .positive hc (ih (List.forall_mem_cons.1 hts).2)
  | negative hc _ ih => exact .negative hc (ih (List.forall_mem_cons.1 hts).2)
  | call ht hg _ hp ih =>
    have hus := ht.forall_mem (List.forall_mem_cons.1 hts).2
    exact .call ht ((startsWith_eq_of_forall hus).symm.trans hg) (ih hus) hp
  | ofFirst _ ih => exact .ofFirst (ih hts)
  | absorption hl hp _ ihl ihr => exact .absorption (ihl hts) hp (ihr (hl.forall_mem hts))
  | operand => exact .operand
  | groupCall ht hg =>
    have hgroup := (List.forall_mem_cons.1 (ht.forall_mem (List.forall_mem_cons.1 hts).2)).1
    exact .groupCall ht (hgroup ▸ hg)
  | factorial _ hc ih => exact .factorial (ih hts) hc
  | power _ ih => exact .power (ih hts)

theorem derivesWith_iff_of_eq (hts : ∀ t ∈ ts, group t = other t) :
    DerivesWith group greedy p ts us e ↔ DerivesWith other greedy p ts us e :=
  ⟨fun h => h.congr hts, fun h => h.congr fun t ht => (hts t ht).symm⟩

/-- Where only plain operands are groups, the last token of a phrase is not the name of a function: a name is
followed by its arguments. -/
theorem DerivesWith.exists_last (h : DerivesWith isPlainGroup greedy p ts us e) :
    ∃ used t, ts = used ++ t :: us ∧ isName t = false := by
  -- what stands before a phrase, and a sign between, do not matter
  have behind : ∀ {ts us vs : List Token} (s : List Token), (∃ used, used ≠ [] ∧ ts = used ++ (s ++ us)) →
      (∃ used t, us = used ++ t :: vs ∧ isName t = false) → ∃ used t, ts = used ++ t :: vs ∧ isName t = false := by
    rintro ts us vs s ⟨used, -, rfl⟩ ⟨used', t, rfl, ht⟩
    exact ⟨used ++ (s ++ used'), t, by simp, ht⟩
  induction h with
  | ofSum _ ih => exact ih
  | ofProduct _ ih => exact ih
  | ofFactor _ ih => exact ih
  | ofAtom _ ih => exact ih
  | ofFirst _ ih => exact ih
  | relation hl _ _ _ ih => exact behind [_] hl.exists_used ih
  | addition hl _ _ _ ih => exact behind [_] hl.exists_used ih
  | subtraction hl _ _ _ ih => exact behind [_] hl.exists_used ih
  | multiplication hl _ _ _ ih => exact behind [_] hl.exists_used ih
  | division hl _ _ _ ih => exact behind [_] hl.exists_used ih
  | juxtaposition hl _ _ _ ih => exact behind [] hl.exists_used ih
  | absorption hl _ _ _ ih => exact behind [] hl.exists_used ih
  | positive _ _ ih => exact behind [] ⟨[_], List.cons_ne_nil _ _, rfl⟩ ih
  | negative _ _ ih => exact behind [] ⟨[_], List.cons_ne_nil _ _, rfl⟩ ih
  | call ht _ _ _ ih =>
    obtain ⟨used, rfl⟩ := ht.exists_used
    exact behind [] ⟨_ :: used, List.cons_ne_nil _ _, rfl⟩ ih
  | operand => exact ⟨[], _, rfl, rfl⟩
  | @groupCall ts us name named t args function range ht hg =>
    obtain ⟨used, rfl⟩ := ht.exists_used
    refine ⟨_ :: used, .operand args function range, rfl, ?_⟩
    simpa [isName, isPlainGroup, Token.isPlainOperand] using (Bool.and_eq_true_iff.1 hg).2
  | factorial h _ _ =>
    obtain ⟨used, -, rfl⟩ := h.exists_used
    exact ⟨used, _, rfl, rfl⟩
  | power h _ =>
    obtain ⟨used, -, rfl⟩ := h.exists_used
    exact ⟨used, _, rfl, rfl⟩

end

end PlanarMath.Grammar
