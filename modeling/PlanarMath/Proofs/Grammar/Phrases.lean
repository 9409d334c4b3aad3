import PlanarMath.Proofs.Grammar.Steps

/-!
# The grammar of rows

What a row of tokens can be, independently of how it is read.  `Derives p ts us e` says that the tokens
`ts` start with a phrase of kind `p`, that `us` are the tokens after it, and that `e` is the expression
that the phrase stands for.

    relation  ->  sum  |  sum (= < > ≤ ≥) relation
    sum       ->  product  |  sum (+ -) product
    product   ->  factor  |  product (* × ·) factor  |  product (÷ /) factor
               |  product factor                       the factor starts with an operand
    factor    ->  + factor  |  - factor  |  atom  |  name inverse? argument
    argument  ->  factor  |  argument factor           the factor starts with a plain operand
    atom      ->  plain operand  |  name inverse? group  |  atom !  |  atom superscript

The grammar is ambiguous in one place: a plain operand after an argument may belong to it or not.  In a
greedy derivation it always does, so there no argument is followed by a plain operand.
-/

namespace PlanarMath.Grammar

/-- A kind of phrase. -/
inductive Phrase where
  | relation
  | sum
  | product
  | factor
  | argument
  | atom
  deriving DecidableEq

/-- The function that a name and what is raised after it call: the function itself, or its inverse when
minus one is raised. -/
inductive Target (name : Placed) (named : Range) : List Token → List Token → Placed → Prop
  | itself (ts : List Token) : Target name named ts ts name
  | inverse {exponent : Placed} (raised : Range) (ts : List Token) :
      exponent.expr.isMinusOne → Target name named (.superscript exponent raised :: ts) ts
        (name.inverse named raised)

/-- Derivations, where a group is an operand of a class of its own; `greedy` ones give an argument all plain
operands that follow it. -/
inductive DerivesWith (group : Token → Bool) (greedy : Bool) : Phrase → List Token → List Token → Placed → Prop
  | ofSum {ts us e} : DerivesWith group greedy .sum ts us e → DerivesWith group greedy .relation ts us e
  | relation {ts us vs l r c sign op} :
      DerivesWith group greedy .sum ts (.glyph c sign :: us) l → roleOf c = .relation op →
      DerivesWith group greedy .relation us vs r → DerivesWith group greedy .relation ts vs (l.pair op r sign)
  | ofProduct {ts us e} : DerivesWith group greedy .product ts us e → DerivesWith group greedy .sum ts us e
  | addition {ts us vs l r c sign} :
      DerivesWith group greedy .sum ts (.glyph c sign :: us) l → roleOf c = .plus →
      DerivesWith group greedy .product us vs r → DerivesWith group greedy .sum ts vs (l.join .add r (some sign))
  | subtraction {ts us vs l r c sign} :
      DerivesWith group greedy .sum ts (.glyph c sign :: us) l → roleOf c = .minus →
      DerivesWith group greedy .product us vs r →
      DerivesWith group greedy .sum ts vs (l.join .add (r.negate sign) (some sign))
  | ofFactor {ts us e} : DerivesWith group greedy .factor ts us e → DerivesWith group greedy .product ts us e
  | multiplication {ts us vs l r c sign} :
      DerivesWith group greedy .product ts (.glyph c sign :: us) l → roleOf c = .times →
      DerivesWith group greedy .factor us vs r →
        DerivesWith group greedy .product ts vs (l.join .multiply r (some sign))
  | division {ts us vs l r c sign} :
      DerivesWith group greedy .product ts (.glyph c sign :: us) l → roleOf c = .divide →
      DerivesWith group greedy .factor us vs r → DerivesWith group greedy .product ts vs (l.pair .divide r sign)
  | juxtaposition {ts us vs l r} :
      DerivesWith group greedy .product ts us l → startsWith isOperand us →
      DerivesWith group greedy .factor us vs r → DerivesWith group greedy .product ts vs (l.join .multiply r none)
  | ofAtom {ts us e} : DerivesWith group greedy .atom ts us e → DerivesWith group greedy .factor ts us e
  | positive {ts us e c sign} :
      roleOf c = .plus → DerivesWith group greedy .factor ts us e →
      DerivesWith group greedy .factor (.glyph c sign :: ts) us e
  | negative {ts us e c sign} :
      roleOf c = .minus → DerivesWith group greedy .factor ts us e →
      DerivesWith group greedy .factor (.glyph c sign :: ts) us (e.negate sign)
  | call {ts us vs name named t args} :
      Target name named ts us t → startsWith group us = false → DerivesWith group greedy .argument us vs args →
      (greedy → startsWith Token.isPlainOperand vs = false) →
      DerivesWith group greedy .factor (.operand name true named :: ts) vs (t.apply args)
  | ofFirst {ts us e} : DerivesWith group greedy .factor ts us e → DerivesWith group greedy .argument ts us e
  | absorption {ts us vs l r} :
      DerivesWith group greedy .argument ts us l → startsWith Token.isPlainOperand us →
      DerivesWith group greedy .factor us vs r → DerivesWith group greedy .argument ts vs (l.join .multiply r none)
  | operand {node range ts} : DerivesWith group greedy .atom (.operand node false range :: ts) ts node
  | groupCall {ts us name named t args function range} :
      Target name named ts (.operand args function range :: us) t → group (.operand args function range) →
      DerivesWith group greedy .atom (.operand name true named :: ts) us (t.apply args)
  | factorial {ts us e c sign} :
      DerivesWith group greedy .atom ts (.glyph c sign :: us) e → roleOf c = .factorial →
      DerivesWith group greedy .atom ts us (e.factorial sign)
  | power {ts us e exponent raised} :
      DerivesWith group greedy .atom ts (.superscript exponent raised :: us) e →
      DerivesWith group greedy .atom ts us (e.power exponent raised)

/-- Derivations in which every operand that is a parenthesised group can stand as the arguments of a name. -/
abbrev Derives (greedy : Bool) : Phrase → List Token → List Token → Placed → Prop := DerivesWith isGroup greedy

/-- Relations with commas between them that take up all tokens. -/
inductive Lists (greedy : Bool) : List Token → List Placed → Prop
  | last {ts e} : Derives greedy .relation ts [] e → Lists greedy ts [e]
  | more {ts us e es c range} :
      Derives greedy .relation ts (.glyph c range :: us) e → roleOf c = .comma → Lists greedy us es →
      Lists greedy ts (e :: es)

/-! ## Derivations take tokens from the front -/

theorem Target.exists_used {name : Placed} {named : Range} {ts us : List Token} {t : Placed}
    (h : Target name named ts us t) : ∃ used, ts = used ++ us := by
  cases h with
  | itself => exact ⟨[], rfl⟩
  | inverse raised ts hx => exact ⟨[_], rfl⟩

theorem Target.length_le {name : Placed} {named : Range} {ts us : List Token} {t : Placed}
    (h : Target name named ts us t) : us.length ≤ ts.length := by
  obtain ⟨used, rfl⟩ := h.exists_used
  simp

/-- The tokens of a phrase are the first ones, and there is at least one. -/
theorem DerivesWith.exists_used {group : Token → Bool} {greedy : Bool} {p : Phrase} {ts us : List Token}
    {e : Placed} (h : DerivesWith group greedy p ts us e) : ∃ used, used ≠ [] ∧ ts = used ++ us := by
  -- the tokens of a phrase, of its sign and of the phrase after it
  have join : ∀ {ts us vs : List Token} (s : List Token), (∃ used, used ≠ [] ∧ ts = used ++ (s ++ us)) →
      (∃ used, used ≠ [] ∧ us = used ++ vs) → ∃ used, used ≠ [] ∧ ts = used ++ vs := by
    rintro ts us vs s ⟨used, hne, rfl⟩ ⟨used', -, rfl⟩
    exact ⟨used ++ (s ++ used'), by simp [hne], by simp⟩
  induction h with
  | relation _ _ _ ihl ihr => exact join [_] ihl ihr
  | addition _ _ _ ihl ihr => exact join [_] ihl ihr
  | subtraction _ _ _ ihl ihr => exact join [_] ihl ihr
  | multiplication _ _ _ ihl ihr => exact join [_] ihl ihr
  | division _ _ _ ihl ihr => exact join [_] ihl ihr
  | juxtaposition _ _ _ ihl ihr => exact join [] ihl ihr
  | absorption _ _ _ ihl ihr => exact join [] ihl ihr
  | ofSum _ ih => exact ih
  | ofProduct _ ih => exact ih
  | ofFactor _ ih => exact ih
  | ofAtom _ ih => exact ih
  | ofFirst _ ih => exact ih
  | positive _ _ ih => obtain ⟨used, -, rfl⟩ := ih; exact ⟨_ :: used, by simp, rfl⟩
  | negative _ _ ih => obtain ⟨used, -, rfl⟩ := ih; exact ⟨_ :: used, by simp, rfl⟩
  | call ht _ _ _ ih =>
    obtain ⟨raised, rfl⟩ := ht.exists_used
    obtain ⟨used, -, rfl⟩ := ih
    exact ⟨_ :: (raised ++ used), by simp, congrArg (_ :: ·) (List.append_assoc raised used _).symm⟩
  | operand => exact ⟨[_], by simp, rfl⟩
  | groupCall ht =>
    obtain ⟨raised, rfl⟩ := ht.exists_used
    exact ⟨_ :: (raised ++ [_]), by simp, congrArg (_ :: ·) (List.append_assoc raised [_] _).symm⟩
  | factorial _ _ ih =>
    obtain ⟨used, -, rfl⟩ := ih
    exact ⟨used ++ [_], by simp, (List.append_assoc used [_] _).symm⟩
  | power _ ih =>
    obtain ⟨used, -, rfl⟩ := ih
    exact ⟨used ++ [_], by simp, (List.append_assoc used [_] _).symm⟩

theorem view_target_eq_ok {name : Placed} {named : Range} {ts us : List Token} {t : Placed}
    (h : (target name named ts).view = .ok (t, us)) : Target name named ts us t := by
  cases hs : startsWith isSuperscript ts with
  | false =>
    rw [view_target_of_not_superscript name named hs] at h
    simp only [Except.ok.injEq, Prod.mk.injEq] at h
    obtain ⟨rfl, rfl⟩ := h
    exact .itself _
  | true =>
    match ts, hs with
    | .superscript exponent raised :: ts, _ =>
      rw [view_target_superscript] at h
      split at h
      · next hx =>
        simp only [Except.ok.injEq, Prod.mk.injEq] at h
        obtain ⟨rfl, rfl⟩ := h
        exact .inverse raised _ hx
      · cases h

/-- What follows a target of a call is no superscript, so the reader takes the same one. -/
theorem Target.view {name : Placed} {named : Range} {ts us : List Token} {t : Placed}
    (h : Target name named ts us t) (hu : startsWith isSuperscript us = false) :
    (target name named ts).view = .ok (t, us) := by
  cases h with
  | itself => exact view_target_of_not_superscript name named hu
  | inverse raised ts hx => rw [view_target_superscript, if_pos hx]

end PlanarMath.Grammar
