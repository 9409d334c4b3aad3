import PlanarMath.Proofs.Grammar.Phrases

/-!
# Every phrase has a greedy derivation

A derivation may leave plain operands to what follows an argument.  Moving them into the argument gives
a greedy derivation, which ends either where the first one did or after the operands that it absorbs.

    Derives false p ts us e  →  Derives true p ts us' e'    with us' = us or us' = absorb us

At the end of a row nothing is left to absorb, so both kinds of derivation exist for the same rows
(`exists_derives_iff`, `exists_lists_iff`).
-/

namespace PlanarMath.Grammar

/-- A superscript or a factorial sign, which belong to the atom before them. -/
def isAttached : Token → Bool
  | .glyph c _ => roleOf c == .factorial
  | .superscript .. => true
  | _ => false

/-- The tokens without the plain operands in front and what is attached to them; `inside` tells whether
an operand stands just before. -/
def absorb (inside : Bool) : List Token → List Token
  | [] => []
  | t :: ts => if t.isPlainOperand || (inside && isAttached t) then absorb true ts else t :: ts

/-! ## Absorbing -/

theorem absorb_of_not_plain {ts : List Token} (h : startsWith Token.isPlainOperand ts = false) :
    absorb false ts = ts := by
  cases ts with
  | nil => rfl
  | cons t ts =>
    have h : t.isPlainOperand = false := h
    simp [absorb, h]

theorem not_plain_absorb (inside : Bool) (ts : List Token) :
    startsWith Token.isPlainOperand (absorb inside ts) = false := by
  induction ts generalizing inside with
  | nil => rfl
  | cons t ts ih =>
    rw [absorb]
    split
    · exact ih true
    · next h =>
      simp only [Bool.or_eq_true, not_or, Bool.not_eq_true] at h
      exact h.1

theorem absorb_absorb (ts : List Token) : absorb false (absorb false ts) = absorb false ts :=
  absorb_of_not_plain (not_plain_absorb false ts)

theorem absorb_of_not_attached {ts : List Token} (h : startsWith isAttached ts = false) :
    absorb true ts = absorb false ts := by
  cases ts with
  | nil => rfl
  | cons t ts =>
    have h : isAttached t = false := h
    simp [absorb, h]

/-- An operand that stands first is absorbed with all that is attached to it. -/
theorem Derives.absorb_atom {greedy : Bool} {ts us : List Token} {e : Placed}
    (h : Derives greedy .atom ts us e) (hp : startsWith Token.isPlainOperand ts) :
    absorb false ts = absorb true us := by
  generalize hq : Phrase.atom = p at h
  induction h with
  | operand => rfl
  | groupCall => cases hp
  | factorial _ hc ih => rw [ih hp hq, absorb]; simp [isAttached, hc]
  | power _ ih => rw [ih hp hq, absorb]; simp [isAttached]
  | _ => cases hq

/-- An argument can be continued by all it can absorb. -/
theorem Derives.argument_absorb_atom {ts vs : List Token} :
    ∀ {us : List Token} {l r : Placed}, Derives true .argument ts us l →
      startsWith Token.isPlainOperand us → Derives true .atom us vs r →
      ∃ e, Derives true .argument ts (absorb true vs) e := by
  induction vs with
  | nil =>
    intro us l r hl hp hr
    exact ⟨_, .absorption hl hp (.ofAtom hr)⟩
  | cons t vs ih =>
    intro us l r hl hp hr
    have hnext : Derives true .argument ts (t :: vs) (l.join .multiply r none) :=
      .absorption hl hp (.ofAtom hr)
    match t with
    | .operand node false range => exact ih hnext rfl .operand
    | .operand node true range => exact ⟨_, hnext⟩
    | .superscript x range => exact ih hl hp (.power hr)
    | .subscript x range => exact ⟨_, hnext⟩
    | .glyph c range =>
      by_cases hc : roleOf c = .factorial
      · obtain ⟨e, he⟩ := ih hl hp (.factorial hr hc)
        refine ⟨e, ?_⟩
        rw [absorb]
        simpa [isAttached, hc] using he
      · refine ⟨l.join .multiply r none, ?_⟩
        rw [absorb]
        simpa [isAttached, hc, Token.isPlainOperand] using hnext

theorem Derives.argument_absorb {ts us : List Token} {e : Placed}
    (h : Derives true .argument ts us e) : ∃ e', Derives true .argument ts (absorb false us) e' := by
  cases hp : startsWith Token.isPlainOperand us with
  | false => rw [absorb_of_not_plain hp]; exact ⟨e, h⟩
  | true =>
    match us, hp with
    | .operand node false range :: us, hp => exact h.argument_absorb_atom hp .operand

/-! ## Making derivations greedy -/

/-- A greedy derivation is a derivation. -/
theorem Derives.free {p : Phrase} {ts us : List Token} {e : Placed} (h : Derives true p ts us e) :
    Derives false p ts us e := by
  induction h with
  | ofSum _ ih => exact .ofSum ih
  | relation _ hc _ ihl ihr => exact .relation ihl hc ihr
  | ofProduct _ ih => exact .ofProduct ih
  | addition _ hc _ ihl ihr => exact .addition ihl hc ihr
  | subtraction _ hc _ ihl ihr => exact .subtraction ihl hc ihr
  | ofFactor _ ih => exact .ofFactor ih
  | multiplication _ hc _ ihl ihr => exact .multiplication ihl hc ihr
  | division _ hc _ ihl ihr => exact .division ihl hc ihr
  | juxtaposition _ ho _ ihl ihr => exact .juxtaposition ihl ho ihr
  | ofAtom _ ih => exact .ofAtom ih
  | positive hc _ ih => exact .positive hc ih
  | negative hc _ ih => exact .negative hc ih
  | call ht hg _ _ ih => exact .call ht hg ih nofun
  | ofFirst _ ih => exact .ofFirst ih
  | absorption _ hp _ ihl ihr => exact .absorption ihl hp ihr
  | operand => exact .operand
  | groupCall ht hg => exact .groupCall ht hg
  | factorial _ hc ih => exact .factorial ih hc
  | power _ ih => exact .power ih

/-- Nothing is absorbed in an atom. -/
theorem Derives.greedy_atom {ts us : List Token} {e : Placed} (h : Derives false .atom ts us e) :
    Derives true .atom ts us e := by
  generalize hq : Phrase.atom = p at h
  induction h with
  | operand => exact .operand
  | groupCall ht hg => exact .groupCall ht hg
  | factorial _ hc ih => exact .factorial (ih hq) hc
  | power _ ih => exact .power (ih hq)
  | _ => cases hq

/-- A factor that starts with a plain operand is an atom. -/
theorem Derives.atom_of_plain {greedy : Bool} {ts us : List Token} {e : Placed}
    (h : Derives greedy .factor ts us e) (hp : startsWith Token.isPlainOperand ts) :
    Derives greedy .atom ts us e := by
  cases h with
  | ofAtom h => exact h
  | positive => cases hp
  | negative => cases hp
  | call => cases hp

/-- There is a greedy phrase of the same kind, which ends at the same place or after the operands that
follow there. -/
def GreedyFrom (p : Phrase) (ts us : List Token) : Prop :=
  ∃ vs e, (vs = us ∨ vs = absorb false us) ∧ Derives true p ts vs e

namespace GreedyFrom

variable {p q : Phrase} {ts us vs : List Token}

theorem map (h : GreedyFrom p ts us) (f : ∀ {vs e}, Derives true p ts vs e → Derives true q ts vs e) :
    GreedyFrom q ts us := by
  obtain ⟨ws, e, hw, he⟩ := h
  exact ⟨ws, e, hw, f he⟩

/-- Nothing is absorbed in front of a sign. -/
theorem before_glyph {c : Char} {sign : Range} (h : GreedyFrom p ts (.glyph c sign :: us)) :
    ∃ e, Derives true p ts (.glyph c sign :: us) e := by
  obtain ⟨ws, e, hw, he⟩ := h
  rw [absorb_of_not_plain rfl, or_self] at hw
  exact ⟨e, hw ▸ he⟩

/-- Either a phrase ends in front of the factor beside it, or it absorbs that factor. -/
theorem before_factor {r : Placed} (h : GreedyFrom p ts us) (hr : Derives false .factor us vs r)
    (hv : startsWith isAttached vs = false) :
    (∃ e, Derives true p ts us e) ∨ ∃ e, Derives true p ts (absorb false vs) e := by
  obtain ⟨ws, e, rfl | rfl, he⟩ := h
  · exact .inl ⟨e, he⟩
  · cases hp : startsWith Token.isPlainOperand us with
    | false => rw [absorb_of_not_plain hp] at he; exact .inl ⟨e, he⟩
    | true =>
      rw [(hr.atom_of_plain hp).absorb_atom hp, absorb_of_not_attached hv] at he
      exact .inr ⟨e, he⟩

end GreedyFrom

theorem not_attached_of_operand {ts : List Token} (h : startsWith isOperand ts) :
    startsWith isAttached ts = false := by
  match ts, h with
  | .operand .. :: ts, _ => rfl

theorem Derives.greedyFrom {p : Phrase} {ts us : List Token} {e : Placed} (h : Derives false p ts us e)
    (hu : startsWith isAttached us = false) : GreedyFrom p ts us := by
  -- a sign other than that of a factorial is not attached
  have sign : ∀ {c : Char} {r : Range} {ts : List Token}, roleOf c ≠ .factorial →
      startsWith isAttached (.glyph c r :: ts) = false := by
    intro c r ts hc
    simpa [startsWith, isAttached] using hc
  induction h with
  | ofSum _ ih => exact (ih hu).map .ofSum
  | relation _ hc _ ihl ihr =>
    obtain ⟨l, hl⟩ := (ihl (sign (by simp [hc]))).before_glyph
    obtain ⟨vs, r, hv, hr⟩ := ihr hu
    exact ⟨vs, _, hv, .relation hl hc hr⟩
  | ofProduct _ ih => exact (ih hu).map .ofProduct
  | addition _ hc _ ihl ihr =>
    obtain ⟨l, hl⟩ := (ihl (sign (by simp [hc]))).before_glyph
    obtain ⟨vs, r, hv, hr⟩ := ihr hu
    exact ⟨vs, _, hv, .addition hl hc hr⟩
  | subtraction _ hc _ ihl ihr =>
    obtain ⟨l, hl⟩ := (ihl (sign (by simp [hc]))).before_glyph
    obtain ⟨vs, r, hv, hr⟩ := ihr hu
    exact ⟨vs, _, hv, .subtraction hl hc hr⟩
  | ofFactor _ ih => exact (ih hu).map .ofFactor
  | multiplication _ hc _ ihl ihr =>
    obtain ⟨l, hl⟩ := (ihl (sign (by simp [hc]))).before_glyph
    obtain ⟨vs, r, hv, hr⟩ := ihr hu
    exact ⟨vs, _, hv, .multiplication hl hc hr⟩
  | division _ hc _ ihl ihr =>
    obtain ⟨l, hl⟩ := (ihl (sign (by simp [hc]))).before_glyph
    obtain ⟨vs, r, hv, hr⟩ := ihr hu
    exact ⟨vs, _, hv, .division hl hc hr⟩
  | juxtaposition _ ho hr ihl ihr =>
    obtain ⟨l, hl⟩ | ⟨l, hl⟩ := (ihl (not_attached_of_operand ho)).before_factor hr hu
    · obtain ⟨vs, r, hv, hr⟩ := ihr hu
      exact ⟨vs, _, hv, .juxtaposition hl ho hr⟩
    · exact ⟨_, l, .inr rfl, hl⟩
  | ofAtom h => exact ⟨_, _, .inl rfl, .ofAtom (Derives.greedy_atom h)⟩
  | positive hc _ ih =>
    obtain ⟨vs, e, hv, he⟩ := ih hu
    exact ⟨vs, _, hv, .positive hc he⟩
  | negative hc _ ih =>
    obtain ⟨vs, e, hv, he⟩ := ih hu
    exact ⟨vs, _, hv, .negative hc he⟩
  | call ht hg _ _ ih =>
    obtain ⟨vs, args, hv, ha⟩ := ih hu
    obtain ⟨args', ha'⟩ := ha.argument_absorb
    refine ⟨absorb false vs, _, ?_, .call ht hg ha' fun _ => not_plain_absorb false vs⟩
    rcases hv with rfl | rfl
    · exact .inr rfl
    · exact .inr (absorb_absorb _)
  | ofFirst _ ih => exact (ih hu).map .ofFirst
  | absorption _ hp hr ihl ihr =>
    obtain ⟨l, hl⟩ | ⟨l, hl⟩ :=
      (ihl (not_attached_of_operand (isOperand_of_plain hp))).before_factor hr hu
    · obtain ⟨vs, r, hv, hr⟩ := ihr hu
      exact ⟨vs, _, hv, .absorption hl hp hr⟩
    · exact ⟨_, l, .inr rfl, hl⟩
  | operand => exact ⟨_, _, .inl rfl, .operand⟩
  | groupCall ht hg => exact ⟨_, _, .inl rfl, .groupCall ht hg⟩
  | factorial h hc => exact ⟨_, _, .inl rfl, .factorial (Derives.greedy_atom h) hc⟩
  | power h => exact ⟨_, _, .inl rfl, .power (Derives.greedy_atom h)⟩

/-! ## Whole rows -/

/-- **One row.**  A row has a derivation exactly when it has a greedy one. -/
theorem exists_derives_iff {ts : List Token} :
    (∃ e, Derives false .relation ts [] e) ↔ ∃ e, Derives true .relation ts [] e := by
  constructor
  · rintro ⟨e, h⟩
    obtain ⟨vs, e', hv, he'⟩ := h.greedyFrom rfl
    obtain rfl : vs = [] := by simpa [absorb] using hv
    exact ⟨e', he'⟩
  · rintro ⟨e, h⟩
    exact ⟨e, h.free⟩

theorem Lists.greedy {ts : List Token} {es : List Placed} (h : Lists false ts es) :
    ∃ es', Lists true ts es' := by
  induction h with
  | last h =>
    obtain ⟨e, he⟩ := exists_derives_iff.1 ⟨_, h⟩
    exact ⟨[e], .last he⟩
  | more h hc _ ih =>
    obtain ⟨es, hes⟩ := ih
    obtain ⟨e, he⟩ := (h.greedyFrom (by simp [startsWith, isAttached, hc])).before_glyph
    exact ⟨e :: es, .more he hc hes⟩

theorem Lists.free {ts : List Token} {es : List Placed} (h : Lists true ts es) : Lists false ts es := by
  induction h with
  | last h => exact .last h.free
  | more h hc _ ih => exact .more h.free hc ih

/-- **Several with commas between them.** -/
theorem exists_lists_iff {ts : List Token} : (∃ es, Lists false ts es) ↔ ∃ es, Lists true ts es :=
  ⟨fun ⟨_, h⟩ => h.greedy, fun ⟨es, h⟩ => ⟨es, h.free⟩⟩

end PlanarMath.Grammar
