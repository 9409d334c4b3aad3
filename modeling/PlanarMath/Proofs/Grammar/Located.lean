import PlanarMath.Proofs.Grammar.Kept

/-!
# Where derivations take their expressions from

A phrase is made of neighbouring tokens, so its expression comes from an interval of the layout, and the
phrases that a rule puts together come from intervals one after another.  A property of an expression and
an interval that every construction of the grammar keeps (`Located`) holds of all that is read from tokens
in their order.

    InOrder i ts j         the tokens lie between `i` and `j`, each behind the one before it
    Located token Q        `Q i j e` is kept when an interval is put together from its parts
-/

namespace PlanarMath.Grammar

/-! ## Tokens in order -/

/-- Tokens between two indices, each of which starts where the one before it stops, or later. -/
def InOrder : Nat → List Token → Nat → Prop
  | i, [], j => i ≤ j
  | i, t :: ts, j => i ≤ t.range.start ∧ InOrder t.range.stop ts j

theorem InOrder.le {i j : Nat} {ts : List Token} (h : InOrder i ts j) : i ≤ j := by
  induction ts generalizing i with
  | nil => exact h
  | cons t ts ih =>
    have hstart := h.1
    have hstop := ih h.2
    have := t.range.start_le_stop
    omega

theorem InOrder.mono {i i' j : Nat} {ts : List Token} (hi : i' ≤ i) (h : InOrder i ts j) :
    InOrder i' ts j := by
  cases ts with
  | nil => exact Nat.le_trans hi h
  | cons t ts => exact ⟨Nat.le_trans hi h.1, h.2⟩

/-- Tokens that are left out leave the others in order. -/
theorem InOrder.filter {i j : Nat} {ts : List Token} (p : Token → Bool) (h : InOrder i ts j) :
    InOrder i (ts.filter p) j := by
  induction ts generalizing i with
  | nil => exact h
  | cons t ts ih =>
    have hrest := ih h.2
    rw [List.filter_cons]
    split
    · exact ⟨h.1, hrest⟩
    · have := t.range.start_le_stop
      exact hrest.mono (Nat.le_trans h.1 this)

/-- Expressions from intervals one after another. -/
def Spread (Q : Nat → Nat → Placed → Prop) : Nat → List Placed → Nat → Prop
  | i, [], j => i ≤ j
  | i, e :: es, j => ∃ k, Q i k e ∧ Spread Q k es j

theorem Spread.le {Q : Nat → Nat → Placed → Prop} (hq : ∀ i j e, Q i j e → i ≤ j) {i j : Nat}
    {es : List Placed} (h : Spread Q i es j) : i ≤ j := by
  induction es generalizing i with
  | nil => exact h
  | cons e es ih =>
    obtain ⟨k, he, hes⟩ := h
    exact Nat.le_trans (hq i k e he) (ih hes)

/-! ## Signs -/

/-- The operator that a glyph stands for between two expressions. -/
def Role.operator? : Role → Option BinaryOp
  | .plus | .minus => some .add
  | .times => some .multiply
  | .divide => some .divide
  | .relation op => some op
  | .factorial | .comma | .plain => none

/-- The sign of an operator between two expressions: a glyph that stands for it, or none where a product
is written side by side. -/
inductive Sign (token : Token → Prop) : BinaryOp → Option Range → Prop
  | written {c sign op} :
      token (.glyph c sign) → (roleOf c).operator? = some op → Sign token op (some sign)
  | unwritten : Sign token .multiply none

/-- A property of expressions and the intervals they come from, kept by the constructions of the grammar. -/
structure Located (token : Token → Prop) (Q : Nat → Nat → Placed → Prop) : Prop where
  mono : ∀ i i' j j' e, i' ≤ i → j ≤ j' → Q i j e → Q i' j' e
  operand : ∀ node function range, token (.operand node function range) → Q range.start range.stop node
  inverse : ∀ name named exponent raised, token (.superscript exponent raised) →
    Q named.start named.stop name → named.stop ≤ raised.start →
    Q named.start raised.stop (name.inverse named raised)
  call : ∀ i k j target args, Q i k target → Q k j args → Q i j (target.apply args)
  join : ∀ i k j op l r sign?, op = .add ∨ op = .multiply → Sign token op sign? → Q i k l → Q k j r →
    Q i j (l.join op r sign?)
  pair : ∀ i k j op l r c sign, op = .divide ∨ op.isRelation → token (.glyph c sign) →
    (roleOf c).operator? = some op → Q i k l → Q k j r → Q i j (l.pair op r sign)
  negate : ∀ i j e c sign, token (.glyph c sign) → roleOf c = .minus → sign.stop ≤ i → Q i j e →
    Q sign.start j (e.negate sign)
  power : ∀ i j e exponent raised, token (.superscript exponent raised) → Q i j e → j ≤ raised.start →
    Q i raised.stop (e.power exponent raised)
  factorial : ∀ i j e c sign, token (.glyph c sign) → roleOf c = .factorial → Q i j e →
    j ≤ sign.start → Q i sign.stop (e.factorial sign)

namespace Located

variable {token : Token → Prop} {Q : Nat → Nat → Placed → Prop}

/-- The interval of a target starts where its name starts. -/
theorem target (hl : Located token Q) {name : Placed} {named : Range} {ts us : List Token} {t : Placed}
    {j : Nat} (h : Target name named ts us t) (hname : token (.operand name true named))
    (hts : ∀ t ∈ ts, token t) (ho : InOrder named.stop ts j) :
    ∃ k, Q named.start k t ∧ InOrder k us j := by
  have hn := hl.operand name true named hname
  cases h with
  | itself => exact ⟨named.stop, hn, ho⟩
  | @inverse exponent raised _ hx =>
    have hraised := (List.forall_mem_cons.1 hts).1
    exact ⟨raised.stop, hl.inverse name named exponent raised hraised hn ho.1, ho.2⟩

/-- What is left behind an expression starts with a token, so the interval of the expression ends there. -/
theorem before (hl : Located token Q) {i j : Nat} {e : Placed} {t : Token} {us : List Token}
    (h : ∃ k, Q i k e ∧ InOrder k (t :: us) j) : Q i t.range.start e ∧ InOrder t.range.stop us j := by
  obtain ⟨k, he, hk, ho⟩ := h
  exact ⟨hl.mono _ _ _ _ e (Nat.le_refl _) hk he, ho⟩

/-- What is behind a sign may as well be taken from the start of the sign. -/
theorem behind (hl : Located token Q) {sign : Range} {j : Nat} {e : Placed} (h : Q sign.stop j e) :
    Q sign.start j e := hl.mono _ _ _ _ e sign.start_le_stop (Nat.le_refl _) h

/-- A sign between two expressions, which come from the intervals before and behind it. -/
theorem around (hl : Located token Q) {greedy : Bool} {p : Phrase} {ts us vs : List Token} {c : Char}
    {sign : Range} {l r : Placed} {i j : Nat} (hd : Derives greedy p ts (.glyph c sign :: us) l)
    (hts : ∀ t ∈ ts, token t) (hleft : ∃ k, Q i k l ∧ InOrder k (.glyph c sign :: us) j)
    (hright : ∀ {i}, (∀ t ∈ us, token t) → InOrder i us j → ∃ k, Q i k r ∧ InOrder k vs j) :
    token (.glyph c sign) ∧ Q i sign.start l ∧ ∃ k, Q sign.stop k r ∧ InOrder k vs j := by
  obtain ⟨hbefore, ho⟩ := hl.before hleft
  obtain ⟨hsign, hus⟩ := List.forall_mem_cons.1 (hd.forall_mem hts)
  exact ⟨hsign, hbefore, hright hus ho⟩

/-- **Located expressions.**  The tokens of a phrase and those behind it are in order, so the interval of
the phrase ends before the tokens that are left. -/
theorem derives (hl : Located token Q) {greedy : Bool} {p : Phrase} {ts us : List Token} {e : Placed}
    (h : Derives greedy p ts us e) {i j : Nat} (hts : ∀ t ∈ ts, token t) (ho : InOrder i ts j) :
    ∃ k, Q i k e ∧ InOrder k us j := by
  induction h generalizing i with
  | ofSum _ ih => exact ih hts ho
  | ofProduct _ ih => exact ih hts ho
  | ofFactor _ ih => exact ih hts ho
  | ofAtom _ ih => exact ih hts ho
  | ofFirst _ ih => exact ih hts ho
  | relation hd hc _ ihl ihr =>
    obtain ⟨hsign, hleft, k, hright, ho⟩ := hl.around hd hts (ihl hts ho) ihr
    have hop := isRelation_of_roleOf hc
    exact ⟨k, hl.pair _ _ _ _ _ _ _ _ (.inr hop) hsign (by rw [hc]; rfl) hleft (hl.behind hright), ho⟩
  | addition hd hc _ ihl ihr =>
    obtain ⟨hsign, hleft, k, hright, ho⟩ := hl.around hd hts (ihl hts ho) ihr
    have hplus : Sign token .add _ := .written hsign (by rw [hc]; rfl)
    exact ⟨k, hl.join _ _ _ _ _ _ _ (.inl rfl) hplus hleft (hl.behind hright), ho⟩
  | subtraction hd hc _ ihl ihr =>
    obtain ⟨hsign, hleft, k, hright, ho⟩ := hl.around hd hts (ihl hts ho) ihr
    have hminus : Sign token .add _ := .written hsign (by rw [hc]; rfl)
    have hnegated := hl.negate _ _ _ _ _ hsign hc (Nat.le_refl _) hright
    exact ⟨k, hl.join _ _ _ _ _ _ _ (.inl rfl) hminus hleft hnegated, ho⟩
  | multiplication hd hc _ ihl ihr =>
    obtain ⟨hsign, hleft, k, hright, ho⟩ := hl.around hd hts (ihl hts ho) ihr
    have htimes : Sign token .multiply _ := .written hsign (by rw [hc]; rfl)
    exact ⟨k, hl.join _ _ _ _ _ _ _ (.inr rfl) htimes hleft (hl.behind hright), ho⟩
  | division hd hc _ ihl ihr =>
    obtain ⟨hsign, hleft, k, hright, ho⟩ := hl.around hd hts (ihl hts ho) ihr
    exact ⟨k, hl.pair _ _ _ _ _ _ _ _ (.inl rfl) hsign (by rw [hc]; rfl) hleft (hl.behind hright), ho⟩
  | juxtaposition hd _ _ ihl ihr =>
    obtain ⟨k, hleft, ho⟩ := ihl hts ho
    obtain ⟨m, hright, ho⟩ := ihr (hd.forall_mem hts) ho
    exact ⟨m, hl.join _ _ _ _ _ _ _ (.inr rfl) .unwritten hleft hright, ho⟩
  | absorption hd _ _ ihl ihr =>
    obtain ⟨k, hleft, ho⟩ := ihl hts ho
    obtain ⟨m, hright, ho⟩ := ihr (hd.forall_mem hts) ho
    exact ⟨m, hl.join _ _ _ _ _ _ _ (.inr rfl) .unwritten hleft hright, ho⟩
  | positive _ _ ih =>
    obtain ⟨k, he, hrest⟩ := ih (List.forall_mem_cons.1 hts).2 ho.2
    have hstart := Nat.le_trans ho.1 (Range.start_le_stop _)
    exact ⟨k, hl.mono _ _ _ _ _ hstart (Nat.le_refl _) he, hrest⟩
  | negative hc _ ih =>
    obtain ⟨hsign, hts⟩ := List.forall_mem_cons.1 hts
    obtain ⟨k, he, hrest⟩ := ih hts ho.2
    have hnegated := hl.negate _ _ _ _ _ hsign hc (Nat.le_refl _) he
    exact ⟨k, hl.mono _ _ _ _ _ ho.1 (Nat.le_refl _) hnegated, hrest⟩
  | call ht _ _ _ ih =>
    obtain ⟨hname, hts⟩ := List.forall_mem_cons.1 hts
    obtain ⟨k, htarget, hk⟩ := hl.target ht hname hts ho.2
    obtain ⟨m, hargs, hrest⟩ := ih (ht.forall_mem hts) hk
    have hcall := hl.call _ _ _ _ _ htarget hargs
    exact ⟨m, hl.mono _ _ _ _ _ ho.1 (Nat.le_refl _) hcall, hrest⟩
  | operand =>
    have hnode := hl.operand _ _ _ (List.forall_mem_cons.1 hts).1
    exact ⟨_, hl.mono _ _ _ _ _ ho.1 (Nat.le_refl _) hnode, ho.2⟩
  | groupCall ht =>
    obtain ⟨hname, hts⟩ := List.forall_mem_cons.1 hts
    obtain ⟨htarget, hrest⟩ := hl.before (hl.target ht hname hts ho.2)
    have hargs := hl.operand _ _ _ (List.forall_mem_cons.1 (ht.forall_mem hts)).1
    have hcall := hl.call _ _ _ _ _ htarget hargs
    exact ⟨_, hl.mono _ _ _ _ _ ho.1 (Nat.le_refl _) hcall, hrest⟩
  | factorial hd hc ih =>
    obtain ⟨k, he, hk, hrest⟩ := ih hts ho
    have hsign := (List.forall_mem_cons.1 (hd.forall_mem hts)).1
    exact ⟨_, hl.factorial _ _ _ _ _ hsign hc he hk, hrest⟩
  | power hd ih =>
    obtain ⟨k, he, hk, hrest⟩ := ih hts ho
    have hraised := (List.forall_mem_cons.1 (hd.forall_mem hts)).1
    exact ⟨_, hl.power _ _ _ _ _ hraised he hk, hrest⟩

theorem lists (hl : Located token Q) {greedy : Bool} {ts : List Token} {es : List Placed}
    (h : Lists greedy ts es) {i j : Nat} (hts : ∀ t ∈ ts, token t) (ho : InOrder i ts j) :
    Spread Q i es j := by
  induction h generalizing i with
  | last hd => exact hl.derives hd hts ho
  | more hd _ _ ih =>
    obtain ⟨he, hrest⟩ := hl.before (hl.derives hd hts ho)
    have hes := ih (hd.forall_mem_behind hts) (hrest.mono (Range.start_le_stop _))
    exact ⟨_, he, hes⟩

end Located

end PlanarMath.Grammar
