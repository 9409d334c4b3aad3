import PlanarMath.Proofs.Grammar.Agreement
import PlanarMath.Proofs.Grammar.Kept

/-!
# Phrases and plain phrases

Tokens and the plain tokens that agree with them are read alike: where one has a phrase, so has the other, of
the same kind, and the two expressions agree.

    Derives true p ts us e   →   a plain phrase of kind p that agrees with e       (Derives.hasPlain)
    Plain.Derives p as bs x  →   a phrase of kind p that agrees with x        (Plain.Derives.hasExpr)
-/

namespace PlanarMath

universe u

variable {R : Type u} [CommRing R] {ι : Interpretation R}

/-! ## From phrases to plain ones -/

namespace Grammar

open Token

/-- Atoms that agree with some tokens have a plain phrase that agrees with an expression. -/
def HasPlain (ι : Interpretation R) (p : Phrase) (ts us : List Token) (e : Placed) : Prop :=
  ∀ {as}, AllAgree ι ts as → ∃ bs x, Plain.Derives p as bs x ∧ AllAgree ι us bs ∧ e.expr.Agrees ι x

namespace HasPlain

variable {p q o : Phrase} {ts us vs : List Token} {l r e : Placed}

theorem up (h : HasPlain ι p ts us e)
    (hd : ∀ {as bs x}, Plain.Derives p as bs x → Plain.Derives q as bs x) : HasPlain ι q ts us e := by
  intro as has
  obtain ⟨bs, x, hx, hbs, he⟩ := h has
  exact ⟨bs, x, hd hx, hbs, he⟩

/-- Two phrases with a sign between them. -/
theorem signed {c : Char} {sign : Range} (hl : HasPlain ι p ts (.glyph c sign :: us) l)
    (hr : HasPlain ι q us vs r) {f : Plain → Plain → Plain}
    (hd : ∀ {as bs cs x y}, Plain.Derives p as (.glyph c :: bs) x → Plain.Derives q bs cs y →
      Plain.Derives o as cs (f x y))
    (hf : ∀ {x y}, l.expr.Agrees ι x → r.expr.Agrees ι y → e.expr.Agrees ι (f x y)) :
    HasPlain ι o ts vs e := by
  intro as has
  obtain ⟨bs, x, hx, hbs, hlx⟩ := hl has
  obtain ⟨bs, rfl, hrest⟩ := hbs.glyph_left
  obtain ⟨cs, y, hy, hcs, hry⟩ := hr hrest
  exact ⟨cs, f x y, hd hx hy, hcs, hf hlx hry⟩

/-- Two phrases side by side. -/
theorem beside {P : Token → Bool} {Q : Atom → Bool} (hPQ : ∀ {t a}, t.Agrees ι a → P t = Q a)
    (hl : HasPlain ι p ts us l) (hu : startsWith P us) (hr : HasPlain ι q us vs r)
    {f : Plain → Plain → Plain}
    (hd : ∀ {as bs cs x y}, Plain.Derives p as bs x → Atom.startsWith Q bs → Plain.Derives q bs cs y →
      Plain.Derives o as cs (f x y))
    (hf : ∀ {x y}, l.expr.Agrees ι x → r.expr.Agrees ι y → e.expr.Agrees ι (f x y)) :
    HasPlain ι o ts vs e := by
  intro as has
  obtain ⟨bs, x, hx, hbs, hlx⟩ := hl has
  obtain ⟨cs, y, hy, hcs, hry⟩ := hr hbs
  rw [hbs.startsWith hPQ] at hu
  exact ⟨cs, f x y, hd hx hu hy, hcs, hf hlx hry⟩

end HasPlain

theorem Target.exists_plain {name : Placed} {named : Range} {ts us : List Token} {t : Placed}
    (h : Target name named ts us t) {x : Plain} (hx : name.expr.Agrees ι x) {as : List Atom}
    (has : AllAgree ι ts as) :
    ∃ bs y, Plain.Target x as bs y ∧ AllAgree ι us bs ∧ t.expr.Agrees ι y := by
  cases h with
  | itself => exact ⟨as, x, .itself as, has, hx⟩
  | inverse raised ts hm =>
    obtain ⟨exponent, bs, rfl, hexponent, hrest⟩ := has.superscript_left
    rw [hexponent.isMinusOne] at hm
    exact ⟨bs, _, .inverse _ hm, hrest, hx.inverse named raised⟩

/-- **Plain phrases.**  Wherever tokens have a phrase, the plain tokens that agree with them have one. -/
theorem Derives.hasPlain {p : Phrase} {ts us : List Token} {e : Placed} (h : Derives true p ts us e) :
    HasPlain ι p ts us e := by
  induction h with
  | ofSum _ ih => exact ih.up .ofSum
  | ofProduct _ ih => exact ih.up .ofProduct
  | ofFactor _ ih => exact ih.up .ofFactor
  | ofAtom _ ih => exact ih.up .ofAtom
  | ofFirst _ ih => exact ih.up .ofFirst
  | @relation ts us vs l r c sign op _ hc _ ihl ihr =>
    exact ihl.signed ihr (fun hx hy => .relation hx hc hy)
      (fun hl hr => hl.relation hr (isRelation_of_roleOf hc) sign)
  | addition _ hc _ ihl ihr =>
    exact ihl.signed ihr (fun hx hy => .addition hx hc hy) (fun hl hr => hl.sum hr _)
  | subtraction _ hc _ ihl ihr =>
    exact ihl.signed ihr (fun hx hy => .subtraction hx hc hy) (fun hl hr => hl.difference hr _)
  | multiplication _ hc _ ihl ihr =>
    exact ihl.signed ihr (fun hx hy => .multiplication hx hc hy) (fun hl hr => hl.product hr _)
  | division _ hc _ ihl ihr =>
    exact ihl.signed ihr (fun hx hy => .division hx hc hy) (fun hl hr => hl.quotient hr _)
  | juxtaposition _ hu _ ihl ihr =>
    exact ihl.beside Agrees.isOperand hu ihr .juxtaposition (fun hl hr => hl.product hr none)
  | absorption _ hu _ ihl ihr =>
    exact ihl.beside Agrees.isPlainOperand hu ihr .absorption (fun hl hr => hl.product hr none)
  | positive hc _ ih =>
    intro as has
    obtain ⟨as, rfl, hrest⟩ := has.glyph_left
    obtain ⟨bs, x, hx, hbs, he⟩ := ih hrest
    exact ⟨bs, x, .positive hc hx, hbs, he⟩
  | negative hc _ ih =>
    intro as has
    obtain ⟨as, rfl, hrest⟩ := has.glyph_left
    obtain ⟨bs, x, hx, hbs, he⟩ := ih hrest
    exact ⟨bs, .negative x, .negative hc hx, hbs, he.negative _⟩
  | call ht hu _ hv ih =>
    intro as has
    obtain ⟨name, as, rfl, hname, has⟩ := has.operand_left
    obtain ⟨bs, t, htarget, hbs, hagrees⟩ := ht.exists_plain hname has
    obtain ⟨cs, x, hx, hcs, hargs⟩ := ih hbs
    rw [hbs.startsWith Agrees.isGroup] at hu
    have hv := hv rfl
    rw [hcs.startsWith Agrees.isPlainOperand] at hv
    exact ⟨cs, _, .call htarget hu hx hv, hcs, hagrees.call hargs⟩
  | operand =>
    intro as has
    obtain ⟨x, bs, rfl, hnode, hrest⟩ := has.operand_left
    exact ⟨bs, x, .operand, hrest, hnode⟩
  | groupCall ht hg =>
    intro as has
    obtain ⟨name, as, rfl, hname, has⟩ := has.operand_left
    obtain ⟨bs, t, htarget, hbs, hagrees⟩ := ht.exists_plain hname has
    obtain ⟨args, cs, rfl, hargs, hrest⟩ := hbs.operand_left
    rw [isGroup, hargs.isTuple] at hg
    exact ⟨cs, _, .groupCall htarget hg, hrest, hagrees.call hargs⟩
  | factorial _ hc ih =>
    intro as has
    obtain ⟨bs, x, hx, hbs, he⟩ := ih has
    obtain ⟨bs, rfl, hrest⟩ := hbs.glyph_left
    exact ⟨bs, .factorial x, .factorial hx hc, hrest, he.factorial _⟩
  | power _ ih =>
    intro as has
    obtain ⟨bs, x, hx, hbs, he⟩ := ih has
    obtain ⟨exponent, cs, rfl, hexponent, hrest⟩ := hbs.superscript_left
    exact ⟨cs, _, .power hx, hrest, he.power hexponent _⟩

/-- The same for the items of a group. -/
theorem Lists.exists_plain {ts : List Token} {es : List Placed} (h : Lists true ts es) {as : List Atom}
    (has : AllAgree ι ts as) :
    ∃ xs, Plain.Lists as xs ∧ List.Forall₂ (fun e x => e.expr.Agrees ι x) es xs := by
  induction h generalizing as with
  | last h =>
    obtain ⟨bs, x, hx, hbs, he⟩ := h.hasPlain has
    obtain rfl := hbs.nil_left
    exact ⟨[x], .last hx, .cons he .nil⟩
  | more h hc _ ih =>
    obtain ⟨bs, x, hx, hbs, he⟩ := h.hasPlain has
    obtain ⟨bs, rfl, hrest⟩ := hbs.glyph_left
    obtain ⟨xs, hxs, hall⟩ := ih hrest
    exact ⟨x :: xs, .more hx hc hxs, .cons he hall⟩

end Grammar

/-! ## From plain phrases to phrases -/

namespace Plain

open Grammar Token

/-- Tokens that agree with some atoms have a phrase that agrees with a plain expression. -/
def HasExpr (ι : Interpretation R) (p : Phrase) (as bs : List Atom) (x : Plain) : Prop :=
  ∀ {ts}, AllAgree ι ts as →
    ∃ us e, Grammar.Derives true p ts us e ∧ AllAgree ι us bs ∧ e.expr.Agrees ι x

namespace HasExpr

variable {p q o : Phrase} {as bs cs : List Atom} {x y z : Plain}

theorem up (h : HasExpr ι p as bs x)
    (hd : ∀ {ts us e}, Grammar.Derives true p ts us e → Grammar.Derives true q ts us e) :
    HasExpr ι q as bs x := by
  intro ts hts
  obtain ⟨us, e, he, hus, hx⟩ := h hts
  exact ⟨us, e, hd he, hus, hx⟩

/-- Two phrases with a sign between them. -/
theorem signed {c : Char} (hx : HasExpr ι p as (.glyph c :: bs) x) (hy : HasExpr ι q bs cs y)
    {f : Range → Placed → Placed → Placed}
    (hd : ∀ {ts us vs l r sign}, Grammar.Derives true p ts (.glyph c sign :: us) l →
      Grammar.Derives true q us vs r → Grammar.Derives true o ts vs (f sign l r))
    (hf : ∀ {l r} sign, l.expr.Agrees ι x → r.expr.Agrees ι y → (f sign l r).expr.Agrees ι z) :
    HasExpr ι o as cs z := by
  intro ts hts
  obtain ⟨us, l, hl, hus, hlx⟩ := hx hts
  obtain ⟨sign, us, rfl, hrest⟩ := hus.glyph_right
  obtain ⟨vs, r, hr, hvs, hry⟩ := hy hrest
  exact ⟨vs, f sign l r, hd hl hr, hvs, hf sign hlx hry⟩

/-- Two phrases side by side. -/
theorem beside {P : Token → Bool} {Q : Atom → Bool} (hPQ : ∀ {t a}, t.Agrees ι a → P t = Q a)
    (hx : HasExpr ι p as bs x) (hb : Atom.startsWith Q bs) (hy : HasExpr ι q bs cs y)
    {f : Placed → Placed → Placed}
    (hd : ∀ {ts us vs l r}, Grammar.Derives true p ts us l → startsWith P us →
      Grammar.Derives true q us vs r → Grammar.Derives true o ts vs (f l r))
    (hf : ∀ {l r}, l.expr.Agrees ι x → r.expr.Agrees ι y → (f l r).expr.Agrees ι z) :
    HasExpr ι o as cs z := by
  intro ts hts
  obtain ⟨us, l, hl, hus, hlx⟩ := hx hts
  obtain ⟨vs, r, hr, hvs, hry⟩ := hy hus
  rw [← hus.startsWith hPQ] at hb
  exact ⟨vs, f l r, hd hl hb hr, hvs, hf hlx hry⟩

end HasExpr

theorem Target.exists_expr {x y : Plain} {as bs : List Atom} (h : Target x as bs y) {name : Placed}
    {named : Range} (hx : name.expr.Agrees ι x) {ts : List Token} (hts : AllAgree ι ts as) :
    ∃ us t, Grammar.Target name named ts us t ∧ AllAgree ι us bs ∧ t.expr.Agrees ι y := by
  cases h with
  | itself => exact ⟨ts, name, .itself ts, hts, hx⟩
  | inverse as hm =>
    obtain ⟨exponent, raised, us, rfl, hexponent, hrest⟩ := hts.superscript_right
    rw [← hexponent.isMinusOne] at hm
    exact ⟨us, _, .inverse raised _ hm, hrest, hx.inverse named raised⟩

/-- **Phrases.**  Wherever plain tokens have a plain phrase, the tokens that agree with them have one. -/
theorem Derives.hasExpr {p : Phrase} {as bs : List Atom} {x : Plain} (h : Derives p as bs x) :
    HasExpr ι p as bs x := by
  induction h with
  | ofSum _ ih => exact ih.up .ofSum
  | ofProduct _ ih => exact ih.up .ofProduct
  | ofFactor _ ih => exact ih.up .ofFactor
  | ofAtom _ ih => exact ih.up .ofAtom
  | ofFirst _ ih => exact ih.up .ofFirst
  | relation _ hc _ ihl ihr =>
    exact ihl.signed ihr (fun hl hr => .relation hl hc hr)
      (fun sign hl hr => hl.relation hr (isRelation_of_roleOf hc) sign)
  | addition _ hc _ ihl ihr =>
    exact ihl.signed ihr (fun hl hr => .addition hl hc hr) (fun sign hl hr => hl.sum hr _)
  | subtraction _ hc _ ihl ihr =>
    exact ihl.signed ihr (fun hl hr => .subtraction hl hc hr) (fun sign hl hr => hl.difference hr sign)
  | multiplication _ hc _ ihl ihr =>
    exact ihl.signed ihr (fun hl hr => .multiplication hl hc hr) (fun sign hl hr => hl.product hr _)
  | division _ hc _ ihl ihr =>
    exact ihl.signed ihr (fun hl hr => .division hl hc hr) (fun sign hl hr => hl.quotient hr sign)
  | juxtaposition _ hb _ ihl ihr =>
    exact ihl.beside Agrees.isOperand hb ihr .juxtaposition (fun hl hr => hl.product hr none)
  | absorption _ hb _ ihl ihr =>
    exact ihl.beside Agrees.isPlainOperand hb ihr .absorption (fun hl hr => hl.product hr none)
  | positive hc _ ih =>
    intro ts hts
    obtain ⟨sign, ts, rfl, hrest⟩ := hts.glyph_right
    obtain ⟨us, e, he, hus, hx⟩ := ih hrest
    exact ⟨us, e, .positive hc he, hus, hx⟩
  | negative hc _ ih =>
    intro ts hts
    obtain ⟨sign, ts, rfl, hrest⟩ := hts.glyph_right
    obtain ⟨us, e, he, hus, hx⟩ := ih hrest
    exact ⟨us, e.negate sign, .negative hc he, hus, hx.negative sign⟩
  | call ht hb _ hc ih =>
    intro ts hts
    obtain ⟨name, named, ts, rfl, hname, hts⟩ := hts.operand_right
    obtain ⟨us, t, htarget, hus, hagrees⟩ := ht.exists_expr hname hts
    obtain ⟨vs, args, he, hvs, hargs⟩ := ih hus
    rw [← hus.startsWith Agrees.isGroup] at hb
    rw [← hvs.startsWith Agrees.isPlainOperand] at hc
    exact ⟨vs, _, .call htarget hb he fun _ => hc, hvs, hagrees.call hargs⟩
  | operand =>
    intro ts hts
    obtain ⟨node, range, us, rfl, hnode, hrest⟩ := hts.operand_right
    exact ⟨us, node, .operand, hrest, hnode⟩
  | groupCall ht hg =>
    intro ts hts
    obtain ⟨name, named, ts, rfl, hname, hts⟩ := hts.operand_right
    obtain ⟨us, t, htarget, hus, hagrees⟩ := ht.exists_expr hname hts
    obtain ⟨args, range, vs, rfl, hargs, hrest⟩ := hus.operand_right
    rw [← hargs.isTuple] at hg
    exact ⟨vs, _, .groupCall htarget hg, hrest, hagrees.call hargs⟩
  | factorial _ hc ih =>
    intro ts hts
    obtain ⟨us, e, he, hus, hx⟩ := ih hts
    obtain ⟨sign, us, rfl, hrest⟩ := hus.glyph_right
    exact ⟨us, e.factorial sign, .factorial he hc, hrest, hx.factorial sign⟩
  | power _ ih =>
    intro ts hts
    obtain ⟨us, e, he, hus, hx⟩ := ih hts
    obtain ⟨exponent, raised, vs, rfl, hexponent, hrest⟩ := hus.superscript_right
    exact ⟨vs, _, .power he, hrest, hx.power hexponent raised⟩

/-- The same for the items of a group. -/
theorem Lists.exists_expr {as : List Atom} {xs : List Plain} (h : Lists as xs) {ts : List Token}
    (hts : AllAgree ι ts as) :
    ∃ es, Grammar.Lists true ts es ∧ List.Forall₂ (fun e x => e.expr.Agrees ι x) es xs := by
  induction h generalizing ts with
  | last h =>
    obtain ⟨us, e, he, hus, hx⟩ := h.hasExpr hts
    obtain rfl := hus.nil_right
    exact ⟨[e], .last he, .cons hx .nil⟩
  | more h hc _ ih =>
    obtain ⟨us, e, he, hus, hx⟩ := h.hasExpr hts
    obtain ⟨sign, us, rfl, hrest⟩ := hus.glyph_right
    obtain ⟨es, hes, hall⟩ := ih hrest
    exact ⟨e :: es, .more he hc hes, .cons hx hall⟩

end Plain

end PlanarMath
