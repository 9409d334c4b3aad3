import PlanarMath.Proofs.Grammar.Phrases

/-!
# How far readers look

No reader looks past the first token that it leaves, or past the token that it complains of.  So where a
row cannot be read on, no other row with the same tokens up to there can be read; and a reader that runs
out of tokens is content with one operand more (`Exact`).

    f (used ++ t :: us) reads used            →   f (used ++ t :: vs) reads used
    f (used ++ t :: us) complains of t        →   f (used ++ t :: vs) complains of t
    f ts complains of the end of the input    →   f (ts ++ [filler]) reads everything

These properties are kept by all that readers are composed of: one reader after another, a choice by the
first token, and a loop over suffixes.
-/

namespace PlanarMath.Grammar

/-- The halt complains of the first of some tokens, or of the end of the input when there are none. -/
inductive StopsAt (stop : Range) : List Token → Halt → Prop
  | unexpected (ts) : StopsAt stop ts (unexpected stop ts)
  | exponent (x raised ts) :
      StopsAt stop (.superscript x raised :: ts) ⟨⟨.ambiguousExponent, raised⟩, ts⟩

/-- How many tokens are ahead of a halt, the one that it complains of included. -/
def Halt.ahead (h : Halt) : Nat :=
  match h.diagnostic.complaint with
  | .ambiguousExponent => h.rest.length + 1
  | _ => h.rest.length

theorem StopsAt.length_eq {stop : Range} {ts : List Token} {h : Halt} (hs : StopsAt stop ts h) :
    ts.length = h.ahead := by
  cases hs <;> rfl

/-- The number zero, in some place. -/
def zero : Placed := ⟨.number (.int 0) (some (.ofWidth 0 1)), .ofWidth 0 1, rfl⟩

/-- An operand for the end of an input, which a function takes as its argument. -/
def filler : Token := .ofNode zero

/-- A reader that stops after the tokens `used` at the tokens `rest`. -/
structure Stops {α : Type} (stop : Range) (f : List Token → Except Halt (α × List Token))
    (used rest : List Token) (h : Halt) : Prop where
  stopsAt : StopsAt stop rest h
  /-- The token complained of is in the way, whatever is behind it. -/
  hopeless : ∀ t us, rest = t :: us → ∀ us', ∃ h', f (used ++ t :: us') = .error h' ∧
    StopsAt stop (t :: us') h'
  /-- At the end of the input an operand is all that is missing. -/
  hopeful : rest = [] → ∃ a, f (used ++ [filler]) = .ok (a, [])

/-- At some tokens a reader looks no further than the first that it leaves or complains of. -/
structure Exact {α : Type} (stop : Range) (f : List Token → Except Halt (α × List Token))
    (ts : List Token) : Prop where
  read : ∀ a us, f ts = .ok (a, us) → ∃ used, ts = used ++ us ∧
    ∀ us', us'.head? = us.head? → f (used ++ us') = .ok (a, us')
  stops : ∀ h, f ts = .error h → ∃ used rest, ts = used ++ rest ∧ Stops stop f used rest h

/-! ## Tokens with the same first one -/

theorem head?_append {us vs : List Token} (h : us.head? = vs.head?) (used : List Token) :
    (used ++ us).head? = (used ++ vs).head? := by
  cases used with
  | nil => exact h
  | cons t used => rfl

theorem head?_append_cons (used : List Token) (t : Token) (us vs : List Token) :
    (used ++ t :: us).head? = (used ++ t :: vs).head? := by
  cases used <;> rfl

theorem startsWith_congr {P : Token → Bool} {us vs : List Token} (h : us.head? = vs.head?) :
    startsWith P us = startsWith P vs := by
  cases us <;> cases vs <;> simp_all [startsWith]

theorem goesOnWith_congr {level : Int} {us vs : List Token} (h : us.head? = vs.head?) :
    goesOnWith level us = goesOnWith level vs := by
  cases us <;> cases vs <;> simp_all [goesOnWith]

/-! ## What exact readers are composed of -/

namespace Exact

variable {stop : Range} {α β : Type} {f g : List Token → Except Halt (α × List Token)} {ts : List Token}

/-- A result that takes no token. -/
theorem pure (a : α) (ts : List Token) : Exact stop (fun ts => .ok (a, ts)) ts where
  read a' us h := by
    cases h
    exact ⟨[], rfl, fun us' _ => rfl⟩
  stops h hh := by cases hh

/-- A reader that cannot go on with a token, whatever is behind it. -/
theorem stuck {t : Token} (h : ∀ us, ∃ halt, f (t :: us) = .error halt ∧ StopsAt stop (t :: us) halt)
    (ts : List Token) : Exact stop f (t :: ts) where
  read a us hok := by
    obtain ⟨halt, hf, -⟩ := h ts
    rw [hf] at hok
    cases hok
  stops halt hf := by
    obtain ⟨halt', hf', hs⟩ := h ts
    rw [hf] at hf'
    cases hf'
    refine ⟨[], t :: ts, rfl, hs, ?_, nofun⟩
    rintro _ _ ⟨⟩ us'
    exact h us'

theorem unexpected {t : Token} (h : ∀ us, f (t :: us) = .error (Grammar.unexpected stop (t :: us)))
    (ts : List Token) : Exact stop f (t :: ts) :=
  .stuck (fun us => ⟨_, h us, .unexpected _⟩) ts

/-- A reader that needs an operand at the end of the input. -/
theorem nil (h : f [] = .error (Grammar.unexpected stop [])) (hend : ∃ a, f [filler] = .ok (a, [])) :
    Exact stop f [] where
  read a us hok := by
    rw [h] at hok
    cases hok
  stops halt hf := by
    rw [h] at hf
    cases hf
    exact ⟨[], [], rfl, .unexpected [], nofun, fun _ => hend⟩

/-- Readers that agree on all tokens with the same first one. -/
theorem congr (hg : Exact stop g ts) (h : ∀ us, us.head? = ts.head? → f us = g us)
    (hend : ∀ halt, ts = [] → g [] = .error halt → f [filler] = g [filler]) : Exact stop f ts where
  read a us hok := by
    rw [h ts rfl] at hok
    obtain ⟨used, rfl, hread⟩ := hg.read a us hok
    exact ⟨used, rfl, fun us' hu => (h _ (head?_append hu used)).trans (hread us' hu)⟩
  stops halt hf := by
    have hgts := hf
    rw [h ts rfl] at hgts
    obtain ⟨used, rest, rfl, hs⟩ := hg.stops halt hgts
    refine ⟨used, rest, rfl, hs.stopsAt, ?_, ?_⟩
    · rintro t us rfl us'
      obtain ⟨h', hg', hs'⟩ := hs.hopeless t us rfl us'
      exact ⟨h', (h _ (head?_append_cons used t us' us)).trans hg', hs'⟩
    · rintro rfl
      obtain ⟨a, ha⟩ := hs.hopeful rfl
      refine ⟨a, Eq.trans ?_ ha⟩
      cases used with
      | nil => exact hend halt rfl hgts
      | cons t used => exact h _ rfl

/-- A reader that takes the first token and goes on behind it. -/
theorem cons {t : Token} (hg : Exact stop g ts) (h : ∀ us, f (t :: us) = g us) : Exact stop f (t :: ts) := by
  obtain rfl : (fun us => f (t :: us)) = g := funext h
  constructor
  · intro a us hok
    obtain ⟨used, rfl, hread⟩ := hg.read a us hok
    exact ⟨t :: used, rfl, hread⟩
  · intro halt hf
    obtain ⟨used, rest, rfl, hs⟩ := hg.stops halt hf
    exact ⟨t :: used, rest, rfl, hs.stopsAt, hs.hopeless, hs.hopeful⟩

/-- One reader after another.  What the first leaves at the end of the input it leaves before an operand as
well, unless the second is content with the end of the input. -/
theorem andThen {g : α → List Token → Except Halt (β × List Token)} (hf : Exact stop f ts)
    (hg : ∀ a us, f ts = .ok (a, us) → Exact stop (g a) us)
    (hlast : ∀ a, f (ts ++ [filler]) = .ok (a, []) → ∃ b, g a [] = .ok (b, []))
    (hend : ∀ a halt, f ts = .ok (a, []) → g a [] = .error halt → f (ts ++ [filler]) = .ok (a, [filler])) :
    Exact stop (fun ts => Grammar.andThen (f ts) g) ts where
  read b vs hok := by
    obtain ⟨a, us, hfa, hga⟩ := andThen_eq_ok.1 hok
    obtain ⟨used, rfl, hread⟩ := hf.read a us hfa
    obtain ⟨more, rfl, hmore⟩ := (hg a us hfa).read b vs hga
    refine ⟨used ++ more, (List.append_assoc used more vs).symm, fun vs' hv => ?_⟩
    rw [List.append_assoc, hread _ (head?_append hv more)]
    exact hmore vs' hv
  stops halt herror := by
    cases hfa : f ts with
    | error h =>
      rw [hfa] at herror
      cases herror
      obtain ⟨used, rest, rfl, hs⟩ := hf.stops halt hfa
      refine ⟨used, rest, rfl, hs.stopsAt, ?_, ?_⟩
      · rintro t us rfl us'
        obtain ⟨h', hf', hs'⟩ := hs.hopeless t us rfl us'
        exact ⟨h', by rw [hf']; rfl, hs'⟩
      · rintro rfl
        obtain ⟨a, ha⟩ := hs.hopeful rfl
        obtain ⟨b, hb⟩ := hlast a (by rwa [List.append_nil])
        exact ⟨b, by rw [ha]; exact hb⟩
    | ok p =>
      obtain ⟨a, us⟩ := p
      rw [hfa] at herror
      obtain ⟨more, rest, rfl, hs⟩ := (hg a us hfa).stops halt herror
      obtain ⟨used, rfl, hread⟩ := hf.read a _ hfa
      refine ⟨used ++ more, rest, (List.append_assoc used more rest).symm, hs.stopsAt, ?_, ?_⟩
      · rintro t us rfl us'
        obtain ⟨h', hg', hs'⟩ := hs.hopeless t us rfl us'
        refine ⟨h', ?_, hs'⟩
        rw [List.append_assoc, hread _ (head?_append_cons more t us' us)]
        exact hg'
      · rintro rfl
        obtain ⟨b, hb⟩ := hs.hopeful rfl
        refine ⟨b, ?_⟩
        have hfill : f (used ++ (more ++ [filler])) = .ok (a, more ++ [filler]) := by
          cases more with
          | nil =>
            have := hend a halt hfa herror
            rwa [List.append_nil, List.append_nil] at this
          | cons t more => exact hread _ rfl
        rw [List.append_assoc, hfill]
        exact hb

/-- A reader whose result is put into another shape. -/
theorem map (hf : Exact stop f ts) (φ : α → β) :
    Exact stop (fun ts => Grammar.andThen (f ts) fun a us => .ok (φ a, us)) ts :=
  hf.andThen (fun a us _ => .pure (φ a) us) (fun a _ => ⟨φ a, rfl⟩) (fun a halt _ h => by cases h)

/-- A loop over suffixes that goes on by the first token. -/
theorem loop {loop : Placed → List Token → Except Halt (Placed × List Token)} {goes : List Token → Bool}
    (hloop : ∀ l ts, loop l ts = if goes ts then
      Grammar.andThen (suffix stop ts).view fun s us => loop (s.apply l) us else .ok (l, ts))
    (hgoes : ∀ us vs, us.head? = vs.head? → goes us = goes vs) (hnil : goes [] = false)
    (hsuffix : ∀ us, us.length ≤ ts.length → Exact stop (fun us => (suffix stop us).view) us)
    (l : Placed) : Exact stop (loop l) ts := by
  have hdone : ∀ l, loop l [] = .ok (l, []) := fun l => by rw [hloop, hnil]; rfl
  induction hn : ts.length using Nat.strongRecOn generalizing l ts with
  | _ n ih =>
    cases hg : goes ts with
    | false =>
      refine (pure l ts).congr (fun us hu => ?_) (fun halt _ h => by cases h)
      rw [hloop, hgoes us ts hu, hg]
      rfl
    | true =>
      have hnext : Exact stop
          (fun us => Grammar.andThen (suffix stop us).view fun s vs => loop (s.apply l) vs) ts := by
        refine (hsuffix ts (Nat.le_refl _)).andThen ?_ (fun s _ => ⟨_, hdone _⟩) ?_
        · intro s us hs
          have hlt := length_lt_of_view hs
          exact ih us.length (by omega) (fun vs hv => hsuffix vs (by omega)) (s.apply l) rfl
        · intro s halt _ h
          rw [hdone] at h
          cases h
      refine hnext.congr (fun us hu => ?_) ?_
      · rw [hloop, hgoes us ts hu, hg]
        rfl
      · rintro halt rfl
        rw [hnil] at hg
        cases hg

end Exact

/-! ## The readers -/

section
variable {stop : Range} {n : Nat} {ts : List Token}

theorem view_operand_filler (us : List Token) : (operand stop (filler :: us)).view = .ok (zero, us) := by
  rw [filler, Token.ofNode, operand]
  rfl

/-- One operand is read at any level. -/
theorem view_expression_filler (level : Int) : (expression stop level [filler]).view = .ok (zero, []) := by
  rw [view_expression, view_operand_filler, andThen_ok, view_suffixes]
  rfl

/-- What a name calls depends on the token behind it. -/
theorem exact_target (name : Placed) (named : Range) (ts : List Token) :
    Exact stop (fun ts => (target name named ts).view) ts := by
  cases hs : startsWith isSuperscript ts with
  | false =>
    refine (Exact.pure name ts).congr (fun us hu => ?_) (fun halt _ h => by cases h)
    exact view_target_of_not_superscript name named ((startsWith_congr hu).trans hs)
  | true =>
    match ts, hs with
    | .superscript x raised :: ts, _ =>
      have hview := view_target_superscript name named x raised
      cases hx : x.expr.isMinusOne with
      | true => exact (Exact.pure (name.inverse named raised) ts).cons fun us => (hview us).trans (if_pos hx)
      | false =>
        refine .stuck (fun us => ⟨_, ?_, .exponent x raised us⟩) ts
        exact (hview us).trans (if_neg (by rw [hx]; exact Bool.false_ne_true))

/-- An operand behind what a name calls is left to the arguments. -/
theorem view_target_filler {name t : Placed} {named : Range}
    (h : (target name named ts).view = .ok (t, [])) :
    (target name named (ts ++ [filler])).view = .ok (t, [filler]) := by
  have ht : Target name named (ts ++ [filler]) [filler] t := by
    cases view_target_eq_ok h with
    | itself => exact .itself _
    | inverse raised _ hx => exact .inverse raised _ hx
  exact ht.view rfl

theorem view_target_ne_nil {name t : Placed} {named : Range} :
    (target name named (ts ++ [filler])).view ≠ .ok (t, []) := by
  intro h
  have ht := view_target_eq_ok h
  generalize hus : ts ++ [filler] = us at ht
  cases ht with
  | itself => simp at hus
  | inverse raised _ _ => simp [List.append_eq_cons_iff, filler, Token.ofNode] at hus

/-- On fewer than `n` tokens, expressions are read exactly. -/
def ReadsExactly (stop : Range) (n : Nat) : Prop :=
  ∀ ts, ts.length < n → ∀ level, Exact stop (fun ts => (expression stop level ts).view) ts

namespace ReadsExactly

theorem suffix (hn : ReadsExactly stop n) (hts : ts.length < n) :
    Exact stop (fun ts => (Grammar.suffix stop ts).view) ts := by
  match ts with
  | [] =>
    refine .nil (by simp [Grammar.suffix, Outcome.view]) ⟨.product zero none, ?_⟩
    refine (view_suffix_operand stop zero false zero.range []).trans ?_
    exact congrArg (andThen · _) (view_expression_filler productLevel)
  | .subscript x raised :: ts =>
    exact .unexpected (fun us => by simp [Grammar.suffix, Outcome.view]) ts
  | .superscript x raised :: ts =>
    exact (Exact.pure (.power x raised) ts).cons fun us => by rw [Grammar.suffix]; rfl
  | .operand node function range :: ts =>
    refine ((hn _ hts productLevel).map fun e => Suffix.product e none).congr (fun us hu => ?_)
      (fun halt hnil _ => by cases hnil)
    obtain ⟨vs, rfl⟩ := List.head?_eq_some_iff.1 hu
    exact view_suffix_operand stop node function range vs
  | .glyph c sign :: ts =>
    have hrest := hn ts (by simp only [List.length_cons] at hts; omega)
    have hview : ∀ us, _ := fun us => view_suffix_glyph stop c sign us
    cases hc : roleOf c with
    | comma => exact .unexpected (fun us => by rw [hview, hc]) ts
    | plain => exact .unexpected (fun us => by rw [hview, hc]) ts
    | factorial => exact (Exact.pure (.factorial sign) ts).cons fun us => by rw [hview, hc]
    | plus => exact ((hrest sumLevel).map (Suffix.sum · sign)).cons fun us => by rw [hview, hc]
    | minus => exact ((hrest sumLevel).map (Suffix.difference · sign)).cons fun us => by rw [hview, hc]
    | times => exact ((hrest productLevel).map (Suffix.product · (some sign))).cons fun us => by rw [hview, hc]
    | divide => exact ((hrest productLevel).map (Suffix.quotient · sign)).cons fun us => by rw [hview, hc]
    | relation op => exact ((hrest lowest).map (Suffix.relation op · sign)).cons fun us => by rw [hview, hc]

theorem suffixes (hn : ReadsExactly stop n) (hts : ts.length < n) (level : Int) (l : Placed) :
    Exact stop (fun ts => (Grammar.suffixes stop level l ts).view) ts :=
  Exact.loop (view_suffixes stop level) (fun _ _ => goesOnWith_congr) rfl (fun us hu => hn.suffix (by omega)) l

theorem factors (hn : ReadsExactly stop n) (hts : ts.length < n) (l : Placed) :
    Exact stop (fun ts => (Grammar.factors stop l ts).view) ts :=
  Exact.loop (view_factors stop) (fun _ _ => startsWith_congr) rfl (fun us hu => hn.suffix (by omega)) l

theorem argument (hn : ReadsExactly stop n) (hts : ts.length < n) :
    Exact stop (fun ts => (Grammar.argument stop ts).view) ts := by
  have hdone : ∀ l, (Grammar.factors stop l []).view = .ok (l, []) := fun l => by
    rw [view_factors]
    rfl
  simp only [view_argument]
  refine (hn ts hts productLevel).andThen (fun e us he => ?_) (fun e _ => ⟨e, hdone e⟩) ?_
  · have := length_lt_of_view he
    exact hn.factors (by omega) e
  · intro e halt _ h
    rw [hdone] at h
    cases h

theorem arguments (hn : ReadsExactly stop n) (hts : ts.length < n) :
    Exact stop (fun ts => (Grammar.arguments stop ts).view) ts := by
  cases hg : startsWith isGroup ts with
  | false =>
    refine (hn.argument hts).congr (fun us hu => ?_) fun _ _ _ => view_arguments_of_not_group stop rfl
    exact view_arguments_of_not_group stop ((startsWith_congr hu).trans hg)
  | true =>
    match ts, hg with
    | .operand args function range :: ts, hg =>
      exact (Exact.pure args ts).cons (view_arguments_group stop hg function range)

theorem operand (hn : ReadsExactly stop n) (hts : ts.length ≤ n) :
    Exact stop (fun ts => (Grammar.operand stop ts).view) ts := by
  match ts with
  | [] =>
    exact .nil (by simp [Grammar.operand, Outcome.view]) ⟨zero, view_operand_filler []⟩
  | .superscript x raised :: ts =>
    exact .unexpected (fun us => by simp [Grammar.operand, Outcome.view]) ts
  | .subscript x raised :: ts =>
    exact .unexpected (fun us => by simp [Grammar.operand, Outcome.view]) ts
  | .operand node false range :: ts =>
    exact (Exact.pure node ts).cons fun us => by rw [Grammar.operand]; rfl
  | .operand name true named :: ts =>
    simp only [List.length_cons] at hts
    refine Exact.cons ?_ (view_operand_name stop name named)
    refine (exact_target name named ts).andThen (fun t us ht => ?_)
      (fun t h => absurd h view_target_ne_nil) (fun t _ h _ => view_target_filler h)
    have := length_lt_of_view ht
    exact (hn.arguments (by omega)).map fun args => t.apply args
  | .glyph c sign :: ts =>
    have hrest := hn ts (by simp only [List.length_cons] at hts; omega) signLevel
    have hview : ∀ us, _ := fun us => view_operand_glyph stop c sign us
    cases hc : roleOf c with
    | plus => exact hrest.cons fun us => by rw [hview, hc]
    | minus => exact (hrest.map (Placed.negate sign)).cons fun us => by rw [hview, hc]
    | _ => exact .unexpected (fun us => by rw [hview, hc]) ts

end ReadsExactly

theorem readsExactly (stop : Range) (n : Nat) : ReadsExactly stop n := by
  induction n with
  | zero => intro ts hts; omega
  | succ n ih =>
    intro ts hts level
    have hdone : ∀ l, (Grammar.suffixes stop level l []).view = .ok (l, []) := fun l => by
      rw [view_suffixes]
      rfl
    simp only [view_expression]
    refine (ih.operand (by omega)).andThen (fun e us he => ?_) (fun e _ => ⟨e, hdone e⟩) ?_
    · have := length_lt_of_view he
      exact ih.suffixes (by omega) level e
    · intro e halt _ h
      rw [hdone] at h
      cases h

/-- **Lookahead.**  Expressions are read exactly, at all levels and at all tokens. -/
theorem exact_expression (stop : Range) (level : Int) (ts : List Token) :
    Exact stop (fun ts => (expression stop level ts).view) ts :=
  readsExactly stop (ts.length + 1) ts (Nat.lt_succ_self _) level

/-- So are expressions with commas between them. -/
theorem exact_items (stop : Range) (ts : List Token) : Exact stop (fun ts => (items stop ts).view) ts := by
  induction hn : ts.length using Nat.strongRecOn generalizing ts with
  | _ n ih =>
    rw [show (fun ts => (items stop ts).view) = _ from funext (view_items stop)]
    refine (exact_expression stop lowest ts).andThen (fun e us he => ?_) (fun e _ => ⟨[e], rfl⟩)
      (fun e halt _ h => by cases h)
    have hlt := length_lt_of_view he
    cases hc : startsWith isComma us with
    | false =>
      refine (Exact.pure [e] us).congr (fun vs hv => ?_) (fun _ _ h => by cases h)
      rw [startsWith_congr hv, hc]
      rfl
    | true =>
      match us, hc with
      | t :: us, hc =>
        simp only [List.length_cons] at hlt
        exact ((ih us.length (by omega) us rfl).map (e :: ·)).cons fun vs => if_pos hc

end

end PlanarMath.Grammar
