import PlanarMath.Proofs.Grammar.Soundness

/-!
# Greedy phrases are read

The reader follows a greedy derivation: once it has taken the tokens of a phrase, it stands in the loop
over suffixes with what the phrase stands for.

    (expression level ts).view  =  (suffixes level e us).view        (`Reaches level ts us e`)

Together with soundness, reading a row is having a greedy derivation for it (`whole_eq_ok_iff`,
`group_eq_ok_iff`).
-/

namespace PlanarMath.Grammar

section
variable {stop : Range}

/-- Reading at a level comes to `e` with the tokens `us` left, and goes on from there. -/
def Reaches (stop : Range) (level : Int) (ts us : List Token) (e : Placed) : Prop :=
  (expression stop level ts).view = (suffixes stop level e us).view

theorem view_suffixes_of_not_goesOn {level : Int} {us : List Token} (h : goesOnWith level us = false)
    (e : Placed) : (suffixes stop level e us).view = .ok (e, us) := by
  rw [view_suffixes, h]
  rfl

namespace Reaches

variable {level : Int} {ts us vs : List Token} {e l r : Placed}

theorem of_operand (h : (operand stop ts).view = .ok (e, us)) (level : Int) :
    Reaches stop level ts us e := by
  unfold Reaches
  rw [view_expression, h]
  rfl

theorem view (h : Reaches stop level ts us e) (hu : goesOnWith level us = false) :
    (expression stop level ts).view = .ok (e, us) :=
  h.trans (view_suffixes_of_not_goesOn hu e)

theorem step (h : Reaches stop level ts us l) (hg : goesOnWith level us = true) {s : Suffix}
    (hs : (suffix stop us).view = .ok (s, vs)) : Reaches stop level ts vs (s.apply l) := by
  unfold Reaches at h ⊢
  rw [h, view_suffixes, if_pos hg, hs]
  rfl

end Reaches

/-- What a reader makes of a phrase of each kind, when what follows does not go on inside it. -/
def Followed (stop : Range) (p : Phrase) (ts us : List Token) (e : Placed) : Prop :=
  match p with
  | .atom => ∀ level ≤ signLevel, Reaches stop level ts us e
  | .factor => goesOnWith productLevel us = false → ∀ level ≤ signLevel, Reaches stop level ts us e
  | .product => goesOnWith productLevel us = false → ∀ level < productLevel, Reaches stop level ts us e
  | .sum => goesOnWith sumLevel us = false → ∀ level < sumLevel, Reaches stop level ts us e
  | .relation => goesOnWith lowest us = false → Reaches stop lowest ts us e
  | .argument => goesOnWith productLevel us = false →
      (argument stop ts).view = (factors stop e us).view

/-- No phrase starts with a superscript. -/
theorem DerivesWith.not_superscript {group : Token → Bool} {greedy : Bool} {p : Phrase} {ts us : List Token}
    {e : Placed} (h : DerivesWith group greedy p ts us e) : startsWith isSuperscript ts = false := by
  induction h with
  | operand => rfl
  | groupCall => rfl
  | call => rfl
  | positive => rfl
  | negative => rfl
  | _ => assumption

theorem goesOnWith_of_operand {ts : List Token} (h : startsWith isOperand ts) :
    goesOnWith productLevel ts = false ∧ ∀ level < productLevel, goesOnWith level ts = true := by
  match ts, h with
  | .operand node function range :: ts, _ =>
    refine ⟨rfl, fun level hl => ?_⟩
    simpa [goesOnWith, goesOn, binding?] using hl

/-- A factor beside something is read as its suffix. -/
theorem view_suffix_beside {us vs : List Token} {r : Placed} (ho : startsWith isOperand us)
    (h : (expression stop productLevel us).view = .ok (r, vs)) :
    (suffix stop us).view = .ok (.product r none, vs) := by
  match us, ho with
  | .operand node function range :: us, _ => rw [view_suffix_operand, h]; rfl

theorem goesOnWith_glyph (level : Int) (c : Char) (sign : Range) (ts : List Token) :
    goesOnWith level (.glyph c sign :: ts) = (roleOf c).binding?.any (level < ·) := rfl

/-- A sign at which reading goes on, and the operand behind it, which is read at a level of its own. -/
theorem Reaches.signed {level inner : Int} {ts us vs : List Token} {l r : Placed} {c : Char} {sign : Range}
    {f : Placed → Suffix} (hl : Reaches stop level ts (.glyph c sign :: us) l)
    (hg : goesOnWith level (.glyph c sign :: us) = true)
    (hs : (suffix stop (.glyph c sign :: us)).view =
      andThen (expression stop inner us).view fun e ws => .ok (f e, ws))
    (hr : Reaches stop inner us vs r) (hv : goesOnWith inner vs = false) :
    Reaches stop level ts vs ((f r).apply l) := by
  have hsuffix : (suffix stop (.glyph c sign :: us)).view = .ok (f r, vs) := by
    rw [hs, hr.view hv, andThen_ok]
  exact hl.step hg hsuffix

theorem Derives.followed (stop : Range) {p : Phrase} {ts us : List Token} {e : Placed}
    (h : Derives true p ts us e) : Followed stop p ts us e := by
  induction h with
  | ofSum _ ih => exact fun hu => ih (goesOnWith_mono (by decide) hu) lowest (by decide)
  | @relation ts us vs l r c sign op _ hc _ ihl ihr =>
    intro hv
    have hl := ihl (by rw [goesOnWith_glyph, hc]; rfl) lowest (by decide)
    refine hl.signed (f := (.relation op · sign)) ?_ ?_ (ihr hv) hv
    · rw [goesOnWith_glyph, hc]
      rfl
    · rw [view_suffix_glyph, hc]
  | ofProduct _ ih =>
    intro hu level hl
    exact ih (goesOnWith_mono (by decide) hu) level (Int.lt_trans hl (by decide))
  | @addition ts us vs l r c sign _ hc _ ihl ihr =>
    intro hv level hlevel
    have hl := ihl (by rw [goesOnWith_glyph, hc]; rfl) level hlevel
    have hr := ihr (goesOnWith_mono (by decide) hv) sumLevel (by decide)
    refine hl.signed (f := (.sum · sign)) ?_ ?_ hr hv
    · rw [goesOnWith_glyph, hc]
      exact decide_eq_true hlevel
    · rw [view_suffix_glyph, hc]
  | @subtraction ts us vs l r c sign _ hc _ ihl ihr =>
    intro hv level hlevel
    have hl := ihl (by rw [goesOnWith_glyph, hc]; rfl) level hlevel
    have hr := ihr (goesOnWith_mono (by decide) hv) sumLevel (by decide)
    refine hl.signed (f := (.difference · sign)) ?_ ?_ hr hv
    · rw [goesOnWith_glyph, hc]
      exact decide_eq_true hlevel
    · rw [view_suffix_glyph, hc]
  | ofFactor _ ih =>
    intro hu level hl
    exact ih hu level (Int.le_of_lt (Int.lt_trans hl (by decide)))
  | @multiplication ts us vs l r c sign _ hc _ ihl ihr =>
    intro hv level hlevel
    have hl := ihl (by rw [goesOnWith_glyph, hc]; rfl) level hlevel
    refine hl.signed (f := (.product · (some sign))) ?_ ?_ (ihr hv productLevel (by decide)) hv
    · rw [goesOnWith_glyph, hc]
      exact decide_eq_true hlevel
    · rw [view_suffix_glyph, hc]
  | @division ts us vs l r c sign _ hc _ ihl ihr =>
    intro hv level hlevel
    have hl := ihl (by rw [goesOnWith_glyph, hc]; rfl) level hlevel
    refine hl.signed (f := (.quotient · sign)) ?_ ?_ (ihr hv productLevel (by decide)) hv
    · rw [goesOnWith_glyph, hc]
      exact decide_eq_true hlevel
    · rw [view_suffix_glyph, hc]
  | @juxtaposition ts us vs l r _ ho _ ihl ihr =>
    intro hv level hlevel
    obtain ⟨hu, hg⟩ := goesOnWith_of_operand ho
    have hr := (ihr hv productLevel (by decide)).view hv
    exact (ihl hu level hlevel).step (hg level hlevel) (view_suffix_beside ho hr)
  | ofAtom _ ih => exact fun _ level hl => ih level hl
  | @positive ts us e c sign hc _ ih =>
    intro hu level _
    refine .of_operand ?_ level
    rw [view_operand_glyph, hc]
    exact (ih hu signLevel (by decide)).view (by rwa [goesOnWith_signLevel])
  | @negative ts us e c sign hc _ ih =>
    intro hu level _
    refine .of_operand ?_ level
    rw [view_operand_glyph, hc]
    simp only [(ih hu signLevel (by decide)).view (by rwa [goesOnWith_signLevel]), andThen_ok]
  | @call ts us vs name named t args ht hg ha hp iha =>
    intro hv level _
    refine .of_operand ?_ level
    have hargs : (argument stop us).view = .ok (args, vs) := by
      rw [iha hv, view_factors, hp rfl]
      rfl
    rw [view_operand_name, ht.view ha.not_superscript]
    simp only [andThen_ok, view_arguments_of_not_group stop hg, hargs]
  | ofFirst _ ih =>
    intro hu
    rw [view_argument, (ih hu productLevel (by decide)).view hu]
    rfl
  | @absorption ts us vs l r _ hp _ ihl ihr =>
    intro hv
    have ho := isOperand_of_plain hp
    have hr := (ihr hv productLevel (by decide)).view hv
    rw [ihl (goesOnWith_of_operand ho).1, view_factors, if_pos hp, view_suffix_beside ho hr]
    rfl
  | operand => exact fun level _ => .of_operand (by rw [Grammar.operand]; rfl) level
  | @groupCall ts us name named t args function range ht hg =>
    intro level _
    refine .of_operand ?_ level
    rw [view_operand_name, ht.view rfl]
    simp only [andThen_ok, view_arguments_group stop hg]
  | @factorial ts us e c sign _ hc ih =>
    intro level hl
    refine (ih level hl).step (s := .factorial sign) ?_ (by rw [view_suffix_glyph, hc])
    rw [goesOnWith_glyph, hc]
    exact decide_eq_true (Int.lt_of_le_of_lt hl (by decide))
  | @power ts us e exponent raised _ ih =>
    intro level hl
    refine (ih level hl).step (s := .power exponent raised) ?_ (by rw [suffix]; rfl)
    exact decide_eq_true (Int.lt_of_le_of_lt hl (by decide))

/-! ## Whole rows -/

/-- **Whole rows.**  Reading a row as one expression is having a greedy derivation for it. -/
theorem whole_eq_ok_iff {ts : List Token} {e : Placed} :
    whole stop ts = .ok e ↔ Derives true .relation ts [] e := by
  unfold whole
  constructor
  · intro h
    cases hp : expression stop lowest ts with
    | error halt => rw [hp] at h; cases h
    | ok p =>
      rw [hp] at h
      have hv : (expression stop lowest ts).view = .ok (p.value, p.rest) := by rw [hp]; rfl
      have hd := (expression_derives hv).1
      rw [phraseAt_lowest] at hd
      simp only at h
      split at h
      · next he =>
        rw [List.isEmpty_iff.1 he] at hd
        cases h
        exact hd
      · cases h
  · intro h
    obtain ⟨_, hp⟩ := view_eq_ok.1 ((h.followed stop rfl).view rfl)
    rw [hp]
    rfl

theorem items_eq_ok_iff {ts : List Token} {es : List Placed} :
    (items stop ts).view = .ok (es, []) ↔ Lists true ts es := by
  have comma : ∀ {c : Char} {r : Range} {us : List Token},
      startsWith isComma (.glyph c r :: us) ↔ roleOf c = .comma := by
    intro c r us
    simp [startsWith, isComma]
  constructor
  · intro h
    generalize hr : ([] : List Token) = rest at h
    have key := readsItems_of_view stop h
    clear h
    induction key with
    | last he =>
      subst hr
      exact .last (phraseAt_lowest ▸ (expression_derives he).1)
    | @more _ us _ _ _ he hc _ ih =>
      have hd := (expression_derives he).1
      cases us with
      | nil => cases hc
      | cons t us =>
        cases t with
        | glyph c r => exact .more (phraseAt_lowest ▸ hd) (comma.1 hc) (ih hr)
        | operand | superscript | subscript => cases hc
  · intro h
    induction h with
    | last hd =>
      rw [view_items, (hd.followed stop rfl).view rfl]
      rfl
    | @more _ us e es c range hd hc _ ih =>
      have hf : goesOnWith lowest (.glyph c range :: us) = false := by
        rw [goesOnWith_glyph, hc]
        rfl
      rw [view_items, (hd.followed stop hf).view hf, andThen_ok, if_pos (comma.2 hc), List.tail_cons, ih]
      rfl

/-- **Groups.**  Reading a row as a group is having greedy derivations for its items. -/
theorem group_eq_ok_iff {ts : List Token} {es : List Placed} :
    group stop ts = .ok es ↔ Lists true ts es := by
  refine Iff.trans ?_ (show (items stop ts).view = .ok (es, []) ↔ _ from items_eq_ok_iff)
  unfold group
  cases items stop ts with
  | error h => simp [Outcome.view]
  | ok p =>
    simp only [Outcome.view, Except.ok.injEq, Prod.mk.injEq]
    split
    · next he => simp [List.isEmpty_iff.1 he]
    · next he =>
      constructor
      · intro h; cases h
      · rintro ⟨-, h⟩; simp [h] at he

/-- What is made of a group is made of the items that its greedy derivations give. -/
theorem map_group_eq_ok {β : Type} {f : List Placed → β} {ts : List Token} {b : β} :
    (group stop ts).map f = .ok b ↔ ∃ es, Lists true ts es ∧ b = f es := by
  have hgroup : ∀ es, group stop ts = .ok es ↔ Lists true ts es := fun es => group_eq_ok_iff
  simp only [← hgroup]
  cases group stop ts with
  | error h => simp [Except.map]
  | ok es => simp [Except.map, eq_comm]

end

/-! ## One derivation -/

/-- All greedy derivations of a row are of one expression. -/
theorem Derives.unique {ts : List Token} {e e' : Placed} (h : Derives true .relation ts [] e)
    (h' : Derives true .relation ts [] e') : e = e' := by
  have hwhole : whole (.ofWidth 0 0) ts = .ok e := whole_eq_ok_iff.2 h
  rw [whole_eq_ok_iff.2 h'] at hwhole
  cases hwhole
  rfl

theorem Lists.unique {ts : List Token} {es es' : List Placed} (h : Lists true ts es)
    (h' : Lists true ts es') : es = es' := by
  have hgroup : group (.ofWidth 0 0) ts = .ok es := group_eq_ok_iff.2 h
  rw [group_eq_ok_iff.2 h'] at hgroup
  cases hgroup
  rfl

end PlanarMath.Grammar
