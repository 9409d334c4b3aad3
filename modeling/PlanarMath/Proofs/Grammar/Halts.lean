import PlanarMath.Proofs.Grammar.Lookahead

/-!
# Where rows stop being read

A row is read when all of its tokens are taken.  When it is not, the token complained of is the first that
is in the way: the tokens before it can be the start of a row that is read, and no such row starts with them
and that token (`Place`).  A complaint about the end of the input says that the tokens can be the start of
such a row.

    2 + * 3      at the *:  2 + 3 is read, nothing that starts with 2 + * is
    2 +          at the end:  2 + 3 is read, 2 + is not
-/

namespace PlanarMath.Grammar

/-- The complaint of a halt names the first of the tokens that were not taken, or the superscript that was
taken last. -/
inductive Blames (stop : Range) : List Token → Halt → Prop
  | unexpected (used rest) : Blames stop (used ++ rest) (unexpected stop rest)
  | exponent (used exponent raised rest) :
      Blames stop (used ++ .superscript exponent raised :: rest) ⟨⟨.ambiguousExponent, raised⟩, rest⟩

/-- The place of a halt between the tokens before it and the tokens from there on, among the rows that are
read. -/
structure Place (stop : Range) (reads : List Token → Prop) (before rest : List Token) (h : Halt) : Prop where
  stopsAt : StopsAt stop rest h
  /-- The tokens before can be the start of a row. -/
  hopeful : ∃ more, reads (before ++ more)
  /-- With the token complained of they cannot. -/
  hopeless : ∀ t us, rest = t :: us → ∀ us', ¬reads (before ++ t :: us')

section
variable {α : Type} {stop : Range} {f : List Token → Except Halt (α × List Token)} {ts rest : List Token}
  {h : Halt}

theorem StopsAt.blames (hs : StopsAt stop rest h) (before : List Token) : Blames stop (before ++ rest) h := by
  cases hs with
  | unexpected => exact .unexpected before rest
  | exponent x raised rest => exact .exponent before x raised rest

/-- The range of a complaint is that of a token, or of the end of the input. -/
theorem Blames.range (hb : Blames stop ts h) :
    h.diagnostic.range = stop ∨ ∃ t ∈ ts, h.diagnostic.range = t.range := by
  cases hb with
  | unexpected used rest =>
    cases rest with
    | nil => exact .inl rfl
    | cons t rest =>
      refine .inr ⟨t, by simp, ?_⟩
      cases t <;> rfl
  | exponent used x r rest => exact .inr ⟨.superscript x r, by simp, rfl⟩

theorem Place.congr {reads reads' : List Token → Prop} (hr : ∀ ts, reads ts ↔ reads' ts)
    {before : List Token} (hp : Place stop reads before rest h) : Place stop reads' before rest h where
  stopsAt := hp.stopsAt
  hopeful := hp.hopeful.imp fun _ => (hr _).1
  hopeless t us ht us' hread := hp.hopeless t us ht us' ((hr _).2 hread)

/-! ## To the end of the input -/

/-- A reader that has to take all tokens. -/
def toEnd (stop : Range) (f : List Token → Except Halt (α × List Token)) (ts : List Token) :
    Except Halt (α × List Token) :=
  andThen (f ts) fun a us => if us.isEmpty then .ok (a, us) else .error (unexpected stop us)

theorem exact_toEnd (hf : Exact stop f ts) : Exact stop (toEnd stop f) ts := by
  refine hf.andThen (fun a us _ => ?_) (fun a _ => ⟨a, rfl⟩) (fun a halt _ h => by cases h)
  cases us with
  | nil =>
    refine (Exact.pure a []).congr (fun us hu => ?_) (fun _ _ h => by cases h)
    rw [List.head?_eq_none_iff.1 hu]
    rfl
  | cons t us => exact .unexpected (fun _ => rfl) us

/-- **Places.**  A reader that looks no further than it has to, and has to take all tokens, complains in the
right place. -/
theorem exists_place (hf : ∀ ts, Exact stop f ts) (hts : toEnd stop f ts = .error h) :
    ∃ before rest, ts = before ++ rest ∧
      Place stop (fun ts => ∃ p, toEnd stop f ts = .ok p) before rest h := by
  obtain ⟨before, rest, rfl, hs⟩ := (exact_toEnd (hf ts)).stops h hts
  refine ⟨before, rest, rfl, hs.stopsAt, ?_, ?_⟩
  · cases hb : toEnd stop f before with
    | ok p => exact ⟨[], p, by rwa [List.append_nil]⟩
    | error h' =>
      obtain ⟨used, ahead, rfl, hs'⟩ := (exact_toEnd (hf before)).stops h' hb
      cases ahead with
      | nil =>
        obtain ⟨a, ha⟩ := hs'.hopeful rfl
        exact ⟨[filler], (a, []), by rwa [List.append_nil]⟩
      | cons t us =>
        -- a token in the way of what is before would be in the way of all tokens
        obtain ⟨h'', hts', hs''⟩ := hs'.hopeless t us rfl (us ++ rest)
        rw [List.append_assoc, List.cons_append, hts'] at hts
        cases hts
        have hlen := hs''.length_eq.trans hs.stopsAt.length_eq.symm
        simp only [List.length_cons, List.length_append] at hlen
        omega
  · rintro t us rfl us' ⟨p, hp⟩
    obtain ⟨h', hts', -⟩ := hs.hopeless t us rfl us'
    rw [hp] at hts'
    cases hts'

/-! ## Expressions and groups -/

theorem map_eq_error {β : Type} {r : Except Halt α} {φ : α → β} : r.map φ = .error h ↔ r = .error h := by
  cases r <;> simp [Except.map]

theorem map_isOk_iff {β : Type} {r : Except Halt α} {φ : α → β} :
    (∃ b, r.map φ = .ok b) ↔ ∃ a, r = .ok a := by
  cases r <;> simp [Except.map]

theorem whole_eq (stop : Range) (ts : List Token) :
    whole stop ts = (toEnd stop (fun ts => (expression stop lowest ts).view) ts).map (·.1) := by
  show _ = Except.map _ (andThen (expression stop lowest ts).view _)
  unfold whole
  cases expression stop lowest ts with
  | error h => rfl
  | ok p =>
    simp only [Outcome.view, andThen_ok]
    split <;> rfl

theorem group_eq (stop : Range) (ts : List Token) :
    group stop ts = (toEnd stop (fun ts => (items stop ts).view) ts).map (·.1) := by
  show _ = Except.map _ (andThen (items stop ts).view _)
  unfold group
  cases items stop ts with
  | error h => rfl
  | ok p =>
    simp only [Outcome.view, andThen_ok]
    split <;> rfl

theorem whole_place (hw : whole stop ts = .error h) :
    ∃ before rest, ts = before ++ rest ∧ Place stop (fun ts => ∃ e, whole stop ts = .ok e) before rest h := by
  rw [whole_eq, map_eq_error] at hw
  obtain ⟨before, rest, hts, hp⟩ := exists_place (exact_expression stop lowest) hw
  exact ⟨before, rest, hts, hp.congr fun us => by rw [whole_eq, map_isOk_iff]⟩

theorem group_place (hg : group stop ts = .error h) :
    ∃ before rest, ts = before ++ rest ∧ Place stop (fun ts => ∃ es, group stop ts = .ok es) before rest h := by
  rw [group_eq, map_eq_error] at hg
  obtain ⟨before, rest, hts, hp⟩ := exists_place (exact_items stop) hg
  exact ⟨before, rest, hts, hp.congr fun us => by rw [group_eq, map_isOk_iff]⟩

theorem whole_blames (hw : whole stop ts = .error h) : Blames stop ts h := by
  obtain ⟨before, rest, rfl, hp⟩ := whole_place hw
  exact hp.stopsAt.blames before

theorem group_blames (hg : group stop ts = .error h) : Blames stop ts h := by
  obtain ⟨before, rest, rfl, hp⟩ := group_place hg
  exact hp.stopsAt.blames before

end

end PlanarMath.Grammar
