import PlanarMath.Proofs.Grammar.Completeness
import PlanarMath.Proofs.Grammar.Greedy
import PlanarMath.Proofs.Grammar.Groups
import PlanarMath.Proofs.Reading.Rows

/-!
# Which rows are accepted

Reading a row ends without a complaint of the grammar exactly when the row can be derived, and then gives
the expression of its greedy derivation, ranges included:

    no complaint          iff  some derivation
    the expression is e   iff  a greedy derivation of e

Any operand that is a group is taken for the arguments of a name, also one that is marked as a name itself.  Only
letters become names of functions, so in every row that is read the groups are plain operands, and it does not
matter there which operands can be groups.
-/

namespace PlanarMath

namespace Grammar

/-- Tokens can be read to their end, as one expression or as a group. -/
def Reads (grouped : Bool) (ts : List Token) : Prop :=
  if grouped then ∃ es, Lists false ts es else ∃ e, Derives false .relation ts [] e

theorem whole_isOk_iff {stop : Range} {ts : List Token} : (∃ e, whole stop ts = .ok e) ↔ Reads false ts :=
  (exists_congr fun _ => whole_eq_ok_iff).trans exists_derives_iff.symm

theorem group_isOk_iff {stop : Range} {ts : List Token} : (∃ es, group stop ts = .ok es) ↔ Reads true ts :=
  (exists_congr fun _ => group_eq_ok_iff).trans exists_lists_iff.symm

end Grammar

namespace Reading

open Grammar Layout Token

theorem found_orError {region : Range} {r : Except Halt Placed} :
    (orError region r).found = [] ↔ ∃ e, r = .ok e := by
  cases r <;> simp [orError, Report.ok]

/-- An error has a complaint beside it, so a report without one is a result of the grammar. -/
theorem orError_eq_ok {region : Range} {r : Except Halt Placed} {e : Placed} :
    orError region r = .ok e ↔ r = .ok e := by
  cases r <;> simp [orError, Report.ok]

/-- A token that the grammar cannot take for the name of a function and for a group at once. -/
def isUnambiguous (t : Token) : Bool := !isGroup t || t.isPlainOperand

theorem isUnambiguous_ofNode (node : Placed) : isUnambiguous (.ofNode node) := by
  simp [isUnambiguous, ofNode, isPlainOperand]

/-- The tokens of elements are no names of functions. -/
theorem closed_isUnambiguous (o : Options) :
    Closed o (fun _ _ t => isUnambiguous t) (fun _ _ _ => True) where
  glyph i c := rfl
  deep limit frame? range t found h := by
    simp only [deepToken, Report.mk.injEq, Except.ok.injEq] at h
    obtain ⟨-, rfl⟩ := h
    split <;> rfl
  expression := by intros; trivial
  group := by intros; trivial
  fraction i above below first more num den _ _ := by simp [isUnambiguous, isPlainOperand]
  framed i width frame found inner _ _ := by
    cases frame <;> simp [frameToken, functionOf?, isUnambiguous, isPlainOperand, isGroup]
  grouped i width found inner _ := by simp [isUnambiguous, isPlainOperand]

/-- Merging keeps tokens unambiguous: names and numbers are no groups. -/
theorem isUnambiguous_merge {o : Options} {ts us : List Token} {found : List Diagnostic}
    (h : merge o ts = ⟨found, .ok us⟩) (hts : ∀ t ∈ ts, isUnambiguous t) : ∀ t ∈ us, isUnambiguous t := by
  refine forall_mem_merge h ?_ ?_ ?_ hts
  · intro run name function range _ _
    simp [isUnambiguous, isGroup, symbolIn, Expr.isTuple]
  · intro run v range _ _
    exact isUnambiguous_ofNode _
  · intro range
    exact isUnambiguous_ofNode _

/-- Where no token is ambiguous, it does not matter whether only plain operands can be groups. -/
theorem derivesWith_plainGroup_iff {ts us : List Token} (hts : ∀ t ∈ ts, isUnambiguous t) {greedy : Bool}
    {p : Phrase} {e : Placed} : DerivesWith isPlainGroup greedy p ts us e ↔ Derives greedy p ts us e := by
  refine derivesWith_iff_of_eq fun t ht => ?_
  have h := hts t ht
  unfold isUnambiguous at h
  unfold isPlainGroup
  cases hg : isGroup t with
  | false => rfl
  | true => simpa [hg] using h

/-- **Acceptance.**  On all tokens whatever, a row is read without a complaint of the grammar exactly when
it is a phrase, and a group exactly when it is a list of phrases; what is read is what the greedy
derivation says.  On tokens without an ambiguous one the phrases are those in which only plain operands are
groups, and the tokens of a row are such. -/
theorem accepts_iff_derives (o : Options) :
    (∀ region ts,
      ((asExpression region ts).found = [] ↔ ∃ e, Derives false .relation ts [] e) ∧
      ∀ e, asExpression region ts = .ok e ↔ Derives true .relation ts [] e) ∧
    (∀ region outer ts,
      ((asGroup region outer ts).found = [] ↔ ∃ es, Lists false ts es) ∧
      ∀ e, asGroup region outer ts = .ok e ↔ ∃ es, Lists true ts es ∧ e = tuple outer es) ∧
    (∀ ts, (∀ t ∈ ts, isUnambiguous t) → ∀ greedy p us e,
      DerivesWith isPlainGroup greedy p ts us e ↔ Derives greedy p ts us e) ∧
    ∀ level i xs found us, (rowTokens o level i xs).andThen (merge o) = ⟨found, .ok us⟩ →
      ∀ t ∈ us, isUnambiguous t := by
  refine ⟨fun region ts => ⟨?_, fun e => ?_⟩, fun region outer ts => ⟨?_, fun e => ?_⟩,
    fun ts hts greedy p us e => derivesWith_plainGroup_iff hts, ?_⟩
  · rw [asExpression, found_orError, exists_derives_iff]
    exact exists_congr fun e => whole_eq_ok_iff
  · rw [asExpression, orError_eq_ok, whole_eq_ok_iff]
  · rw [asGroup, found_orError, exists_lists_iff]
    simp only [map_group_eq_ok]
    constructor
    · rintro ⟨_, es, hes, -⟩
      exact ⟨es, hes⟩
    · rintro ⟨es, hes⟩
      exact ⟨_, es, hes, rfl⟩
  · rw [asGroup, orError_eq_ok, map_group_eq_ok]
  · intro level i xs found us h
    obtain ⟨first, ts, more, hts, hus, -⟩ := Report.andThen_eq_ok.1 h
    have hrow : ∀ t ∈ ts, isUnambiguous t :=
      Neighbours.forall_mem ((closed_isUnambiguous o).rowTokens level i xs hts)
    exact isUnambiguous_merge hus hrow

/-- A group that is marked as a name is taken for the arguments of the name before it, although the two are no
phrase when only plain operands are groups.  And a group that starts at the first index, with no place for the glyph
before it, is no list of phrases here and still has no complaint, since reading it is refused. -/
theorem group_marked_as_name_is_read :
    let name : Placed := ⟨.symbol "sin" (some (.ofWidth 0 3)), .ofWidth 0 3, rfl⟩
    let one : Placed := ⟨.number (.int 1) (some (.ofWidth 4 1)), .ofWidth 4 1, rfl⟩
    let ts : List Token :=
      [.operand name true (.ofWidth 0 3), .operand (tuple (.ofWidth 3 3) [one]) true (.ofWidth 3 3)]
    asExpression (.ofWidth 0 6) ts = .ok (name.apply (tuple (.ofWidth 3 3) [one])) ∧
      (asExpression (.ofWidth 0 6) ts).found = [] ∧
      (¬∃ e, DerivesWith isPlainGroup false .relation ts [] e) ∧
      (tokens {} 0 [.glyph '*']).result = .ok [.glyph '*' (.ofWidth 0 1)] ∧ (groupAt {} 0 [.glyph '*']).found = [] ∧
      ¬∃ es, Lists false [.glyph '*' (.ofWidth 0 1)] es := by
  intro name one ts
  have hgreedy : Derives true .relation ts [] (name.apply (tuple (.ofWidth 3 3) [one])) :=
    .ofSum (.ofProduct (.ofFactor (.ofAtom (.groupCall (.itself _) rfl))))
  have hread : asExpression (.ofWidth 0 6) ts = .ok (name.apply (tuple (.ofWidth 3 3) [one])) :=
    orError_eq_ok.2 (whole_eq_ok_iff.2 hgreedy)
  have htokens : tokens {} 0 [.glyph '*'] = ⟨[], .ok [.glyph '*' (.ofWidth 0 1)]⟩ := by cbv
  have hrefused : (groupAt {} 0 [.glyph '*']).found = [] := by
    show (Reading.group {} 0 [.glyph '*']).found = []
    rw [Reading.group, htokens]
    rfl
  refine ⟨hread, congrArg Report.found hread, ?_, by rw [htokens], hrefused, ?_⟩
  · rintro ⟨e, h⟩
    obtain ⟨used, t, hts, ht⟩ := h.exists_last
    have hlast : ts.getLast? = some t := by rw [hts, List.getLast?_concat]
    cases hlast
    cases ht
  · intro hlists
    obtain ⟨es, hes⟩ : ∃ es, Grammar.group (.ofWidth 1 0) [.glyph '*' (.ofWidth 0 1)] = .ok es :=
      group_isOk_iff.2 hlists
    have hnone : Grammar.group (.ofWidth 1 0) [.glyph '*' (.ofWidth 0 1)] =
        .error ⟨⟨.unexpected (.codePoint "*"), .ofWidth 0 1⟩, [.glyph '*' (.ofWidth 0 1)]⟩ := by cbv
    cases hnone.symm.trans hes

end Reading

end PlanarMath
