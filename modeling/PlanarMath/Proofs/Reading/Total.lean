import PlanarMath.Proofs.Reading.Rows

/-!
# Reading always gives an expression

The one construction of reading that can be refused is a name, which may not be empty.  Under a table whose
functions all have names nothing is refused, so reading a row, wherever it starts, gives an expression
whatever the row is.

    a row from b on      b ≥ 0
    a group from b on    b ≥ 1, since the glyph before it is a part of it
-/

namespace PlanarMath

namespace Report

variable {α β : Type}

/-- An operation that was not stopped by a fault. -/
def IsOk (r : Report α) : Prop := ∃ a, r.result = .ok a

theorem IsOk.andThen {r : Report α} (hr : r.IsOk) {f : α → Report β} (hf : ∀ a, (f a).IsOk) :
    (r.andThen f).IsOk := by
  obtain ⟨found, result⟩ := r
  obtain ⟨a, rfl⟩ := hr
  exact hf a

theorem IsOk.map {r : Report α} (hr : r.IsOk) (f : α → β) : (r.map f).IsOk := by
  obtain ⟨found, result⟩ := r
  obtain ⟨a, rfl⟩ := hr
  exact ⟨f a, rfl⟩

end Report

theorem Range.between_eq_ok {start stop : Nat} (h : start ≤ stop) :
    between start stop = .ok ⟨start, stop, h⟩ := by
  have natural : ∀ n : Nat, Schema.natural (.int n) = .ok n := fun n => rfl
  unfold between
  rw [natural, natural]
  exact dif_pos h

namespace Reading

open Layout Token

variable {o : Options}

/-- An operation that was not stopped has found something and has a result. -/
theorem exists_of_isOk {α : Type} {r : Report α} (h : r.IsOk) : ∃ found a, r = ⟨found, .ok a⟩ := by
  obtain ⟨found, result⟩ := r
  obtain ⟨a, rfl⟩ := h
  exact ⟨found, a, rfl⟩

theorem merge_isOk (ho : o.functions.HasNames) (ts : List Token) : (merge o ts).IsOk := by
  obtain ⟨us, hu⟩ := exists_mergeWords ho ts
  unfold merge
  rw [hu]
  exact ⟨_, rfl⟩

theorem orError_isOk (region : Range) (r : Except Grammar.Halt Placed) : (orError region r).IsOk := by
  cases r <;> exact ⟨_, rfl⟩

/-- A row whose tokens are known is read. -/
theorem frameContent_isOk (ho : o.functions.HasNames) (frame : Frame) (region outer : Range)
    (ts : List Token) : (frameContent o frame region outer ts).IsOk := by
  unfold frameContent
  refine (merge_isOk ho ts).andThen fun us => ?_
  cases frame <;> exact orError_isOk _ _

mutual

theorem elementToken_isOk (ho : o.functions.HasNames) (level i : Nat) :
    ∀ x : Element, (elementToken o level i x).IsOk
  | .glyph c => ⟨_, rfl⟩
  | .fraction numerator denominator => by
    rw [elementToken]
    have content : ∀ (region : Range) (ts : List Token),
        ((merge o ts).andThen (asExpression region)).IsOk :=
      fun region ts => (merge_isOk ho ts).andThen fun us => orError_isOk _ _
    split
    · exact ⟨_, rfl⟩
    · refine Report.IsOk.andThen ?_ fun num => Report.IsOk.map ?_ _
      · exact (rowTokens_isOk ho (level + 1) _ numerator).andThen (content _)
      · exact (rowTokens_isOk ho (level + 1) _ denominator).andThen (content _)
  | .framed frame body => by
    rw [elementToken]
    split
    · exact ⟨_, rfl⟩
    · exact ((rowTokens_isOk ho (level + 1) _ body).andThen (frameContent_isOk ho frame _ _)).map _

theorem rowTokens_isOk (ho : o.functions.HasNames) (level i : Nat) :
    ∀ xs : List Element, (rowTokens o level i xs).IsOk
  | [] => ⟨_, rfl⟩
  | x :: xs => by
    rw [rowTokens]
    exact (elementToken_isOk ho level i x).andThen fun t => (rowTokens_isOk ho level _ xs).map _

end

theorem tokens_isOk (ho : o.functions.HasNames) (i : Nat) (r : Row) : (tokens o i r).IsOk :=
  (rowTokens_isOk ho 0 i r).andThen (merge_isOk ho)

theorem expression_isOk (ho : o.functions.HasNames) (i : Nat) (r : Row) : (expression o i r).IsOk :=
  (tokens_isOk ho i r).andThen fun _ => orError_isOk _ _

/-! ## Rows from an index on -/

/-- The glyph before a row that starts after the first index has an index as well. -/
theorem between_around (i : Nat) (r : Row) :
    Range.between (((i + 1 : Nat) : Int) - 1) (((i + 1 : Nat) : Int) + Row.width r + 1) =
      .ok (.ofWidth i (Row.width r + 2)) := by
  have hstart : ((i + 1 : Nat) : Int) - 1 = (i : Nat) := by omega
  have hstop : ((i + 1 : Nat) : Int) + Row.width r + 1 = (i + (Row.width r + 2) : Nat) := by omega
  rw [hstart, hstop]
  exact Range.between_eq_ok (by omega)

/-- A group that starts after the first index is read from its tokens. -/
theorem group_succ (o : Options) (i : Nat) (r : Row) :
    group o (i + 1) r =
      (tokens o (i + 1) r).andThen (asGroup (regionOf (i + 1) r) (.ofWidth i (Row.width r + 2))) := by
  unfold group
  rw [between_around]

theorem group_isOk (ho : o.functions.HasNames) (i : Nat) (r : Row) : (group o (i + 1) r).IsOk := by
  rw [group_succ]
  exact (tokens_isOk ho (i + 1) r).andThen fun ts => orError_isOk _ _

/-- The group of a row, wherever it starts after the first index. -/
theorem Anchored.rowGroup {token : Nat → Element → List Diagnostic → Token → Prop}
    {content grouping : Nat → List Element → List Diagnostic → Placed → Prop}
    (ha : Anchored o token content grouping) {i : Nat} {r : Row} {found : List Diagnostic} {e : Placed}
    (h : Reading.group o (i + 1) r = ⟨found, .ok e⟩) : grouping i r found e := by
  rw [group_succ, tokens, Report.andThen_assoc] at h
  exact ha.group_of_aligned (fun _ _ => ha.rowTokens 0 (i + 1) r) h

theorem start_natural (i : Nat) (r : Row) : start i r = .ok i := by
  unfold start
  have h : (i : Int) + (r.head?.map Element.width).getD 0 =
      (i + (r.head?.map Element.width).getD 0 : Nat) := by
    cases r <;> simp
  rw [h, Range.between_eq_ok (Nat.le_add_right _ _)]

theorem expressionAt_natural (o : Options) (i : Nat) (r : Row) : expressionAt o i r = expression o i r := by
  unfold expressionAt
  rw [start_natural]
  exact Report.ok_andThen i _

theorem groupAt_natural (o : Options) (i : Nat) (r : Row) : groupAt o i r = group o i r := by
  unfold groupAt
  rw [start_natural]
  exact Report.ok_andThen i _

theorem expressionAt_isOk (ho : o.functions.HasNames) (i : Nat) (r : Row) :
    (expressionAt o i r).IsOk := by
  rw [expressionAt_natural]
  exact expression_isOk ho i r

theorem groupAt_isOk (ho : o.functions.HasNames) (i : Nat) (r : Row) :
    (groupAt o (i + 1 : Nat) r).IsOk := by
  rw [groupAt_natural]
  exact group_isOk ho i r

theorem marksAt_isOk (ho : o.functions.HasNames) (i : Nat) (r : Row) : (marksAt o i r).IsOk := by
  unfold marksAt
  rw [start_natural]
  exact Report.IsOk.andThen ⟨i, rfl⟩ fun j => (tokens_isOk ho j r).map _

end Reading

/-- Reading a layout gives an expression. -/
theorem readLayout_isOk {o : Options} (ho : o.functions.HasNames) (r : Layout.Row) :
    (readLayout o r).IsOk := Reading.expression_isOk ho 0 r

end PlanarMath
