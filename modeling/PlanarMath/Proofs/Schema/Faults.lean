import Mathlib.Data.List.Forall2
import Mathlib.Data.List.Lex
import Mathlib.Data.List.Sort
import PlanarMath.Proofs.Schema.Checks

/-!
# Checks that report every fault

What a check takes and what it reports, as one statement (`Accounts`): which values it gives, which faults it
finds at which places, and that it reports each of these once, in the order of the document.  The statement
passes from the parts of a check to their combination.

    both a b         takes what both take, and finds the faults of both       (`Accounts.both`)
    field key a      a part that has to be there                              (`Accounts.field`, `InField`)
    listOf a         every item of a list                                     (`Accounts.listOf`, `InList`)
    a.bind rule      a rule about the whole, once the parts are sound         (`Accounts.bind`)

The order of the document is that of paths, step by step; which of two steps from one place comes first is left
open here.
-/

namespace PlanarMath.Schema

variable {α β : Type} {before : Step → Step → Prop}

/-! ## The account of a check -/

/-- The faults that a check reports. -/
def faults : Checked α → List Issue
  | .ok _ => []
  | .error issues => issues

/-- One fault stands before another in the document. -/
def Issue.Before (before : Step → Step → Prop) (a b : Issue) : Prop := List.Lex before a.path b.path

instance [Std.Asymm before] : Std.Asymm (Issue.Before before) where
  asymm a b := (inferInstance : Std.Asymm (List.Lex before)).asymm a.path b.path

/-- A check gives just the valid values, and otherwise reports just the faults there are, in the order of the
document. -/
structure Accounts (before : Step → Step → Prop) (x : Checked α) (Valid : α → Prop)
    (FaultAt : List Step → Cause → Prop) : Prop where
  passes : ∀ a, x = .ok a ↔ Valid a
  /-- A check that fails has something to report. -/
  fails : x ≠ .error []
  complete : ∀ issue, issue ∈ faults x ↔ FaultAt issue.path issue.cause
  ordered : (faults x).Pairwise (Issue.Before before)

namespace Accounts

variable {x : Checked α} {y : Checked β} {Valid Valid' : α → Prop} {Other : β → Prop}
  {FaultAt FaultAt' OtherAt : List Step → Cause → Prop}

theorem congr (h : Accounts before x Valid FaultAt) (hvalid : ∀ a, Valid a ↔ Valid' a)
    (hfault : ∀ path cause, FaultAt path cause ↔ FaultAt' path cause) : Accounts before x Valid' FaultAt' where
  passes a := (h.passes a).trans (hvalid a)
  fails := h.fails
  complete issue := (h.complete issue).trans (hfault _ _)
  ordered := h.ordered

/-- Of a sorted list without repetition, the members tell the list. -/
theorem eq_error_iff [Std.Asymm before] (h : Accounts before x Valid FaultAt) {issues : List Issue} :
    x = .error issues ↔ issues ≠ [] ∧ (issues.map (·.path)).Nodup ∧ issues.Pairwise (Issue.Before before) ∧
      ∀ issue, issue ∈ issues ↔ FaultAt issue.path issue.cause := by
  constructor
  · rintro rfl
    refine ⟨fun hnil => h.fails (congrArg _ hnil), ?_, h.ordered, h.complete⟩
    refine List.pairwise_map.2 (h.ordered.imp fun {a b} hab hpath => ?_)
    rw [Issue.Before, hpath] at hab
    exact irrefl_of (List.Lex before) _ hab
  · rintro ⟨hne, -, hordered, hcomplete⟩
    have hmem : ∀ issue, issue ∈ issues ↔ issue ∈ faults x := fun issue =>
      (hcomplete issue).trans (h.complete issue).symm
    have heq : issues = faults x := hordered.eq_of_mem_iff h.ordered hmem
    cases x with
    | ok a => exact absurd heq hne
    | error reported => rw [heq, faults]

/-! ## Single checks -/

theorem ok (a : α) : Accounts before (.ok a) (a = ·) (fun _ _ => False) where
  passes b := by simp
  fails := nofun
  complete issue := by simp [faults]
  ordered := .nil

theorem fault (cause : Cause) : Accounts before (Schema.fault cause : Checked α) (fun _ => False)
    (fun path c => path = [] ∧ c = cause) where
  passes a := by simp
  fails := nofun
  complete := fun ⟨path, c⟩ => by simp [faults, Schema.fault]
  ordered := List.pairwise_singleton ..

/-! ## Combinations -/

theorem inside (h : Accounts before x Valid FaultAt) (step : Step) :
    Accounts before (Schema.inside step x) Valid
      (fun path cause => ∃ rest, path = step :: rest ∧ FaultAt rest cause) := by
  have hfaults : faults (Schema.inside step x) = (faults x).map fun i => ⟨step :: i.path, i.cause⟩ := by
    cases x <;> rfl
  refine ⟨fun a => by rw [inside_eq_ok_iff, h.passes], ?fails, ?complete, ?ordered⟩
  case fails =>
    have := h.fails
    cases x <;> simp_all [Schema.inside]
  case complete =>
    rintro ⟨path, cause⟩
    simp only [hfaults, List.mem_map, h.complete, Issue.mk.injEq]
    constructor
    · rintro ⟨issue, hissue, rfl, rfl⟩
      exact ⟨_, rfl, hissue⟩
    · rintro ⟨rest, rfl, hrest⟩
      exact ⟨⟨rest, cause⟩, hrest, rfl, rfl⟩
  case ordered =>
    rw [hfaults, List.pairwise_map]
    exact h.ordered.imp .cons

/-- The faults of both parts, those of the first part first. -/
theorem both (h : Accounts before x Valid FaultAt) (k : Accounts before y Other OtherAt)
    (horder : ∀ p c q d, FaultAt p c → OtherAt q d → List.Lex before p q) :
    Accounts before (Schema.both x y) (fun p => Valid p.1 ∧ Other p.2)
      (fun path cause => FaultAt path cause ∨ OtherAt path cause) := by
  have hfaults : faults (Schema.both x y) = faults x ++ faults y := by
    cases x <;> cases y <;> simp [Schema.both, faults]
  refine ⟨fun p => by rw [both_eq_ok_iff, h.passes, k.passes], ?fails, fun issue => ?complete, ?ordered⟩
  case fails =>
    have := h.fails
    have := k.fails
    cases x <;> cases y <;> simp_all [Schema.both]
  case complete => rw [hfaults, List.mem_append, h.complete, k.complete]
  case ordered =>
    rw [hfaults, List.pairwise_append]
    exact ⟨h.ordered, k.ordered, fun a ha b hb => horder _ _ _ _ ((h.complete a).1 ha) ((k.complete b).1 hb)⟩

/-- A further check of what was found valid; its faults only come up when all is valid so far. -/
theorem bind {f : α → Checked β} {After : α → β → Prop} {AfterAt : α → List Step → Cause → Prop}
    (h : Accounts before x Valid FaultAt) (k : ∀ a, Valid a → Accounts before (f a) (After a) (AfterAt a)) :
    Accounts before (x.bind f) (fun b => ∃ a, Valid a ∧ After a b)
      (fun path cause => FaultAt path cause ∨ ∃ a, Valid a ∧ AfterAt a path cause) := by
  cases x with
  | ok a =>
    have hvalid : ∀ b, Valid b ↔ a = b := fun b => by rw [← h.passes, Except.ok.injEq]
    have hnone : ∀ path cause, ¬FaultAt path cause := fun path cause hfault =>
      List.not_mem_nil ((h.complete ⟨path, cause⟩).2 hfault)
    refine (k a ((hvalid a).2 rfl)).congr (fun b => ?_) fun path cause => ?_
    · simp [hvalid]
    · simp [hvalid, hnone]
  | error issues =>
    have hvalid : ∀ a, ¬Valid a := fun a ha => nomatch (h.passes a).2 ha
    have hbind : Except.bind (.error issues) f = .error issues := rfl
    rw [hbind]
    refine ⟨fun b => by simp [hvalid], fun hnil => ?_, fun issue => ?_, h.ordered⟩
    · exact h.fails (congrArg _ (Except.error.inj hnil))
    · simp only [hvalid, false_and, exists_false, or_false]
      exact h.complete issue

theorem map (h : Accounts before x Valid FaultAt) (f : α → β) :
    Accounts before (x.map f) (fun b => ∃ a, Valid a ∧ f a = b) FaultAt := by
  have hmap : x.map f = x.bind fun a => .ok (f a) := by cases x <;> rfl
  rw [hmap]
  exact (h.bind fun a _ => .ok (f a)).congr (fun b => Iff.rfl) fun path cause => by simp

end Accounts

/-! ## Members and items -/

/-- The faults of a part of a record that has to be there: it is not, or it has a fault itself. -/
inductive InField (key : String) (bad : Json → List Step → Cause → Prop) : Json → List Step → Cause → Prop
  | missing {ms} : Json.member? key ms = none → InField key bad (.object ms) [.key key] .missing
  | within {ms v path cause} : Json.member? key ms = some v → bad v path cause →
      InField key bad (.object ms) (.key key :: path) cause

theorem Accounts.field {key : String} {ms : List (String × Json)} {read : Json → Checked α}
    {valid : Json → α → Prop} {bad : Json → List Step → Cause → Prop}
    (h : ∀ v, Json.member? key ms = some v → Accounts before (read v) (valid v) (bad v)) :
    Accounts before (Schema.field key read ms) (fun a => ∃ v, Json.member? key ms = some v ∧ valid v a)
      (InField key bad (.object ms)) := by
  unfold Schema.field
  cases hm : Json.member? key ms with
  | none =>
    refine ((Accounts.fault .missing).inside (.key key)).congr (fun a => by simp) fun path cause => ?_
    constructor
    · rintro ⟨rest, rfl, rfl, rfl⟩
      exact .missing hm
    · intro hfault
      cases hfault with
      | missing => exact ⟨[], rfl, rfl, rfl⟩
      | within hv => rw [hm] at hv; cases hv
  | some v =>
    refine ((h v hm).inside (.key key)).congr (fun a => by simp) fun path cause => ?_
    constructor
    · rintro ⟨rest, rfl, hrest⟩
      exact .within hm hrest
    · intro hfault
      cases hfault with
      | missing hnone => rw [hm] at hnone; cases hnone
      | within hv hbad =>
        rw [hm] at hv
        cases hv
        exact ⟨_, rfl, hbad⟩

/-- Every item of a list is checked, from a position on. -/
def each (check : Json → Checked α) (i : Nat) : List Json → Checked (List α)
  | [] => .ok []
  | v :: vs => (both (inside (.index i) (check v)) (each check (i + 1) vs)).map fun (a, as) => a :: as

/-- A list whose items are checked. -/
def listOf (check : Json → Checked α) : Json → Checked (List α)
  | .array items => each check 0 items
  | _ => fault .notList

/-- The faults of a list: it is none, or an item has a fault. -/
inductive InList (bad : Json → List Step → Cause → Prop) : Json → List Step → Cause → Prop
  | notList {v} : (∀ items, v ≠ .array items) → InList bad v [] .notList
  | item {items i item path cause} : items[i]? = some item → bad item path cause →
      InList bad (.array items) (.index i :: path) cause

section
variable {check : Json → Checked α} {valid : Json → α → Prop} {bad : Json → List Step → Cause → Prop}

theorem Accounts.each (hindex : ∀ i j, i < j → before (.index i) (.index j)) {vs : List Json}
    (h : ∀ v ∈ vs, Accounts before (check v) (valid v) (bad v)) (i : Nat) :
    Accounts before (Schema.each check i vs) (List.Forall₂ valid vs)
      (fun path cause => ∃ j v rest, vs[j]? = some v ∧ path = .index (i + j) :: rest ∧ bad v rest cause) := by
  induction vs generalizing i with
  | nil => exact (Accounts.ok []).congr (fun as => by simp [eq_comm]) fun path cause => by simp
  | cons v vs ih =>
    obtain ⟨hv, hvs⟩ := List.forall_mem_cons.1 h
    refine (((hv.inside (.index i)).both (ih hvs (i + 1)) ?order).map _).congr (fun as => ?_) fun path cause => ?_
    case order =>
      rintro _ _ _ _ ⟨rest, rfl, -⟩ ⟨j, w, rest', -, rfl, -⟩
      exact .rel (hindex _ _ (by omega))
    · constructor
      · rintro ⟨⟨a, as⟩, ⟨ha, has⟩, rfl⟩
        exact .cons ha has
      · rintro (_ | ⟨ha, has⟩)
        exact ⟨(_, _), ⟨ha, has⟩, rfl⟩
    · constructor
      · rintro (⟨rest, rfl, hbad⟩ | ⟨j, w, rest, hw, rfl, hbad⟩)
        · exact ⟨0, v, rest, rfl, rfl, hbad⟩
        · exact ⟨j + 1, w, rest, hw, by rw [Nat.add_right_comm, Nat.add_assoc], hbad⟩
      · rintro ⟨_ | j, w, rest, hw, rfl, hbad⟩
        · cases hw
          exact .inl ⟨rest, rfl, hbad⟩
        · exact .inr ⟨j, w, rest, hw, by rw [Nat.add_right_comm, Nat.add_assoc], hbad⟩

theorem Accounts.listOf (hindex : ∀ i j, i < j → before (.index i) (.index j)) {v : Json}
    (h : ∀ items, v = .array items → ∀ item ∈ items, Accounts before (check item) (valid item) (bad item)) :
    Accounts before (Schema.listOf check v) (fun as => ∃ items, v = .array items ∧ List.Forall₂ valid items as)
      (InList bad v) := by
  by_cases hv : ∃ items, v = .array items
  · obtain ⟨items, rfl⟩ := hv
    refine (Accounts.each hindex (h items rfl) 0).congr (fun as => by simp) fun path cause => ?_
    constructor
    · rintro ⟨j, w, rest, hw, rfl, hbad⟩
      rw [Nat.zero_add]
      exact .item hw hbad
    · intro hfault
      cases hfault with
      | notList hnot => exact absurd rfl (hnot items)
      | item hw hbad => exact ⟨_, _, _, hw, by rw [Nat.zero_add], hbad⟩
  · have hnot : ∀ items, v ≠ .array items := fun items heq => hv ⟨items, heq⟩
    have hlist : Schema.listOf check v = Schema.fault .notList := by
      unfold Schema.listOf
      split
      · next items => exact absurd rfl (hnot items)
      · rfl
    rw [hlist]
    refine (Accounts.fault .notList).congr (fun as => by simp [hnot]) fun path cause => ?_
    constructor
    · rintro ⟨rfl, rfl⟩
      exact .notList hnot
    · intro hfault
      cases hfault with
      | notList => exact ⟨rfl, rfl⟩
      | item => exact absurd rfl (hnot _)

end

/-! ## Single values -/

/-- Why a value is no single character. -/
inductive NotCharacter (v : Json) : Cause → Prop
  | notText : (∀ s, v ≠ .text s) → NotCharacter v .notText
  | empty : v = .text "" → NotCharacter v .emptyText
  | long {s} : v = .text s → 1 < s.length → NotCharacter v .longText

theorem notCharacter_text_iff {s : String} {cause : Cause} : NotCharacter (.text s) cause ↔
    s = "" ∧ cause = .emptyText ∨ 1 < s.length ∧ cause = .longText := by
  constructor
  · intro h
    cases h with
    | notText hnot => exact absurd rfl (hnot s)
    | empty heq => exact .inl ⟨Json.text.inj heq, rfl⟩
    | long heq hlong => exact .inr ⟨Json.text.inj heq ▸ hlong, rfl⟩
  · rintro (⟨rfl, rfl⟩ | ⟨hlong, rfl⟩)
    · exact .empty rfl
    · exact .long rfl hlong

theorem notCharacter_of_notText {v : Json} (h : ∀ s, v ≠ .text s) {cause : Cause} :
    NotCharacter v cause ↔ cause = .notText := by
  constructor
  · intro hv
    cases hv with
    | notText => rfl
    | empty heq => exact absurd heq (h _)
    | long heq => exact absurd heq (h _)
  · rintro rfl
    exact .notText h

theorem character_ofList (cs : List Char) : Schema.character (.text (String.ofList cs)) = match cs with
    | [] => fault .emptyText
    | [c] => .ok c
    | _ => fault .longText := by
  rcases cs with _ | ⟨c, _ | ⟨d, cs⟩⟩ <;> simp [Schema.character, text, bind, Except.bind]

theorem Accounts.character (v : Json) : Accounts before (Schema.character v)
    (fun c => v = .text (String.singleton c)) (fun path cause => path = [] ∧ NotCharacter v cause) := by
  cases v with
  | text s =>
    obtain ⟨cs, rfl⟩ : ∃ cs, s = String.ofList cs := ⟨s.toList, by simp⟩
    have hsingle : ∀ c, String.singleton c = String.ofList [c] := fun c => by simp
    simp only [character_ofList, notCharacter_text_iff, Json.text.injEq, hsingle, String.ofList_inj]
    match cs with
    | [] => exact (Accounts.fault .emptyText).congr (fun c => by simp) fun path cause => by simp
    | [c] => exact (Accounts.ok c).congr (fun d => by simp) fun path cause => by simp
    | c :: d :: cs =>
      have hne : String.ofList (c :: d :: cs) ≠ "" := by simp
      have hlong : 1 < (String.ofList (c :: d :: cs)).length := by
        simp only [String.length_ofList, List.length_cons]
        omega
      exact (Accounts.fault .longText).congr (fun c => by simp) fun path cause => by
        simp only [hne, hlong, false_and, true_and, false_or]
  | _ =>
    refine (Accounts.fault .notText).congr (fun c => by simp) fun path cause => ?_
    rw [notCharacter_of_notText fun s heq => Json.noConfusion heq]

theorem Accounts.oneOf {ofText? : String → Option α} {name : α → String}
    (h : ∀ s a, ofText? s = some a ↔ s = name a) (v : Json) : Accounts before (Schema.oneOf ofText? v)
    (fun a => v = .text (name a))
    (fun path cause => path = [] ∧ cause = .unknownName ∧ ∀ a, v ≠ .text (name a)) := by
  cases v with
  | text s =>
    cases hs : ofText? s with
    | some a =>
      have hcheck : Schema.oneOf ofText? (.text s) = .ok a := oneOf_text hs
      have hname : ∀ b, a = b ↔ s = name b := fun b => by rw [← h, hs, Option.some.injEq]
      rw [hcheck]
      exact (Accounts.ok a).congr (fun b => by simp [hname]) fun path cause => by simp [← hname]
    | none =>
      have hcheck : Schema.oneOf ofText? (.text s) = Schema.fault .unknownName := by rw [Schema.oneOf, hs]
      have hname : ∀ b, s ≠ name b := fun b hb => by simp [(h s b).2 hb] at hs
      rw [hcheck]
      exact (Accounts.fault .unknownName).congr (fun b => by simp [hname]) fun path cause => by simp [hname]
  | _ => exact (Accounts.fault .unknownName).congr (fun b => by simp) fun path cause => by simp

end PlanarMath.Schema
