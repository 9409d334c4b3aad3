import PlanarMath.Schema

/-!
# Checks that pass

When a combination of checks passes, and with which value: all of its parts pass.  A value that is
written in the form that a check asks for passes it.
-/

namespace PlanarMath.Schema

variable {α β : Type}

/-! ## Combinations -/

@[simp]
theorem inside_eq_ok_iff {step : Step} {x : Checked α} {a : α} : inside step x = .ok a ↔ x = .ok a := by
  cases x <;> simp [inside]

@[simp]
theorem both_eq_ok_iff {x : Checked α} {y : Checked β} {p : α × β} :
    both x y = .ok p ↔ x = .ok p.1 ∧ y = .ok p.2 := by
  obtain ⟨a, b⟩ := p
  cases x <;> cases y <;> simp [both]

@[simp]
theorem map_eq_ok_iff {x : Checked α} {f : α → β} {b : β} : x.map f = .ok b ↔ ∃ a, x = .ok a ∧ f a = b := by
  cases x <;> simp [Except.map]

@[simp]
theorem bind_eq_ok_iff {x : Checked α} {f : α → Checked β} {b : β} :
    x.bind f = .ok b ↔ ∃ a, x = .ok a ∧ f a = .ok b := by
  cases x <;> simp [Except.bind]

@[simp]
theorem fault_ne_ok {cause : Cause} {a : α} : (fault cause : Checked α) ≠ .ok a := nofun

section
variable {key : String} {read : Json → Checked α} {ms : List (String × Json)}

theorem field_eq_ok_iff {a : α} :
    field key read ms = .ok a ↔ ∃ v, Json.member? key ms = some v ∧ read v = .ok a := by
  unfold field
  rw [inside_eq_ok_iff]
  cases Json.member? key ms <;> simp

/-- A member that may be missing is given when it is there and not null. -/
theorem optionalField_eq_ok_some_iff {a : α} :
    optionalField key read ms = .ok (some a) ↔
      ∃ v, Json.member? key ms = some v ∧ v ≠ .null ∧ read v = .ok a := by
  unfold optionalField
  split
  · next h => simp [h]
  · next h => simp [h]
  · next v hne h =>
    rw [inside_eq_ok_iff, map_eq_ok_iff, h]
    constructor
    · rintro ⟨b, hb, hba⟩
      obtain rfl := Option.some.inj hba
      exact ⟨v, rfl, hne, hb⟩
    · rintro ⟨w, hw, -, hr⟩
      obtain rfl := Option.some.inj hw
      exact ⟨a, hr, rfl⟩

theorem optionalField_of_missing (h : Json.member? key ms = none) : optionalField key read ms = .ok none := by
  rw [optionalField, h]

end

/-! ## Single values -/

theorem character_text (c : Char) : character (.text (String.singleton c)) = .ok c := by
  simp [character, text, bind, Except.bind]

theorem fullText_eq_ok_iff {v : Json} {s : String} : fullText v = .ok s ↔ v = .text s ∧ s ≠ "" := by
  cases v with
  | text t =>
    by_cases ht : t = ""
    · simp [fullText, text, bind, Except.bind, ht]
    · simp [fullText, text, bind, Except.bind, ht]
      rintro rfl
      exact ht
  | _ => simp [fullText, text, bind, Except.bind, fault]

theorem oneOf_text {ofText? : String → Option α} {s : String} {a : α} (h : ofText? s = some a) :
    oneOf ofText? (.text s) = .ok a := by
  rw [oneOf, h]

theorem natural_eq_ok_iff {v : Json} {n : Nat} : natural v = .ok n ↔ integer v = .ok (n : Int) := by
  unfold natural
  cases h : integer v with
  | error issues => simp [bind, Except.bind]
  | ok m =>
    cases m with
    | ofNat m =>
      simp only [bind, Except.bind, Except.ok.injEq]
      exact Int.ofNat_inj.symm
    | negSucc m => simp [bind, Except.bind, fault]

theorem number_ofNumber (v : Number) : number (.ofNumber v) = .ok v := by
  cases v <;> rfl

end PlanarMath.Schema
