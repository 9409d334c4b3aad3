import PlanarMath.Number.Basic

/-!
# JSON values

Values with the members of an object in order.  A key that is written again keeps its first place and
takes the new value (`put`), so the keys of an object that was read are distinct.
-/

namespace PlanarMath

/-- A JSON value; numbers without fraction and exponent are integers of any size. -/
inductive Json where
  | null
  | bool (b : Bool)
  | int (n : Int)
  | real (x : Binary64)
  | text (s : String)
  | array (items : List Json)
  | object (members : List (String × Json))
  deriving Repr, Inhabited

namespace Json

section
variable {κ α : Type} [DecidableEq κ]

/-- The members of an object after `key` is given the value `v`. -/
def put (key : κ) (v : α) : List (κ × α) → List (κ × α)
  | [] => [(key, v)]
  | (k, w) :: rest => if k = key then (k, v) :: rest else (k, w) :: put key v rest

/-- The members of an object after others were put in, one after another. -/
def putAll (known ms : List (κ × α)) : List (κ × α) := ms.foldl (fun ms m => put m.1 m.2 ms) known

/-- The value of a key in a list of members. -/
def member? (key : κ) : List (κ × α) → Option α
  | [] => none
  | (k, v) :: rest => if k = key then some v else member? key rest

end

/-- The value of a key, when the value is an object that has it. -/
def get? (key : String) : Json → Option Json
  | .object members => member? key members
  | _ => none

mutual

/-- Whether every integer of a value has no more digits than can be written. -/
def isShort : Json → Bool
  | .int n => Literal.isShort n
  | .array items => areShort items
  | .object members => membersAreShort members
  | _ => true

/-- Whether all items of a list are such values. -/
def areShort : List Json → Bool
  | [] => true
  | v :: vs => v.isShort && areShort vs

/-- Whether the values of all members are such values. -/
def membersAreShort : List (String × Json) → Bool
  | [] => true
  | (_, v) :: ms => v.isShort && membersAreShort ms

end

/-- A number of a document as a JSON value. -/
def ofNumber : Number → Json
  | .int n => .int n
  | .real x => .real x

/-- A value that may be missing, as `null` when it is. -/
def ofOption {α : Type} (f : α → Json) : Option α → Json
  | none => .null
  | some a => f a

section
variable {κ α : Type} [DecidableEq κ]

theorem member?_put_self (key : κ) (v : α) (ms : List (κ × α)) :
    member? key (put key v ms) = some v := by
  induction ms with
  | nil => simp [put, member?]
  | cons m ms ih =>
    obtain ⟨k, w⟩ := m
    by_cases h : k = key
    · simp [put, member?, h]
    · simp [put, member?, h, ih]

theorem member?_put_of_ne {key other : κ} (h : other ≠ key) (v : α) (ms : List (κ × α)) :
    member? other (put key v ms) = member? other ms := by
  induction ms with
  | nil => simp [put, member?, h.symm]
  | cons m ms ih =>
    obtain ⟨k, w⟩ := m
    by_cases hk : k = key
    · subst hk
      simp [put, member?, h.symm]
    · by_cases ho : k = other
      · subst ho
        simp [put, member?, h]
      · simp [put, member?, hk, ho, ih]

end

end Json

end PlanarMath
