import Mathlib.Data.List.Induction
import Mathlib.Data.List.Nodup
import PlanarMath.Json.Basic

/-!
# Members that are put in one after another

An object may be written with a key more than once.  It keeps the key where it is written first, with the value
that is written last, so its members are not those that are written:

    {"a": 1, "b": 2, "a": 3}      written a 1, b 2, a 3      kept a 3, b 2
-/

namespace PlanarMath.Json

/-! ## Lists without repetition -/

theorem eraseDups_concat {α : Type} [DecidableEq α] (xs : List α) (x : α) :
    (xs ++ [x]).eraseDups = if x ∈ xs then xs.eraseDups else xs.eraseDups ++ [x] := by
  rw [List.eraseDups_append]
  by_cases h : x ∈ xs
  · simp [List.removeAll, h]
  · simp [List.removeAll, h, List.eraseDups_cons]

theorem nodup_eraseDups {α : Type} [DecidableEq α] (xs : List α) : xs.eraseDups.Nodup := by
  induction xs using List.reverseRecOn with
  | nil => exact List.nodup_nil
  | append_singleton xs x ih =>
    rw [eraseDups_concat]
    split
    · exact ih
    · next h =>
      rw [List.nodup_append_comm, List.singleton_append, List.nodup_cons, List.mem_eraseDups]
      exact ⟨h, ih⟩

/-! ## Keys that are written again -/

section
variable {κ α : Type} [DecidableEq κ]

/-- The keys of some members, each where it is written first. -/
def keys (raw : List (κ × α)) : List κ := (raw.map (·.1)).eraseDups

/-- The value that is written last under a key. -/
def last? (key : κ) (raw : List (κ × α)) : Option α := (raw.reverse.find? (·.1 == key)).map (·.2)

variable {key : κ} {v : α} {m : κ × α} {known raw ms : List (κ × α)}

theorem putAll_concat (known raw : List (κ × α)) (m : κ × α) :
    putAll known (raw ++ [m]) = put m.1 m.2 (putAll known raw) :=
  List.foldl_concat _ _ _ _

theorem last?_concat (key : κ) (raw : List (κ × α)) (m : κ × α) :
    last? key (raw ++ [m]) = if m.1 = key then some m.2 else last? key raw := by
  rw [last?, List.reverse_append, List.reverse_singleton, List.singleton_append, List.find?_cons]
  by_cases h : m.1 = key
  · simp [h]
  · rw [if_neg h, beq_false_of_ne h]
    rfl

theorem put_of_notMem (h : key ∉ known.map (·.1)) (v : α) : put key v known = known ++ [(key, v)] := by
  induction known with
  | nil => rfl
  | cons m known ih =>
    rw [List.map_cons, List.mem_cons, not_or] at h
    rw [put, if_neg (Ne.symm h.1), ih h.2, List.cons_append]

/-- A key that is there already keeps its place. -/
theorem map_fst_put_of_mem (h : key ∈ known.map (·.1)) (v : α) :
    (put key v known).map (·.1) = known.map (·.1) := by
  induction known with
  | nil => cases h
  | cons m known ih =>
    rw [put]
    split
    · rfl
    · next hne =>
      rw [List.map_cons, List.mem_cons] at h
      rw [List.map_cons, List.map_cons, ih (h.resolve_left (Ne.symm hne))]

/-- Members without a key that is there already, or that is written again, are all kept. -/
theorem putAll_of_nodup (h : (known.map (·.1) ++ raw.map (·.1)).Nodup) : putAll known raw = known ++ raw := by
  induction raw generalizing known with
  | nil => rw [List.append_nil]; rfl
  | cons m raw ih =>
    have hm : m.1 ∉ known.map (·.1) := by
      rw [List.nodup_append] at h
      exact fun hmem => h.2.2 m.1 hmem m.1 (by simp) rfl
    rw [putAll, List.foldl_cons, put_of_notMem hm]
    refine (ih (by simpa using h)).trans ?_
    rw [List.append_assoc]
    rfl

/-- **Keys** stand where they are written first. -/
theorem map_fst_putAll (raw : List (κ × α)) : (putAll [] raw).map (·.1) = keys raw := by
  induction raw using List.reverseRecOn with
  | nil => rfl
  | append_singleton raw m ih =>
    rw [putAll_concat, keys, List.map_append, List.map_singleton, eraseDups_concat, ← keys, ← ih]
    have hmem : m.1 ∈ (putAll [] raw).map (·.1) ↔ m.1 ∈ raw.map (·.1) := by rw [ih, keys, List.mem_eraseDups]
    split
    · next h => exact map_fst_put_of_mem (hmem.2 h) m.2
    · next h =>
      rw [put_of_notMem (mt hmem.1 h), List.map_append]
      rfl

/-- **Values** are those that are written last. -/
theorem member?_putAll (key : κ) (raw : List (κ × α)) :
    member? key (putAll [] raw) = last? key raw := by
  induction raw using List.reverseRecOn with
  | nil => rfl
  | append_singleton raw m ih =>
    rw [putAll_concat, last?_concat]
    split
    · next h => rw [h, member?_put_self]
    · next h => rw [member?_put_of_ne (Ne.symm h), ih]

theorem mem_iff_member? (h : (ms.map (·.1)).Nodup) : (key, v) ∈ ms ↔ member? key ms = some v := by
  induction ms with
  | nil => simp [member?]
  | cons m ms ih =>
    obtain ⟨k, w⟩ := m
    rw [List.map_cons, List.nodup_cons] at h
    rw [List.mem_cons, ih h.2, member?]
    split
    · next hk =>
      subst hk
      have hnone : member? k ms ≠ some v := fun hsome =>
        h.1 (List.mem_map.2 ⟨_, (ih h.2).2 hsome, rfl⟩)
      simp [hnone, eq_comm]
    · next hk => simp [Ne.symm hk]

theorem nodup_keys (raw : List (κ × α)) : (keys raw).Nodup := nodup_eraseDups _

/-- The members that are kept. -/
theorem mem_putAll : (key, v) ∈ putAll [] raw ↔ last? key raw = some v := by
  rw [← member?_putAll]
  exact mem_iff_member? (by rw [map_fst_putAll]; exact nodup_keys raw)

theorem mem_keys_of_last? (h : last? key raw = some v) : key ∈ keys raw := by
  rw [← map_fst_putAll]
  exact List.mem_map.2 ⟨_, mem_putAll.2 h, rfl⟩

end

end PlanarMath.Json
