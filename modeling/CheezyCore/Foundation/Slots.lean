import Mathlib.Algebra.Order.Ring.Int
import Mathlib.Data.List.Nodup

/-!
# Tables of slots that are filled one by one

A list of optional values with one slot for each part of a whole. Parts are stored in any
order; the number of filled slots reaches the number of slots exactly when every part is
there, and the parts can then be read off in the order of their slots.
-/

namespace Slots

variable {α : Type*} {slots : List (Option α)}

def filled (slots : List (Option α)) : Nat := slots.countP Option.isSome

theorem filled_le_length (slots : List (Option α)) : filled slots ≤ slots.length :=
  List.countP_le_length

@[simp] theorem filled_replicate (n : Nat) : filled (List.replicate n (none : Option α)) = 0 := by
  rw [filled, List.countP_replicate]
  exact if_neg (by simp)

theorem filled_set {i : Nat} (h : slots[i]? = some none) (x : α) :
    filled (slots.set i (some x)) = filled slots + 1 := by
  obtain ⟨hi, hslot⟩ := List.getElem?_eq_some_iff.mp h
  rw [filled, List.countP_set hi, hslot]
  rfl

/-- A table with as many filled slots as slots holds one value in each. -/
theorem exists_eq_map_some (h : filled slots = slots.length) :
    ∃ values : List α, slots = values.map some := by
  have hall := List.countP_eq_length.mp h
  clear h
  induction slots with
  | nil => exact ⟨[], rfl⟩
  | cons slot slots ih =>
    rw [List.forall_mem_cons] at hall
    obtain ⟨x, rfl⟩ := Option.isSome_iff_exists.mp hall.1
    obtain ⟨values, rfl⟩ := ih hall.2
    exact ⟨x :: values, rfl⟩

/-- The slots of the values `seen` so far, with one slot for each of `parts`. -/
def holding [DecidableEq α] (parts seen : List α) : List (Option α) :=
  parts.map fun part => if part ∈ seen then some part else none

section Holding

variable [DecidableEq α] {parts seen : List α} {x : α} {i : Nat}

@[simp] theorem length_holding (parts seen : List α) : (holding parts seen).length = parts.length :=
  List.length_map _

theorem holding_nil (parts : List α) : holding parts [] = List.replicate parts.length none := by
  rw [holding]
  simp

theorem getElem?_holding (h : parts[i]? = some x) :
    (holding parts seen)[i]? = some (if x ∈ seen then some x else none) := by
  rw [holding, List.getElem?_map, h, Option.map_some]

/-- Storing a part in its slot is seeing it. -/
theorem set_holding (nodup : parts.Nodup) (h : parts[i]? = some x) (seen : List α) :
    (holding parts seen).set i (some x) = holding parts (seen ++ [x]) := by
  obtain ⟨hi, hx⟩ := List.getElem?_eq_some_iff.mp h
  apply List.ext_getElem
  · simp
  · intro j hj _
    have hjlt : j < parts.length := by simpa using hj
    rw [List.getElem_set]
    split
    · next hij =>
      subst hij
      simp [holding, hx]
    · next hij =>
      have hne : parts[j] ≠ x := by
        intro heq
        exact hij ((List.Nodup.getElem_inj_iff nodup).mp (hx.trans heq.symm))
      simp [holding, hne]

theorem holding_of_subset (h : ∀ part ∈ parts, part ∈ seen) : holding parts seen = parts.map some :=
  List.map_congr_left fun part hpart => if_pos (h part hpart)

end Holding

end Slots
