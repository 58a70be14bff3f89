import CheezyCore.Foundation.Table
import Mathlib.Logic.Function.Basic

/-!
# Registries

Objects are made one after the other and named by their position. A map leads from keys to
objects; the key of an object is part of it and does not change. An object is held when its
key leads to it: whoever goes over the values of the map then finds it. Several objects may
have the same key, and the map holds at most one of them.
-/

structure Registry (κ ν : Type*) where
  slots : κ → Option Nat := fun _ => none
  objects : List ν := []

namespace Registry

variable {κ ν : Type*} {key : ν → κ} {r : Registry κ ν} {k : κ} {i j : Nat} {f : ν → ν}
  {P Q : ν → Prop}

def make (r : Registry κ ν) (v : ν) : Registry κ ν := { r with objects := r.objects ++ [v] }

def put [DecidableEq κ] (r : Registry κ ν) (k : κ) (i : Nat) : Registry κ ν :=
  { r with slots := Function.update r.slots k (some i) }

def delete [DecidableEq κ] (r : Registry κ ν) (k : κ) : Registry κ ν :=
  { r with slots := Function.update r.slots k none }

def clear (r : Registry κ ν) : Registry κ ν := { r with slots := fun _ => none }

def alter (r : Registry κ ν) (i : Nat) (f : ν → ν) : Registry κ ν :=
  { r with objects := r.objects.modify i f }

/-! ## Properties of objects -/

def Has (r : Registry κ ν) (i : Nat) (P : ν → Prop) : Prop := ∃ v, r.objects[i]? = some v ∧ P v

instance [DecidablePred P] : Decidable (r.Has i P) :=
  match h : r.objects[i]? with
  | none => isFalse (by rintro ⟨v, hv, -⟩; rw [h] at hv; cases hv)
  | some v => decidable_of_iff (P v)
      ⟨fun hP => ⟨v, h, hP⟩, fun ⟨v', hv', hP⟩ => by rw [h] at hv'; cases hv'; exact hP⟩

theorem Has.imp (h : r.Has i P) (imp : ∀ v, P v → Q v) : r.Has i Q := by
  obtain ⟨v, hv, hP⟩ := h
  exact ⟨v, hv, imp v hP⟩

theorem Has.make (h : r.Has i P) (v : ν) : (r.make v).Has i P := by
  obtain ⟨u, hu, hP⟩ := h
  have hlt := Table.lt_length hu
  exact ⟨u, (List.getElem?_append_left hlt).trans hu, hP⟩

theorem has_make_self {v : ν} (h : P v) : (r.make v).Has r.objects.length P :=
  ⟨v, List.getElem?_concat_length, h⟩

theorem Has.alter (h : r.Has i P) (hf : ∀ v, P v → P (f v)) : (r.alter j f).Has i P := by
  obtain ⟨v, hv, hP⟩ := h
  refine ⟨_, Table.getElem?_modify_some j f hv, ?_⟩
  split
  · exact hf v hP
  · exact hP

theorem Has.alter_self (h : r.Has i P) (hf : ∀ v, P v → Q (f v)) : (r.alter i f).Has i Q := by
  obtain ⟨v, hv, hP⟩ := h
  refine ⟨_, Table.getElem?_modify_some i f hv, ?_⟩
  rw [if_pos rfl]
  exact hf v hP

/-! ## Held objects -/

/-- The key of the object leads to it. -/
def Held (key : ν → κ) (r : Registry κ ν) (i : Nat) : Prop :=
  r.Has i fun v => r.slots (key v) = some i

instance : Decidable (Held key r i) := inferInstanceAs (Decidable (r.Has i _))

/-- The values of the map, given that each key leads to an object with this key. -/
def values (key : ν → κ) (r : Registry κ ν) : List Nat :=
  (List.range r.objects.length).filter fun i => Held key r i

theorem mem_values : i ∈ r.values key ↔ Held key r i := by
  rw [values, List.mem_filter, decide_eq_true_iff, List.mem_range]
  refine ⟨And.right, fun h => ⟨?_, h⟩⟩
  obtain ⟨v, hv, -⟩ := h
  exact Table.lt_length hv

theorem Held.make (h : Held key r i) (v : ν) : Held key (r.make v) i := Has.make h v

theorem Held.alter (h : Held key r i) (hf : ∀ v, r.objects[j]? = some v → key (f v) = key v) :
    Held key (r.alter j f) i := by
  obtain ⟨v, hv, hslot⟩ := h
  refine ⟨_, Table.getElem?_modify_some j f hv, ?_⟩
  split
  · next hji =>
    subst hji
    exact (congrArg r.slots (hf v hv)).trans hslot
  · exact hslot

variable [DecidableEq κ]

/-- A key that was free takes no object out of the map. -/
theorem Held.put (h : Held key r i) (free : r.slots k = none) : Held key (r.put k j) i := by
  obtain ⟨v, hv, hslot⟩ := h
  refine ⟨v, hv, ?_⟩
  have hne : key v ≠ k := by
    rintro rfl
    cases free.symm.trans hslot
  exact (Function.update_of_ne hne _ _).trans hslot

theorem held_put_self (h : r.Has i fun v => key v = k) : Held key (r.put k i) i := by
  refine Has.imp h ?_
  rintro v rfl
  exact Function.update_self _ _ _

theorem Held.delete (h : Held key r i) (hne : r.slots k ≠ some i) : Held key (r.delete k) i := by
  obtain ⟨v, hv, hslot⟩ := h
  refine ⟨v, hv, ?_⟩
  have hkey : key v ≠ k := by
    rintro rfl
    exact hne hslot
  exact (Function.update_of_ne hkey _ _).trans hslot

end Registry
