import Mathlib.Algebra.Order.Ring.Int
import Mathlib.Data.List.Perm.Basic

/-!
# Tables

A table is a list whose entries are named by their position: they are replaced and
added, and never removed. The lemmas invert a lookup after such a change, and say how
the entries selected by a partial function change with one replacement.
-/

namespace Table

variable {α β : Type*} {table : List α} {i j : Nat} {old new x : α} {f : α → Option β}

theorem mem_concat (h : x ∈ table ++ [new]) : x ∈ table ∨ x = new := by
  simpa using h

theorem forall_concat {P : α → Prop} (h : ∀ x ∈ table, P x) (hnew : P new) :
    ∀ x ∈ table ++ [new], P x :=
  List.forall_mem_append.mpr ⟨h, List.forall_mem_singleton.mpr hnew⟩

theorem pairwise_concat {R : α → α → Prop} (h : table.Pairwise R) (hnew : ∀ x ∈ table, R x new) :
    (table ++ [new]).Pairwise R :=
  List.pairwise_append.mpr ⟨h, List.pairwise_singleton _ _, fun x hx =>
    List.forall_mem_singleton.mpr (hnew x hx)⟩

theorem lt_length (h : table[i]? = some x) : i < table.length :=
  (List.getElem?_eq_some_iff.mp h).1

theorem getElem?_append (h : table[i]? = some x) (more : List α) :
    (table ++ more)[i]? = some x := by
  rwa [List.getElem?_append_left (lt_length h)]

theorem getElem?_set_cases (h : (table.set j new)[i]? = some x) :
    (j ≠ i ∧ table[i]? = some x) ∨ (j = i ∧ x = new) := by
  rw [List.getElem?_set] at h
  split at h
  · next heq =>
    split at h <;> cases h
    exact .inr ⟨heq, rfl⟩
  · next hne => exact .inl ⟨hne, h⟩

theorem getElem?_concat_cases (h : (table ++ [new])[i]? = some x) :
    table[i]? = some x ∨ (i = table.length ∧ x = new) := by
  rcases Nat.lt_or_ge i table.length with hlt | hge
  · rw [List.getElem?_append_left hlt] at h
    exact .inl h
  · rw [List.getElem?_append_right hge, List.getElem?_singleton] at h
    split at h
    · next hi => exact .inr ⟨by omega, (Option.some.inj h).symm⟩
    · cases h

theorem getElem?_modify_cases {g : α → α} (h : (table.modify j g)[i]? = some x) :
    ∃ a, table[i]? = some a ∧ ((j ≠ i ∧ x = a) ∨ (j = i ∧ x = g a)) := by
  rw [List.getElem?_modify] at h
  obtain ⟨a, ha, hx⟩ := Option.map_eq_some_iff.mp h
  refine ⟨a, ha, ?_⟩
  by_cases hi : j = i
  · exact .inr ⟨hi, by rw [← hx, if_pos hi]⟩
  · exact .inl ⟨hi, by rw [← hx, if_neg hi]⟩

theorem getElem?_modify_some (j : Nat) (g : α → α) (h : table[i]? = some x) :
    (table.modify j g)[i]? = some (if j = i then g x else x) := by
  rw [List.getElem?_modify, h]
  rfl

theorem modify_of_getElem? (h : table[i]? = some old) (g : α → α) :
    table.modify i g = table.set i (g old) := by
  rw [List.modify_eq_set_getElem?, h]
  rfl

theorem of_getElem?_replicate {n : Nat} (h : (List.replicate n old)[i]? = some x) :
    i < n ∧ x = old := by
  rw [List.getElem?_replicate] at h
  split at h
  · next hlt => exact ⟨hlt, (Option.some.inj h).symm⟩
  · cases h

/-- Distinct positions of entries that satisfy a predicate are not more than these. -/
theorem length_le_countP {positions : List Nat} {P : α → Bool} (nodup : positions.Nodup)
    (h : ∀ i ∈ positions, ∃ a, table[i]? = some a ∧ P a = true) :
    positions.length ≤ table.countP P := by
  have hsub : positions ⊆ (table.zipIdx.filter fun e => P e.1).map Prod.snd := by
    intro i hi
    obtain ⟨a, ha, hP⟩ := h i hi
    refine List.mem_map.mpr ⟨(a, i), List.mem_filter.mpr ⟨?_, hP⟩, rfl⟩
    exact List.mem_zipIdx_iff_getElem?.mpr ha
  have hcount : (table.zipIdx.filter fun e => P e.1).length = table.countP P := by
    rw [← List.countP_eq_length_filter]
    have hmap := @List.countP_map _ _ P Prod.fst table.zipIdx
    rw [List.zipIdx_map_fst] at hmap
    exact hmap.symm
  have hle := (List.subperm_of_subset nodup hsub).length_le
  rwa [List.length_map, hcount] at hle

theorem countP_set {P : α → Bool} (h : table[i]? = some old) :
    (table.set i new).countP P + (if P old then 1 else 0) =
      table.countP P + if P new then 1 else 0 := by
  obtain ⟨hi, rfl⟩ := List.getElem?_eq_some_iff.mp h
  have hle := List.boole_getElem_le_countP (p := P) hi
  rw [List.countP_set hi]
  omega

/-! ## Selected entries -/

theorem filterMap_cons_eq (a : α) (rest : List α) :
    (a :: rest).filterMap f = (f a).toList ++ rest.filterMap f := by
  rw [List.filterMap_cons]
  cases f a with
  | none | some b => rfl

section

variable (h : table[i]? = some old)
include h

theorem filterMap_set_perm : ((f old).toList ++ (table.set i new).filterMap f).Perm
      ((f new).toList ++ table.filterMap f) := by
  obtain ⟨hi, hold⟩ := List.getElem?_eq_some_iff.mp h
  have hsplit : table = table.take i ++ old :: table.drop (i + 1) := by
    rw [← hold, List.getElem_cons_drop, List.take_append_drop]
  have hset : table.set i new = table.take i ++ new :: table.drop (i + 1) := by
    rw [List.set_eq_take_append_cons_drop, if_pos hi]
  rw [hset]
  nth_rewrite 3 [hsplit]
  simp only [List.filterMap_append, filterMap_cons_eq]
  refine (List.perm_append_comm_assoc _ _ _).trans ?_
  refine ((List.perm_append_comm_assoc _ _ _).append_left _).trans ?_
  exact List.perm_append_comm_assoc _ _ _

theorem filterMap_set_same (same : f new = f old) :
    ((table.set i new).filterMap f).Perm (table.filterMap f) := by
  have hperm := @filterMap_set_perm _ _ _ _ _ new f h
  rw [same] at hperm
  exact (List.perm_append_left_iff _).mp hperm

theorem filterMap_set_take (without : f old = none) {b : β} (takes : f new = some b) :
    ((table.set i new).filterMap f).Perm (b :: table.filterMap f) := by
  have hperm := @filterMap_set_perm _ _ _ _ _ new f h
  rwa [without, takes] at hperm

theorem filterMap_set_give {b : β} (holds : f old = some b) (without : f new = none) :
    (table.filterMap f).Perm (b :: (table.set i new).filterMap f) := by
  have hperm := @filterMap_set_perm _ _ _ _ _ new f h
  rw [holds, without] at hperm
  exact hperm.symm

end

end Table
