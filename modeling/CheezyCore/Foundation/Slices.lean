import Mathlib.Algebra.Order.Ring.Int
import Mathlib.Data.List.Basic

/-!
# Slices over shared arrays

A slice is a view of the first cells of an array. `append` writes into the cell after the
view when the array has one, so two slices of one array may see each other's writes; only
when the array is full does it move to a new one. The rule the callers need is that an
append, and whatever is done to the slice it returns, leaves every slice alone that does
not reach past the view it started from.
-/

namespace Slices

variable {α : Type}

/-- The arrays allocated so far. The length of an array is its capacity. -/
abbrev Heap (α : Type) := List (List α)

structure Slice where
  array : Nat
  len : Nat
  deriving DecidableEq, Repr

namespace Heap

def cells (heap : Heap α) (s : Slice) : List α := (heap[s.array]?).getD []

/-- The elements a slice shows. -/
def read (heap : Heap α) (s : Slice) : List α := (heap.cells s).take s.len

/-- The slice lies inside its array. -/
structure Valid (heap : Heap α) (s : Slice) : Prop where
  array_lt : s.array < heap.length
  len_le : s.len ≤ (heap.cells s).length

/-- An empty slice of no capacity. -/
def empty (heap : Heap α) : Heap α × Slice := (heap ++ [[]], ⟨heap.length, 0⟩)

/-- `append(s, x)`; a new array has `spare` cells beyond what it must hold. -/
def append [Inhabited α] (spare : Nat → Nat) (heap : Heap α) (s : Slice) (x : α) :
    Heap α × Slice :=
  let cells := heap.cells s
  if s.len < cells.length then
    (heap.set s.array (cells.set s.len x), ⟨s.array, s.len + 1⟩)
  else
    (heap ++ [cells.take s.len ++ x :: List.replicate (spare s.len) default],
      ⟨heap.length, s.len + 1⟩)

/-- A slice that does not reach past the end of `s`, if it is of the same array. -/
def Below (s t : Slice) : Prop := t.array = s.array → t.len ≤ s.len

/-- Every slice that does not reach past `s` still shows the same elements. -/
def Frame (s : Slice) (heap heap' : Heap α) : Prop :=
  ∀ t, heap.Valid t → Below s t → heap'.Valid t ∧ heap'.read t = heap.read t

variable {heap heap' heap'' : Heap α} {s t : Slice} {x : α}

theorem Frame.refl (s : Slice) (heap : Heap α) : Frame s heap heap := fun _ valid _ => ⟨valid, rfl⟩

theorem Frame.trans (h : Frame s heap heap') (h' : Frame s heap' heap'') :
    Frame s heap heap'' := by
  intro t valid below
  obtain ⟨valid', hread⟩ := h t valid below
  obtain ⟨valid'', hread'⟩ := h' t valid' below
  exact ⟨valid'', hread'.trans hread⟩

theorem valid_empty (heap : Heap α) : heap.empty.1.Valid heap.empty.2 where
  array_lt := by simp [empty]
  len_le := Nat.zero_le _

@[simp] theorem read_empty (heap : Heap α) : heap.empty.1.read heap.empty.2 = [] := rfl

theorem cells_allocate (heap : Heap α) (new : List α) (h : t.array < heap.length) :
    cells (heap ++ [new]) t = heap.cells t := by
  rw [cells, List.getElem?_append_left h, cells]

theorem frame_allocate (heap : Heap α) (new : List α) (s : Slice) :
    Frame s heap (heap ++ [new]) := by
  intro t valid _
  have hcells := cells_allocate heap new valid.array_lt
  refine ⟨⟨?_, ?_⟩, ?_⟩
  · rw [List.length_append]
    exact Nat.lt_add_right _ valid.array_lt
  · rw [hcells]
    exact valid.len_le
  · rw [read, hcells, read]

theorem cells_set_self (heap : Heap α) (new : List α) (h : t.array < heap.length) :
    cells (heap.set t.array new) t = new := by
  simp [cells, h]

theorem cells_set_ne (heap : Heap α) (new : List α) (h : t.array ≠ s.array) :
    cells (heap.set s.array new) t = heap.cells t := by
  simp [cells, List.getElem?_set_ne (Ne.symm h)]

/-- A write at the end of `s` is past the end of every slice below it. -/
theorem frame_write (heap : Heap α) (s : Slice) (x : α) :
    Frame s heap (heap.set s.array ((heap.cells s).set s.len x)) := by
  intro t valid below
  by_cases same : t.array = s.array
  · have hs : heap.cells s = heap.cells t := by rw [cells, cells, same]
    have hcells : cells (heap.set s.array ((heap.cells s).set s.len x)) t
        = (heap.cells t).set s.len x := by
      rw [hs, ← same]
      exact cells_set_self heap _ valid.array_lt
    refine ⟨⟨by simpa using valid.array_lt, ?_⟩, ?_⟩
    · rw [hcells, List.length_set]
      exact valid.len_le
    · rw [read, hcells, List.take_set_of_le (below same), read]
  · have hcells := cells_set_ne heap ((heap.cells s).set s.len x) same
    refine ⟨⟨by simpa using valid.array_lt, ?_⟩, ?_⟩
    · rw [hcells]
      exact valid.len_le
    · rw [read, hcells, read]

variable [Inhabited α]

section

variable (spare : Nat → Nat)
include spare

theorem frame_append (heap : Heap α) (s : Slice) (x : α) :
    Frame s heap (heap.append spare s x).1 := by
  unfold append
  dsimp only
  split
  · exact frame_write heap s x
  · exact frame_allocate heap _ s

theorem valid_append (valid : heap.Valid s) (x : α) :
    (heap.append spare s x).1.Valid (heap.append spare s x).2 := by
  unfold append
  dsimp only
  split
  next room =>
    refine ⟨by simpa using valid.array_lt, ?_⟩
    have hcells := cells_set_self (t := ⟨s.array, s.len + 1⟩) heap
      ((heap.cells s).set s.len x) valid.array_lt
    rw [hcells, List.length_set]
    exact room
  next full =>
    refine ⟨by simp, ?_⟩
    have hlen := valid.len_le
    simp only [cells, List.getElem?_concat_length, Option.getD_some, List.length_append,
      List.length_take, List.length_cons, List.length_replicate] at hlen full ⊢
    omega

theorem read_append (valid : heap.Valid s) (x : α) :
    (heap.append spare s x).1.read (heap.append spare s x).2 = heap.read s ++ [x] := by
  unfold append
  dsimp only
  split
  next room =>
    have hcells := cells_set_self (t := ⟨s.array, s.len + 1⟩) heap
      ((heap.cells s).set s.len x) valid.array_lt
    rw [read, hcells, read, List.take_add_one]
    simp [List.take_set_of_le, room]
  next full =>
    have hlen : ((heap.cells s).take s.len).length = s.len := by
      rw [List.length_take]
      exact Nat.min_eq_left valid.len_le
    have hcells : cells (heap ++ [(heap.cells s).take s.len
        ++ x :: List.replicate (spare s.len) default]) ⟨heap.length, s.len + 1⟩
        = (heap.cells s).take s.len ++ x :: List.replicate (spare s.len) default := by
      rw [cells, List.getElem?_concat_length, Option.getD_some]
    rw [read, hcells, List.take_append, hlen, List.take_take, read]
    simp

/-- What is done below the slice an append returns is done below the slice it was given. -/
theorem Frame.of_append (h : Frame (heap.append spare s x).2 (heap.append spare s x).1 heap') :
    Frame s heap heap' := by
  intro t valid below
  obtain ⟨valid', hread⟩ := frame_append spare heap s x t valid below
  have below' : Below (heap.append spare s x).2 t := by
    unfold append Below
    dsimp only
    split
    · intro same
      exact Nat.le_succ_of_le (below same)
    · intro same
      exact absurd same (Nat.ne_of_lt valid.array_lt)
  obtain ⟨valid'', hread'⟩ := h t valid' below'
  exact ⟨valid'', hread'.trans hread⟩

end

end Heap

end Slices
