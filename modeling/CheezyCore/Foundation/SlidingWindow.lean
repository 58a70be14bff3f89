import Mathlib.Algebra.Order.Ring.Int
import Mathlib.Data.List.Basic
import CheezyCore.Foundation.Table

/-!
# Sliding windows of seen numbers

A receiver that has to tell new numbers from those it has seen keeps the highest one and a
word of bits: bit `i` is set when the number `i` below the highest was seen. Numbers that are
further behind than the word is wide are not told apart and have to be refused.
-/

namespace SlidingWindow

variable {w : Nat} {highest n : Nat} {bits : BitVec w} {seen : List Nat}

/-- The bits are those of these numbers. -/
structure Tracks (highest : Nat) (bits : BitVec w) (seen : List Nat) : Prop where
  mem : highest ∈ seen
  le : ∀ m ∈ seen, m ≤ highest
  bit : ∀ i, i < w → (bits.getLsbD i = true ↔ ∃ m ∈ seen, m + i = highest)

theorem Tracks.first (hw : 0 < w) (n : Nat) : Tracks n (1#w) [n] where
  mem := List.mem_cons_self
  le m hm := Nat.le_of_eq (List.mem_singleton.mp hm)
  bit i hi := by
    rw [BitVec.getLsbD_one]
    simp only [hw, decide_true, Bool.true_and, decide_eq_true_eq, List.mem_singleton,
      exists_eq_left]
    omega

section

variable (h : Tracks highest bits seen)
include h

/-- A number above the highest one becomes the highest. -/
theorem Tracks.advance (hw : 0 < w) (above : highest < n) :
    Tracks n (if w ≤ n - highest then 1#w else bits <<< (n - highest) ||| 1#w) (seen ++ [n]) where
  mem := List.mem_concat_self
  le := Table.forall_concat (fun m hm => Nat.le_of_lt (Nat.lt_of_le_of_lt (h.le m hm) above))
    (Nat.le_refl n)
  bit i hi := by
    have hseen : (∃ m ∈ seen ++ [n], m + i = n) ↔ i = 0 ∨ ∃ m ∈ seen, m + i = n := by
      simp only [List.mem_append, List.mem_singleton, or_and_right, exists_or, exists_eq_left]
      rw [Or.comm]
      exact or_congr (by omega) Iff.rfl
    rw [hseen]
    split
    next hfar =>
      rw [BitVec.getLsbD_one]
      simp only [hw, decide_true, Bool.true_and, decide_eq_true_eq]
      refine ⟨.inl, ?_⟩
      rintro (hi | ⟨m, hm, heq⟩)
      · exact hi
      · have hle := h.le m hm
        omega
    next hnear =>
      rw [BitVec.getLsbD_or, BitVec.getLsbD_shiftLeft, BitVec.getLsbD_one]
      simp only [hi, hw, decide_true, Bool.true_and, Bool.or_eq_true, Bool.and_eq_true,
        Bool.not_eq_true', decide_eq_false_iff_not, decide_eq_true_eq, Nat.not_lt]
      rw [Or.comm]
      refine or_congr_right ?_
      constructor
      · rintro ⟨hge, hbit⟩
        obtain ⟨m, hm, heq⟩ := (h.bit _ (by omega)).mp hbit
        exact ⟨m, hm, by omega⟩
      · rintro ⟨m, hm, heq⟩
        have hle := h.le m hm
        exact ⟨by omega, (h.bit _ (by omega)).mpr ⟨m, hm, by omega⟩⟩

/-- A number behind the highest one is marked as seen. -/
theorem Tracks.fill (le : n ≤ highest) :
    Tracks highest (bits ||| 1#w <<< (highest - n)) (seen ++ [n]) where
  mem := List.mem_append_left _ h.mem
  le := Table.forall_concat h.le le
  bit i hi := by
    rw [BitVec.getLsbD_or, BitVec.getLsbD_shiftLeft, BitVec.getLsbD_one, Bool.or_eq_true,
      h.bit i hi]
    simp only [hi, decide_true, Bool.true_and, Bool.and_eq_true, Bool.not_eq_true',
      decide_eq_false_iff_not, decide_eq_true_eq, Nat.not_lt, List.mem_append,
      List.mem_singleton, or_and_right, exists_or, exists_eq_left]
    refine or_congr_right ?_
    omega

/-- The test of a bit of the window. -/
theorem Tracks.test (le : n ≤ highest) (near : highest - n < w) :
    bits &&& 1#w <<< (highest - n) ≠ 0#w ↔ n ∈ seen := by
  have hmask : bits &&& 1#w <<< (highest - n) ≠ 0#w ↔ bits.getLsbD (highest - n) = true := by
    rw [← BitVec.twoPow_eq, BitVec.and_twoPow]
    split
    next hset =>
      refine iff_of_true (fun hzero => ?_) hset
      have hbit := BitVec.getLsbD_twoPow (w := w) (highest - n) (highest - n)
      rw [hzero, BitVec.getLsbD_zero, decide_eq_true near, decide_eq_true rfl] at hbit
      cases hbit
    next hclear => exact iff_of_false (not_not.mpr rfl) hclear
  rw [hmask, h.bit _ near]
  constructor
  · rintro ⟨m, hm, heq⟩
    rwa [show n = m by omega]
  · intro hn
    exact ⟨n, hn, by omega⟩

end

end SlidingWindow
