import Mathlib.Algebra.Order.Ring.Int
import Mathlib.Data.List.Basic
import CheezyCore.Foundation.Table

/-!
# Sliding windows of time stamps

A limiter that allows `limit` events in a time `width` keeps the stamps of the recent
events, oldest first. `Spread` is what it achieves: an event and the one `limit` places
later are `width` apart. In a list of stamps in order this bounds the events of every
window that is shorter than `width`.
-/

namespace Window

variable {limit : Nat} {width : Int} {stamps old kept : List Int} {now cutoff : Int}

/-- An event and the one `limit` places after it are `width` apart. -/
def Spread (limit : Nat) (width : Int) (stamps : List Int) : Prop :=
  ∀ (i : Nat) (x y : Int), stamps[i]? = some x → stamps[i + limit]? = some y → x + width ≤ y

theorem Spread.nil : Spread limit width [] := by
  rintro i x y ⟨⟩

theorem Spread.left {rest : List Int} (h : Spread limit width (stamps ++ rest)) :
    Spread limit width stamps := by
  intro i x y hx hy
  exact h i x y (Table.getElem?_append hx _) (Table.getElem?_append hy _)

theorem Spread.tail {x : Int} (h : Spread limit width (x :: stamps)) :
    Spread limit width stamps := by
  intro i y z hy hz
  refine h (i + 1) y z hy ?_
  rw [Nat.add_right_comm]
  exact hz

/-- The limiter's step: fewer than `limit` stamps are recent, so one more may come. -/
theorem Spread.concat (h : Spread limit width (old ++ kept)) (far : ∀ x ∈ old, x ≤ now - width)
    (room : kept.length < limit) : Spread limit width (old ++ kept ++ [now]) := by
  intro i x y hx hy
  have hj := Table.lt_length hy
  simp only [List.length_append, List.length_singleton] at hj
  have hi : i < old.length := by omega
  have hx' : old[i]? = some x := by
    rwa [List.append_assoc, List.getElem?_append_left hi] at hx
  rcases Table.getElem?_concat_cases hy with hy | ⟨-, rfl⟩
  · exact h i x y (Table.getElem?_append hx' _) hy
  · have hfar := far x (List.mem_of_getElem? hx')
    omega

/-- Of events in order, at most `limit` lie in a window in which no two are `width`
apart. -/
theorem Spread.countP_le (h : Spread limit width stamps) (sorted : stamps.Pairwise (· ≤ ·))
    {inside : Int → Bool} (short : ∀ x y, inside x = true → inside y = true → y < x + width) :
    stamps.countP inside ≤ limit := by
  induction stamps with
  | nil => exact Nat.zero_le _
  | cons x rest ih =>
    obtain ⟨hfirst, hrest⟩ := List.pairwise_cons.mp sorted
    rw [List.countP_cons]
    split
    · next hx =>
      have hself := short x x hx hx
      obtain ⟨k, rfl⟩ : ∃ k, limit = k + 1 := by
        cases limit with
        | zero =>
          have hfar := h 0 x x rfl rfl
          omega
        | succ k => exact ⟨k, rfl⟩
      -- What comes `limit` places after `x` or later is out of the window.
      have hlate : (rest.drop k).countP inside = 0 := by
        refine List.countP_eq_zero.mpr fun y hy hin => ?_
        have hlt := short x y hx hin
        obtain ⟨j, hj⟩ := List.mem_iff_getElem?.mp hy
        rw [List.getElem?_drop] at hj
        obtain ⟨hlen, rfl⟩ := List.getElem?_eq_some_iff.mp hj
        have hk : k < rest.length := by omega
        have hfar := h 0 x rest[k] rfl (by
          rw [Nat.zero_add, List.getElem?_cons_succ, List.getElem?_eq_getElem hk])
        have hle : rest[k] ≤ rest[k + j] := by
          rcases Nat.eq_zero_or_pos j with rfl | hpos
          · exact Int.le_refl _
          · exact List.pairwise_iff_getElem.mp hrest k _ hk hlen (by omega)
        omega
      have hsplit : rest.countP inside =
          (rest.take k).countP inside + (rest.drop k).countP inside := by
        rw [← List.countP_append, List.take_append_drop]
      have htake : (rest.take k).countP inside ≤ k :=
        Nat.le_trans List.countP_le_length (List.length_take_le _ _)
      omega
    · exact ih h.tail hrest

/-- Dropping the stamps up to a cutoff cuts off a first part of stamps in order. -/
theorem filter_eq_suffix (sorted : stamps.Pairwise (· ≤ ·)) (cutoff : Int) :
    ∃ gone, stamps = gone ++ stamps.filter (fun x => decide (x > cutoff)) ∧
      ∀ x ∈ gone, x ≤ cutoff := by
  induction stamps with
  | nil => exact ⟨[], rfl, by simp⟩
  | cons x rest ih =>
    obtain ⟨hfirst, hrest⟩ := List.pairwise_cons.mp sorted
    by_cases hx : x > cutoff
    · have hall : (x :: rest).filter (fun x => decide (x > cutoff)) = x :: rest := by
        refine List.filter_eq_self.mpr fun y hy => ?_
        rcases List.mem_cons.mp hy with rfl | hy
        · exact decide_eq_true hx
        · have hle := hfirst y hy
          exact decide_eq_true (by omega)
      exact ⟨[], hall.symm, by simp⟩
    · obtain ⟨gone, hgone, hold⟩ := ih hrest
      refine ⟨x :: gone, ?_, fun y hy => ?_⟩
      · rw [List.filter_cons_of_neg (by simpa using hx), List.cons_append, ← hgone]
      · rcases List.mem_cons.mp hy with rfl | hy
        · omega
        · exact hold y hy

end Window
