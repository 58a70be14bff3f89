import Mathlib.Algebra.Order.Ring.Int
import Mathlib.Data.List.Perm.Basic
import Mathlib.Logic.Function.Basic

/-!
# Counted permits

A registry counts, for each key, the permits that are out. Whoever asks for one
brings a limit of their own: the permit is granted while fewer are out. A permit
is given back by its key alone, and a key without permits has no entry.

Different users may bring different limits for one key, so a count can exceed the
limit of one of its holders. `Holds` relates the counts to the holders; its ledger
lists them in the order of the grants, newest first, and that order is what bounds
a count by the limit of a present holder.
-/

namespace Permits

variable {κ : Type*} [DecidableEq κ]

/-- The permits out under a key. -/
def held (counts : κ → Option Nat) (key : κ) : Nat := (counts key).getD 0

def acquire (counts : κ → Option Nat) (key : κ) (limit : Int) : Option (κ → Option Nat) :=
  if (held counts key : Int) ≥ limit then none
  else some (Function.update counts key (some (held counts key + 1)))

def release (counts : κ → Option Nat) (key : κ) : κ → Option Nat :=
  if held counts key ≤ 1 then Function.update counts key none
  else Function.update counts key (some (held counts key - 1))

/-- The number of holders under a key. -/
def tally (holders : List (κ × Int)) (key : κ) : Nat := (holders.map Prod.fst).count key

/-- Every holder of the ledger, newest first, was granted its permit below its limit. -/
def Granted : List (κ × Int) → Prop
  | [] => True
  | (key, limit) :: older => (tally older key : Int) < limit ∧ Granted older

/-- The counts are those of these holders, each with its key and limit. -/
structure Holds (counts : κ → Option Nat) (holders : List (κ × Int)) : Prop where
  entry : ∀ key, counts key = if tally holders key = 0 then none else some (tally holders key)
  ledger : ∃ ledger, ledger.Perm holders ∧ Granted ledger

theorem held_lt_of_acquire {counts counts' : κ → Option Nat} {key : κ} {limit : Int}
    (h : acquire counts key limit = some counts') : (held counts key : Int) < limit := by
  unfold acquire at h
  split at h
  · cases h
  · next hfree => exact Int.not_le.mp hfree

theorem tally_cons (holder : κ × Int) (rest : List (κ × Int)) (key : κ) :
    tally (holder :: rest) key = tally rest key + if holder.1 = key then 1 else 0 := by
  simp [tally, List.count_cons]

theorem tally_perm {first second : List (κ × Int)} (h : first.Perm second) (key : κ) :
    tally first key = tally second key :=
  (h.map Prod.fst).count_eq key

section

variable {ledger : List (κ × Int)} (h : Granted ledger)
include h

theorem Granted.sublist {rest : List (κ × Int)} (hsub : rest.Sublist ledger) : Granted rest := by
  induction hsub with
  | slnil => exact h
  | cons holder _ ih => exact ih h.2
  | @cons_cons rest ledger holder hsub ih =>
    have hle : tally rest holder.1 ≤ tally ledger holder.1 :=
      (hsub.map Prod.fst).count_le holder.1
    exact ⟨Int.lt_of_le_of_lt (Int.ofNat_le.mpr hle) h.1, ih h.2⟩

/-- The newest holder under a key was granted the last permit that is out. -/
theorem Granted.exists_limit {key : κ} (hpos : 0 < tally ledger key) :
    ∃ limit, (key, limit) ∈ ledger ∧ (tally ledger key : Int) ≤ limit := by
  induction ledger with
  | nil => exact absurd hpos (Nat.lt_irrefl 0)
  | cons holder older ih =>
    obtain ⟨owner, limit⟩ := holder
    rw [tally_cons] at hpos ⊢
    by_cases howner : owner = key
    · subst howner
      have hlimit : (tally older owner : Int) < limit := h.1
      refine ⟨limit, List.mem_cons_self, ?_⟩
      simp only [if_true]
      omega
    · simp only [howner, if_false, Nat.add_zero] at hpos ⊢
      obtain ⟨limit, hmem, hle⟩ := ih h.2 hpos
      exact ⟨limit, List.mem_cons_of_mem _ hmem, hle⟩

end

namespace Holds

variable {counts counts' : κ → Option Nat} {holders : List (κ × Int)} {key : κ} {limit : Int}

theorem start : Holds (fun _ : κ => none) [] where
  entry _ := rfl
  ledger := ⟨[], .nil, trivial⟩

section

variable (h : Holds counts holders)
include h

theorem held_eq (key : κ) : held counts key = tally holders key := by
  rw [held, h.entry]
  split
  · next hzero => exact hzero.symm
  · rfl

theorem perm {others : List (κ × Int)} (hperm : holders.Perm others) : Holds counts others where
  entry key := by
    rw [← tally_perm hperm]
    exact h.entry key
  ledger := by
    obtain ⟨ledger, hledger, hgranted⟩ := h.ledger
    exact ⟨ledger, hledger.trans hperm, hgranted⟩

theorem acquire (hacquire : acquire counts key limit = some counts') :
    Holds counts' ((key, limit) :: holders) := by
  unfold Permits.acquire at hacquire
  split at hacquire <;> cases hacquire
  next hfree =>
    rw [h.held_eq] at hfree ⊢
    refine ⟨fun other => ?_, ?_⟩
    · rw [tally_cons]
      by_cases hother : key = other
      · subst hother
        simp
      · simp only [Function.update_of_ne (Ne.symm hother), hother, if_false, Nat.add_zero]
        exact h.entry other
    · obtain ⟨ledger, hledger, hgranted⟩ := h.ledger
      refine ⟨(key, limit) :: ledger, hledger.cons _, ?_, hgranted⟩
      rw [tally_perm hledger]
      omega

end

theorem release (h : Holds counts ((key, limit) :: holders)) :
    Holds (release counts key) holders := by
  have hheld : held counts key = tally holders key + 1 := by
    rw [h.held_eq, tally_cons, if_pos rfl]
  refine ⟨fun other => ?_, ?_⟩
  · unfold Permits.release
    rw [hheld]
    by_cases hother : key = other
    · subst hother
      by_cases hlast : tally holders key = 0
      · simp [hlast]
      · simp [hlast]
    · have hentry := h.entry other
      rw [tally_cons, if_neg hother, Nat.add_zero] at hentry
      split
      · rw [Function.update_of_ne (Ne.symm hother), hentry]
      · rw [Function.update_of_ne (Ne.symm hother), hentry]
  · obtain ⟨ledger, hledger, hgranted⟩ := h.ledger
    refine ⟨ledger.erase (key, limit), ?_, hgranted.sublist List.erase_sublist⟩
    have herase := hledger.erase (key, limit)
    rwa [List.erase_cons_head] at herase

/-- A count is at most the limit of one of the present holders. -/
theorem exists_limit (h : Holds counts holders) (hpos : 0 < held counts key) :
    ∃ limit, (key, limit) ∈ holders ∧ (held counts key : Int) ≤ limit := by
  obtain ⟨ledger, hledger, hgranted⟩ := h.ledger
  rw [h.held_eq, ← tally_perm hledger] at hpos ⊢
  obtain ⟨limit, hmem, hle⟩ := hgranted.exists_limit hpos
  exact ⟨limit, hledger.mem_iff.mp hmem, hle⟩

end Holds

end Permits
