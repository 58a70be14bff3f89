import Mathlib.Data.Nat.Size
import CheezyCore.Foundation.Transition

/-!
# The bitmap of the received bytes

`setRange` sets a range of bits with masks for its first and last word, and `firstUnset` goes
on word by word. An invalid range is a panic.
-/

namespace Sniffer

/-- The words of a `bitmap`. -/
abbrev Bitmap := List (BitVec 64)

namespace Bitmap

/-- Room for a number of words; the length of the new array is a power of two. -/
def grow (b : Bitmap) (wordCount : Nat) : Bitmap :=
  if b.length < wordCount then
    let newWordCount := 2 ^ (wordCount - 1).size
    b ++ List.replicate
      ((if 2 ^ 63 - 1 < newWordCount then wordCount else newWordCount) - b.length) 0
  else b

def firstMask (start : Nat) : BitVec 64 := BitVec.allOnes 64 <<< (start % 64)

def lastMask (stop : Nat) : BitVec 64 :=
  if stop % 64 ≠ 0 then (1#64 <<< (stop % 64)) - 1#64 else BitVec.allOnes 64

/-- The loop over the words between the first and the last one. -/
def fill (b : Bitmap) (first : Nat) : Nat → Bitmap
  | 0 => b
  | count + 1 => fill (b.set first (BitVec.allOnes 64)) (first + 1) count

def setRange (b : Bitmap) (start stop : Nat) : Option Bitmap :=
  if stop < start then none
  else if start = stop then some b
  else
    let b := b.grow ((stop - 1) / 64 + 1)
    let firstWord := start / 64
    let lastWord := (stop - 1) / 64
    if firstWord = lastWord then
      some (b.modify firstWord (· ||| (firstMask start &&& lastMask stop)))
    else
      let b := fill (b.modify firstWord (· ||| firstMask start)) (firstWord + 1)
        (lastWord - (firstWord + 1))
      some (b.modify lastWord (· ||| lastMask stop))

/-- What `firstUnset` returns at a word, unless it goes on. -/
def unsetIn (stop wordIndex : Nat) (word : BitVec 64) : Option Nat :=
  if word ≠ BitVec.allOnes 64 then some (min (wordIndex * 64 + (~~~word).ctz.toNat) stop)
  else if stop ≤ (wordIndex + 1) * 64 then some stop
  else none

/-- The loop of `firstUnset`, at a word and with the words after it. -/
def scan (stop : Nat) : Nat → BitVec 64 → List (BitVec 64) → Nat
  | wordIndex, word, [] => (unsetIn stop wordIndex word).getD ((wordIndex + 1) * 64)
  | wordIndex, word, next :: rest =>
    (unsetIn stop wordIndex word).getD (scan stop (wordIndex + 1) next rest)

def firstUnset (b : Bitmap) (start stop : Nat) : Option Nat :=
  if stop < start then none
  else if start = stop then some stop
  else match b.drop (start / 64) with
    | [] => some start
    | word :: rest => some (scan stop (start / 64) (word ||| ((1#64 <<< (start % 64)) - 1#64)) rest)

/-! ## Bits -/

def bit (b : Bitmap) (i : Nat) : Bool := (b[i / 64]?.getD 0).getLsbD (i % 64)

variable {b : Bitmap} {i : Nat}

theorem bit_append_replicate (n : Nat) : bit (b ++ List.replicate n 0) i = b.bit i := by
  rw [bit, bit, List.getElem?_append]
  split
  · rfl
  · next hlong =>
    rw [List.getElem?_eq_none (Nat.le_of_not_lt hlong), List.getElem?_replicate]
    split <;> rfl

theorem bit_grow (wordCount : Nat) : (b.grow wordCount).bit i = b.bit i := by
  rw [grow]
  split
  · exact bit_append_replicate _
  · rfl

theorem le_length_grow (wordCount : Nat) : wordCount ≤ (b.grow wordCount).length := by
  rw [grow]
  split
  · have hsize := Nat.lt_size_self (wordCount - 1)
    simp only [List.length_append, List.length_replicate]
    split <;> omega
  · omega

theorem bit_modify {w : Nat} (hw : w < b.length) (mask : BitVec 64) :
    bit (b.modify w (· ||| mask)) i = (b.bit i || (i / 64 = w && mask.getLsbD (i % 64))) := by
  rw [bit, bit]
  by_cases h : w = i / 64
  · subst h
    simp [List.getElem?_eq_getElem hw]
  · simp [h, Ne.symm h]

theorem bit_set {w : Nat} (hw : w < b.length) :
    bit (b.set w (BitVec.allOnes 64)) i = (b.bit i || i / 64 = w) := by
  rw [bit, bit, List.getElem?_set]
  by_cases h : w = i / 64
  · have hj : i % 64 < 64 := Nat.mod_lt _ (by omega)
    rw [if_pos h, if_pos hw, Option.getD_some, BitVec.getLsbD_allOnes, decide_eq_true hj,
      decide_eq_true h.symm, Bool.or_true]
  · rw [if_neg h, decide_eq_false (Ne.symm h), Bool.or_false]

theorem bit_fill {first count : Nat} (h : first + count ≤ b.length) :
    bit (fill b first count) i = true ↔
      b.bit i = true ∨ first ≤ i / 64 ∧ i / 64 < first + count := by
  induction count generalizing b first with
  | zero =>
    exact ⟨.inl, fun h => h.resolve_right (by omega)⟩
  | succ count ih =>
    have hroom : first + 1 + count ≤ (b.set first (BitVec.allOnes 64)).length := by
      rw [List.length_set]
      omega
    rw [fill, ih hroom, bit_set (by omega), Bool.or_eq_true, decide_eq_true_eq, or_assoc]
    refine or_congr_right ?_
    omega

theorem length_fill (first count : Nat) : (fill b first count).length = b.length := by
  induction count generalizing b first with
  | zero => rfl
  | succ count ih => rw [fill, ih, List.length_set]

theorem getLsbD_firstMask (start : Nat) {j : Nat} (hj : j < 64) :
    (firstMask start).getLsbD j = decide (start % 64 ≤ j) := by
  rw [firstMask, BitVec.getLsbD_shiftLeft, BitVec.getLsbD_allOnes]
  by_cases h : start % 64 ≤ j
  · simp [h]
    omega
  · simp [h]

theorem getLsbD_below {n : Nat} (hn : n < 64) (j : Nat) :
    ((1#64 <<< n) - 1#64).getLsbD j = decide (j < n) := by
  have hone : (1#64 <<< n).toNat = 2 ^ n := BitVec.toNat_twoPow_of_lt hn
  have hle : 1#64 ≤ 1#64 <<< n := by
    rw [BitVec.le_def, hone]
    exact Nat.one_le_two_pow
  have hsub : ((1#64 <<< n) - 1#64).toNat = 2 ^ n - 1 := by
    rw [BitVec.toNat_sub_of_le hle, hone]
    rfl
  rw [← BitVec.testBit_toNat, hsub, Nat.testBit_two_pow_sub_one]

theorem getLsbD_lastMask (stop : Nat) {j : Nat} (hj : j < 64) :
    (lastMask stop).getLsbD j = decide (stop % 64 = 0 ∨ j < stop % 64) := by
  rw [lastMask]
  split
  · next h =>
    rw [getLsbD_below (Nat.mod_lt _ (by omega))]
    simp [h]
  · next h =>
    rw [BitVec.getLsbD_allOnes]
    simp [not_not.mp h, hj]

/-- The bits of the range are set, and no others. -/
theorem bit_setRange (b : Bitmap) {start stop : Nat} (h : start < stop) :
    ∃ b', b.setRange start stop = some b' ∧
      ∀ i, b'.bit i = true ↔ b.bit i = true ∨ start ≤ i ∧ i < stop := by
  have hlength := b.le_length_grow ((stop - 1) / 64 + 1)
  rw [setRange, if_neg (by omega), if_neg (by omega)]
  simp only
  split
  · refine ⟨_, rfl, fun i => ?_⟩
    have hj : i % 64 < 64 := Nat.mod_lt _ (by omega)
    rw [bit_modify (by omega), bit_grow, BitVec.getLsbD_and, getLsbD_firstMask start hj,
      getLsbD_lastMask stop hj]
    simp only [Bool.or_eq_true, Bool.and_eq_true, decide_eq_true_eq]
    refine or_congr_right ?_
    omega
  · refine ⟨_, rfl, fun i => ?_⟩
    have hj : i % 64 < 64 := Nat.mod_lt _ (by omega)
    have hroom : start / 64 + 1 + ((stop - 1) / 64 - (start / 64 + 1)) ≤
        ((b.grow ((stop - 1) / 64 + 1)).modify (start / 64) (· ||| firstMask start)).length := by
      rw [List.length_modify]
      omega
    have hlast : (stop - 1) / 64 < (fill ((b.grow ((stop - 1) / 64 + 1)).modify (start / 64)
        (· ||| firstMask start)) (start / 64 + 1) ((stop - 1) / 64 - (start / 64 + 1))).length := by
      rw [length_fill, List.length_modify]
      omega
    rw [bit_modify hlast, Bool.or_eq_true, bit_fill hroom, bit_modify (by omega), bit_grow,
      getLsbD_firstMask start hj, getLsbD_lastMask stop hj]
    simp only [Bool.or_eq_true, Bool.and_eq_true, decide_eq_true_eq, or_assoc]
    refine or_congr_right ?_
    omega

/-! ## The first unset bit -/

/-- A number is the first unset bit at or after `first`, or the end. -/
structure FirstUnset (b : Bitmap) (first stop r : Nat) : Prop where
  le : first ≤ r
  le_stop : r ≤ stop
  set : ∀ i, first ≤ i → i < r → b.bit i = true
  unset : r < stop → b.bit r = false

section Scan

variable {before : Bitmap} {word : BitVec 64} {rest : List (BitVec 64)} {stop : Nat}

theorem bit_of_word (hfirst : before.length * 64 ≤ i) (hlast : i < (before.length + 1) * 64) :
    bit (before ++ word :: rest) i = word.getLsbD (i - before.length * 64) := by
  have hword : i / 64 = before.length := by omega
  have hbit : i % 64 = i - before.length * 64 := by omega
  rw [bit, hword, List.getElem?_append_right (Nat.le_refl _), Nat.sub_self, hbit]
  rfl

/-- The first unset bit is in this word, if the word has one. -/
theorem firstUnset_of_ne (hword : word ≠ BitVec.allOnes 64) (h : before.length * 64 < stop) :
    FirstUnset (before ++ word :: rest) (before.length * 64) stop
      (min (before.length * 64 + (~~~word).ctz.toNat) stop) := by
  have hne : ~~~word ≠ 0 := fun hzero => hword (by rw [← BitVec.not_not (b := word), hzero]; rfl)
  have hunset := BitVec.getLsbD_true_ctz_of_ne_zero hne
  have hlt : (~~~word).ctz.toNat < 64 := BitVec.lt_of_getLsbD hunset
  refine ⟨by omega, by omega, fun i hfirst hi => ?_, fun hr => ?_⟩
  · rw [bit_of_word hfirst (by omega)]
    have hbelow := BitVec.getLsbD_false_of_lt_ctz (x := ~~~word) (i := i - before.length * 64)
      (by omega)
    simpa [show i - before.length * 64 < 64 by omega] using hbelow
  · rw [Nat.min_eq_left (by omega), bit_of_word (by omega) (by omega)]
    simpa [hlt] using hunset

theorem bit_of_allOnes (hfirst : before.length * 64 ≤ i) (hlast : i < (before.length + 1) * 64) :
    bit (before ++ BitVec.allOnes 64 :: rest) i = true := by
  rw [bit_of_word hfirst hlast, BitVec.getLsbD_allOnes]
  exact decide_eq_true (by omega)

theorem unsetIn_some {r : Nat} (h : before.length * 64 < stop)
    (hr : unsetIn stop before.length word = some r) :
    FirstUnset (before ++ word :: rest) (before.length * 64) stop r := by
  rw [unsetIn] at hr
  split at hr
  · next hword =>
    cases hr
    exact firstUnset_of_ne hword h
  · next hword =>
    obtain ⟨hstop, rfl⟩ := Transition.of_guard hr
    obtain rfl := not_not.mp hword
    refine ⟨Nat.le_of_lt h, Nat.le_refl _, fun i hfirst hi => ?_, fun hr => ?_⟩
    · exact bit_of_allOnes hfirst (Nat.lt_of_lt_of_le hi hstop)
    · exact absurd hr (Nat.lt_irrefl _)

theorem unsetIn_none (hr : unsetIn stop before.length word = none) :
    word = BitVec.allOnes 64 ∧ (before.length + 1) * 64 < stop := by
  rw [unsetIn] at hr
  split at hr
  · cases hr
  · next hword =>
    split at hr
    · cases hr
    · next hstop => exact ⟨not_not.mp hword, Nat.lt_of_not_le hstop⟩

/-- The words before the word at hand are passed over. -/
theorem scan_spec (h : before.length * 64 < stop) :
    FirstUnset (before ++ word :: rest) (before.length * 64) stop
      (scan stop before.length word rest) := by
  induction rest generalizing before word with
  | nil =>
    cases hr : unsetIn stop before.length word with
    | some r =>
      rw [scan, hr]
      exact unsetIn_some h hr
    | none =>
      obtain ⟨rfl, hstop⟩ := unsetIn_none hr
      rw [scan, hr, Option.getD_none]
      refine ⟨by omega, Nat.le_of_lt hstop, fun i => bit_of_allOnes, fun _ => ?_⟩
      rw [bit, List.getElem?_eq_none (by simp)]
      exact BitVec.getLsbD_zero
  | cons next rest ih =>
    cases hr : unsetIn stop before.length word with
    | some r =>
      rw [scan, hr]
      exact unsetIn_some h hr
    | none =>
      obtain ⟨rfl, hstop⟩ := unsetIn_none hr
      have hlength : (before ++ [BitVec.allOnes 64]).length = before.length + 1 := by simp
      have hrest := @ih (before ++ [BitVec.allOnes 64]) next (by rwa [hlength])
      rw [hlength, List.append_assoc] at hrest
      rw [scan, hr, Option.getD_none]
      refine ⟨by have := hrest.le; omega, hrest.le_stop, fun i hfirst hi => ?_, hrest.unset⟩
      rcases Nat.lt_or_ge i ((before.length + 1) * 64) with hin | hafter
      · exact bit_of_allOnes hfirst hin
      · exact hrest.set i hafter hi

end Scan

/-- `firstUnset` finds the first unset bit. -/
theorem firstUnset_spec (b : Bitmap) {start stop : Nat} (h : start < stop) :
    ∃ r, b.firstUnset start stop = some r ∧ FirstUnset b start stop r := by
  rw [firstUnset, if_neg (by omega), if_neg (by omega)]
  by_cases hlt : start / 64 < b.length
  · rw [List.drop_eq_getElem_cons hlt]
    refine ⟨_, rfl, ?_⟩
    -- the bits of the first word before `start` count as set
    generalize hmask : (1#64 <<< (start % 64)) - 1#64 = mask
    have hmasked : ∀ i, bit (b.modify (start / 64) (· ||| mask)) i = true ↔
        b.bit i = true ∨ i / 64 = start / 64 ∧ i % 64 < start % 64 := by
      intro i
      rw [bit_modify hlt, ← hmask, getLsbD_below (Nat.mod_lt _ (by omega)), Bool.or_eq_true,
        Bool.and_eq_true, decide_eq_true_eq, decide_eq_true_eq]
    have hmodify : b.modify (start / 64) (· ||| mask) =
        b.take (start / 64) ++ (b[start / 64] ||| mask) :: b.drop (start / 64 + 1) :=
      List.modify_eq_take_cons_drop hlt
    have hlength : (b.take (start / 64)).length = start / 64 := by
      rw [List.length_take]
      omega
    have hscan := @scan_spec (b.take (start / 64)) (b[start / 64] ||| mask)
      (b.drop (start / 64 + 1)) stop (by omega)
    rw [hlength, ← hmodify] at hscan
    obtain ⟨hle, hstop, hset, hunset⟩ := hscan
    generalize scan stop (start / 64) (b[start / 64] ||| mask) _ = r at hle hstop hset hunset ⊢
    have hclear : r < stop → ¬ (b.bit r = true ∨ r / 64 = start / 64 ∧ r % 64 < start % 64) :=
      fun hr hbit => by rw [← hmasked, hunset hr] at hbit; cases hbit
    have hstart : start ≤ r := by
      by_contra hbefore
      exact hclear (by omega) (.inr (by omega))
    refine ⟨hstart, hstop, fun i hi hr => ?_, fun hr => ?_⟩
    · exact ((hmasked i).mp (hset i (by omega) hr)).resolve_right (by omega)
    · exact Bool.eq_false_iff.mpr fun hbit => hclear hr (.inl hbit)
  · rw [List.drop_eq_nil_of_le (Nat.le_of_not_lt hlt)]
    refine ⟨start, rfl, Nat.le_refl _, Nat.le_of_lt h, fun i hi hi' => by omega, fun _ => ?_⟩
    rw [bit, List.getElem?_eq_none (Nat.le_of_not_lt hlt)]
    exact BitVec.getLsbD_zero

end Bitmap

end Sniffer
