import Mathlib.Algebra.Order.Ring.Int
import Mathlib.Data.List.Basic
import Mathlib.Data.Nat.Bitwise

/-!
# Bits of words

The bits of a number, the most significant first, and a buffer into which words of one width
are pushed and from which words of another width are taken.
-/

/-- The lowest bits of a number, the most significant first. -/
def toBits : Nat → Nat → List Bool
  | 0, _ => []
  | width + 1, n => n.testBit width :: toBits width n

section ToBits

variable {n m width : Nat}

@[simp] theorem length_toBits (width n : Nat) : (toBits width n).length = width := by
  induction width with
  | zero => rfl
  | succ width ih => rw [toBits, List.length_cons, ih]

theorem toBits_congr (h : ∀ i, i < width → n.testBit i = m.testBit i) :
    toBits width n = toBits width m := by
  induction width with
  | zero => rfl
  | succ width ih =>
    rw [toBits, toBits, h width (Nat.lt_succ_self width), ih fun i hi => h i (Nat.lt_succ_of_lt hi)]

/-- The high bits come before the low bits. -/
theorem toBits_add (high low n : Nat) :
    toBits (high + low) n = toBits high (n >>> low) ++ toBits low n := by
  induction high with
  | zero => rw [Nat.zero_add, toBits, List.nil_append]
  | succ high ih =>
    rw [Nat.succ_add, toBits, toBits, ih, Nat.testBit_shiftRight, Nat.add_comm low high]
    rfl

theorem toBits_mod (width n : Nat) : toBits width (n % 2 ^ width) = toBits width n := by
  apply toBits_congr
  intro i hi
  rw [Nat.testBit_mod_two_pow, decide_eq_true hi, Bool.true_and]

/-- The low bits of a number whose high bits are put in front of it. -/
theorem toBits_shiftLeft_or (high low n m : Nat) (hm : m < 2 ^ low) :
    toBits (high + low) (n <<< low ||| m) = toBits high n ++ toBits low m := by
  rw [toBits_add, ← Nat.shiftLeft_add_eq_or_of_lt hm]
  congr 1
  · rw [Nat.shiftLeft_eq, Nat.shiftRight_eq_div_pow, Nat.mul_comm,
      Nat.mul_add_div (Nat.two_pow_pos low), Nat.div_eq_of_lt hm, Nat.add_zero]
  · rw [← toBits_mod, Nat.shiftLeft_eq, Nat.mul_comm, Nat.mul_add_mod, Nat.mod_eq_of_lt hm]

theorem toBits_injective (hn : n < 2 ^ width) (hm : m < 2 ^ width)
    (h : toBits width n = toBits width m) : n = m := by
  induction width generalizing n m with
  | zero => omega
  | succ width ih =>
    obtain ⟨hhigh, hlow⟩ := List.cons_eq_cons.mp h
    have hrest : n % 2 ^ width = m % 2 ^ width := by
      apply ih (Nat.mod_lt _ (Nat.two_pow_pos width)) (Nat.mod_lt _ (Nat.two_pow_pos width))
      rw [toBits_mod, toBits_mod]
      exact hlow
    apply Nat.eq_of_testBit_eq
    intro i
    obtain hi | rfl | hi := Nat.lt_trichotomy i width
    · have hbit := congrArg (Nat.testBit · i) hrest
      simpa only [Nat.testBit_mod_two_pow, decide_eq_true hi, Bool.true_and] using hbit
    · exact hhigh
    · rw [Nat.testBit_lt_two_pow (Nat.lt_of_lt_of_le hn (Nat.pow_le_pow_right (by decide) hi)),
        Nat.testBit_lt_two_pow (Nat.lt_of_lt_of_le hm (Nat.pow_le_pow_right (by decide) hi))]

/-- The bits of a byte. -/
def byteBits (b : UInt8) : List Bool := toBits 8 b.toNat

@[simp] theorem length_byteBits (b : UInt8) : (byteBits b).length = 8 := length_toBits 8 b.toNat

@[simp] theorem length_flatMap_byteBits (bytes : List UInt8) :
    (bytes.flatMap byteBits).length = 8 * bytes.length := by
  induction bytes with
  | nil => rfl
  | cons b bytes ih =>
    rw [List.flatMap_cons, List.length_append, length_byteBits, List.length_cons]
    omega

/-- Two byte strings with a common beginning of their bits. -/
theorem eq_of_byteBits_append {first second : List UInt8} {more more' : List Bool}
    (hlength : first.length = second.length)
    (h : first.flatMap byteBits ++ more = second.flatMap byteBits ++ more') :
    first = second ∧ more = more' := by
  induction first generalizing second with
  | nil =>
    cases second with
    | nil => exact ⟨rfl, h⟩
    | cons b second => cases hlength
  | cons a first ih =>
    cases second with
    | nil => cases hlength
    | cons b second =>
      rw [List.flatMap_cons, List.flatMap_cons, List.append_assoc, List.append_assoc] at h
      obtain ⟨hbyte, hrest⟩ := List.append_inj h (by simp)
      obtain ⟨rfl, hmore⟩ := ih (Nat.succ.inj hlength) hrest
      have hab : a = b := UInt8.toNat_inj.mp (toBits_injective a.toNat_lt b.toNat_lt hbyte)
      exact ⟨by rw [hab], hmore⟩

end ToBits

/-- Bits that wait until there are enough of them. -/
structure BitBuffer where
  value : Nat
  count : Nat
  fits : value < 2 ^ count

namespace BitBuffer

def empty : BitBuffer := ⟨0, 0, Nat.one_pos⟩

def bits (buffer : BitBuffer) : List Bool := toBits buffer.count buffer.value

def push (buffer : BitBuffer) (width n : Nat) (hn : n < 2 ^ width) : BitBuffer where
  value := buffer.value <<< width ||| n
  count := buffer.count + width
  fits := by
    rw [← Nat.shiftLeft_add_eq_or_of_lt hn, Nat.shiftLeft_eq, Nat.pow_add]
    calc buffer.value * 2 ^ width + n
      _ < buffer.value * 2 ^ width + 2 ^ width := Nat.add_lt_add_left hn _
      _ = (buffer.value + 1) * 2 ^ width := (Nat.succ_mul _ _).symm
      _ ≤ 2 ^ buffer.count * 2 ^ width := Nat.mul_le_mul_right _ buffer.fits

/-- The first bits, and the buffer without them. -/
def pop (buffer : BitBuffer) (width : Nat) : Nat × BitBuffer :=
  (buffer.value >>> (buffer.count - width),
    ⟨buffer.value % 2 ^ (buffer.count - width), buffer.count - width,
      Nat.mod_lt _ (Nat.two_pow_pos _)⟩)

variable {buffer : BitBuffer} {width n : Nat}

@[simp] theorem bits_empty : empty.bits = [] := rfl

@[simp] theorem length_bits (buffer : BitBuffer) : buffer.bits.length = buffer.count :=
  length_toBits _ _

@[simp] theorem bits_push (hn : n < 2 ^ width) :
    (buffer.push width n hn).bits = buffer.bits ++ toBits width n :=
  toBits_shiftLeft_or buffer.count width buffer.value n hn

@[simp] theorem count_push (hn : n < 2 ^ width) :
    (buffer.push width n hn).count = buffer.count + width := rfl

@[simp] theorem count_pop : (buffer.pop width).2.count = buffer.count - width := rfl

theorem bits_pop (h : width ≤ buffer.count) :
    buffer.bits = toBits width (buffer.pop width).1 ++ (buffer.pop width).2.bits := by
  have hsplit := toBits_add width (buffer.count - width) buffer.value
  rw [Nat.add_sub_cancel' h] at hsplit
  rw [bits, hsplit, bits, pop, toBits_mod]

theorem pop_lt (h : width ≤ buffer.count) : (buffer.pop width).1 < 2 ^ width := by
  rw [pop, Nat.shiftRight_eq_div_pow, Nat.div_lt_iff_lt_mul (Nat.two_pow_pos _), ← Nat.pow_add,
    Nat.add_sub_cancel' h]
  exact buffer.fits

theorem eq_empty_of_count (h : buffer.count = 0) : buffer = empty := by
  obtain ⟨value, count, fits⟩ := buffer
  cases h
  have hvalue : value = 0 := Nat.lt_one_iff.mp fits
  subst hvalue
  rfl

/-- Words are taken as long as there are enough bits, at most so many. -/
def popAll (width : Nat) : Nat → BitBuffer → List Nat × BitBuffer
  | 0, buffer => ([], buffer)
  | limit + 1, buffer =>
    if width ≤ buffer.count then
      let (first, rest) := buffer.pop width
      let (words, rest) := popAll width limit rest
      (first :: words, rest)
    else ([], buffer)

theorem popAll_spec {limit : Nat} (hwidth : 0 < width) (hlimit : buffer.count ≤ limit) :
    buffer.bits = (popAll width limit buffer).1.flatMap (toBits width) ++
        (popAll width limit buffer).2.bits ∧
      (popAll width limit buffer).2.count < width ∧
      ∀ word ∈ (popAll width limit buffer).1, word < 2 ^ width := by
  induction limit generalizing buffer with
  | zero =>
    refine ⟨rfl, ?_, nofun⟩
    show buffer.count < width
    omega
  | succ limit ih =>
    rw [popAll]
    split
    next henough =>
      obtain ⟨hbits, hcount, hwords⟩ := @ih (buffer.pop width).2 (by rw [count_pop]; omega)
      refine ⟨?_, hcount, ?_⟩
      · simp only [List.flatMap_cons, List.append_assoc]
        rw [← hbits]
        exact bits_pop henough
      · intro word hword
        obtain rfl | hword := List.mem_cons.mp hword
        · exact pop_lt henough
        · exact hwords word hword
    next hfew => exact ⟨rfl, Nat.not_le.mp hfew, nofun⟩

end BitBuffer
