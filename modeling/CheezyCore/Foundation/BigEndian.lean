import Mathlib.Algebra.Order.Ring.Int
import Mathlib.Data.List.Basic
import Mathlib.Data.List.Induction

/-!
# Big-endian words and exact reads over byte lists

Byte strings are lists of `UInt8`. A 16-bit word occupies two bytes, most
significant first; writing and reading it are inverse in both directions. Longer
words are written and read as numbers.

`readFull n` is the read of exactly `n` bytes from the front of a byte string.
It fails with the bytes that were left when there are fewer than `n` of them.
A `Fixed n` is a byte array of length `n`.
-/

namespace BigEndian

/-- The two bytes of a word, most significant first. -/
def putUint16 (n : UInt16) : List UInt8 := [(n >>> 8).toUInt8, n.toUInt8]

/-- The word whose most significant byte is `hi`. -/
def uint16 (hi lo : UInt8) : UInt16 := (hi.toUInt16 <<< 8) ||| lo.toUInt16

theorem uint16_toNat (hi lo : UInt8) : (uint16 hi lo).toNat = hi.toNat * 256 + lo.toNat := by
  have hhi := hi.toNat_lt
  have hlo := lo.toNat_lt
  have hfit : hi.toNat <<< 8 % 65536 = hi.toNat <<< 8 := by
    omega
  change hi.toNat <<< 8 % 65536 ||| lo.toNat = _
  rw [hfit, ← Nat.shiftLeft_add_eq_or_of_lt (by omega : lo.toNat < 2 ^ 8), Nat.shiftLeft_eq]

private theorem high_toNat (n : UInt16) : (n >>> 8).toUInt8.toNat = n.toNat / 256 := by
  have hn := n.toNat_lt
  change n.toNat >>> 8 % 256 = _
  omega

@[simp] theorem uint16_bytes (n : UInt16) : uint16 (n >>> 8).toUInt8 n.toUInt8 = n := by
  apply UInt16.toNat_inj.mp
  rw [uint16_toNat, high_toNat, UInt16.toNat_toUInt8]
  omega

@[simp] theorem putUint16_uint16 (hi lo : UInt8) : putUint16 (uint16 hi lo) = [hi, lo] := by
  have hlo := lo.toNat_lt
  simp only [putUint16, List.cons.injEq, and_true]
  constructor
  · apply UInt8.toNat_inj.mp
    rw [high_toNat, uint16_toNat]
    omega
  · apply UInt8.toNat_inj.mp
    rw [UInt16.toNat_toUInt8, uint16_toNat]
    omega

@[simp] theorem putUint16_length (n : UInt16) : (putUint16 n).length = 2 := rfl

/-! ## Words of any length -/

/-- The last `k` bytes of a number, most significant first. -/
def putNat : Nat → Nat → List UInt8
  | 0, _ => []
  | k + 1, n => putNat k (n / 256) ++ [UInt8.ofNat n]

/-- The number whose bytes these are. -/
def ofBytes (bytes : List UInt8) : Nat := bytes.foldl (fun n byte => n * 256 + byte.toNat) 0

@[simp] theorem length_putNat (k n : Nat) : (putNat k n).length = k := by
  induction k generalizing n with
  | zero => rfl
  | succ k ih => rw [putNat, List.length_append, ih, List.length_singleton]

theorem ofBytes_concat (bytes : List UInt8) (byte : UInt8) :
    ofBytes (bytes ++ [byte]) = ofBytes bytes * 256 + byte.toNat :=
  List.foldl_append

theorem ofBytes_putNat (k n : Nat) : ofBytes (putNat k n) = n % 256 ^ k := by
  induction k generalizing n with
  | zero =>
    rw [Nat.pow_zero, Nat.mod_one]
    rfl
  | succ k ih =>
    have hbyte : (UInt8.ofNat n).toNat = n % 256 := UInt8.toNat_ofNat'
    rw [putNat, ofBytes_concat, ih, Nat.pow_succ', Nat.mod_mul]
    omega

theorem putNat_ofBytes (bytes : List UInt8) : putNat bytes.length (ofBytes bytes) = bytes := by
  induction bytes using List.reverseRecOn with
  | nil => rfl
  | append_singleton bytes byte ih =>
    have hbyte := byte.toNat_lt
    have hhigh : (ofBytes bytes * 256 + byte.toNat) / 256 = ofBytes bytes := by omega
    have hlow : UInt8.ofNat (ofBytes bytes * 256 + byte.toNat) = byte := by
      apply UInt8.toNat_inj.mp
      rw [UInt8.toNat_ofNat']
      omega
    rw [List.length_append, List.length_singleton, ofBytes_concat, putNat, hhigh, ih, hlow]

theorem ofBytes_putUint16 (n : UInt16) : ofBytes (putUint16 n) = n.toNat := by
  change (0 * 256 + (n >>> 8).toUInt8.toNat) * 256 + n.toUInt8.toNat = n.toNat
  rw [high_toNat, UInt16.toNat_toUInt8]
  omega

def putUint32 (n : UInt32) : List UInt8 := putNat 4 n.toNat

def uint32 (bytes : List UInt8) : UInt32 := UInt32.ofNat (ofBytes bytes)

@[simp] theorem length_putUint32 (n : UInt32) : (putUint32 n).length = 4 := length_putNat 4 n.toNat

@[simp] theorem uint32_putUint32 (n : UInt32) : uint32 (putUint32 n) = n := by
  have hfits : n.toNat % 256 ^ 4 = n.toNat := Nat.mod_eq_of_lt n.toNat_lt
  rw [uint32, putUint32, ofBytes_putNat, hfits]
  exact UInt32.ofNat_toNat

variable {bytes : List UInt8}

theorem putUint32_uint32 (h : bytes.length = 4) : putUint32 (uint32 bytes) = bytes := by
  have hbound : ofBytes bytes < 256 ^ 4 := by
    have hmod := ofBytes_putNat 4 (ofBytes bytes)
    rw [← h, putNat_ofBytes, h] at hmod
    rw [hmod]
    exact Nat.mod_lt _ (by decide)
  rw [putUint32, uint32, UInt32.toNat_ofNat_of_lt' hbound, ← h, putNat_ofBytes]

def putUint64 (n : UInt64) : List UInt8 := putNat 8 n.toNat

def uint64 (bytes : List UInt8) : UInt64 := UInt64.ofNat (ofBytes bytes)

@[simp] theorem uint64_putUint64 (n : UInt64) : uint64 (putUint64 n) = n := by
  have hfits : n.toNat % 256 ^ 8 = n.toNat := Nat.mod_eq_of_lt n.toNat_lt
  rw [uint64, putUint64, ofBytes_putNat, hfits]
  exact UInt64.ofNat_toNat

theorem putUint32_injective {n m : UInt32} (h : putUint32 n = putUint32 m) : n = m := by
  rw [← uint32_putUint32 n, h, uint32_putUint32]

/-- Read exactly `n` bytes: the bytes and what follows them, or, when the input
is too short, whatever was there. -/
def readFull (n : Nat) (input : List UInt8) : Except (List UInt8) (List UInt8 × List UInt8) :=
  if n ≤ input.length then .ok (input.take n, input.drop n) else .error input

@[simp] theorem readFull_append (bytes rest : List UInt8) :
    readFull bytes.length (bytes ++ rest) = .ok (bytes, rest) := by
  simp [readFull]

theorem readFull_ok_iff {n : Nat} {input rest : List UInt8} :
    readFull n input = .ok (bytes, rest) ↔ input = bytes ++ rest ∧ bytes.length = n := by
  constructor
  · intro h
    unfold readFull at h
    split at h <;> cases h
    simp_all
  · rintro ⟨rfl, rfl⟩
    exact readFull_append bytes rest

/-- Byte arrays of a fixed length. -/
def Fixed (n : Nat) : Type := { bytes : List UInt8 // bytes.length = n }

namespace Fixed

variable {n : Nat}

instance : DecidableEq (Fixed n) :=
  inferInstanceAs (DecidableEq { bytes : List UInt8 // bytes.length = n })

def toList (a : Fixed n) : List UInt8 := a.1

@[simp] theorem length_toList (a : Fixed n) : a.toList.length = n := a.2

theorem toList_injective {a b : Fixed n} (h : a.toList = b.toList) : a = b := Subtype.ext h

/-- The array of zero bytes. -/
def zero (n : Nat) : Fixed n := ⟨List.replicate n 0, List.length_replicate⟩

/-- The first `n` bytes of a string, padded with zeros as a partial copy leaves them. -/
def ofPrefix (n : Nat) (bytes : List UInt8) : Fixed n :=
  ⟨(bytes ++ List.replicate n 0).take n, by simp⟩

@[simp] theorem ofPrefix_toList (a : Fixed n) : ofPrefix n a.toList = a := by
  apply toList_injective
  simp [ofPrefix, toList, a.2]

@[simp] theorem ofPrefix_append (a : Fixed n) (rest : List UInt8) :
    ofPrefix n (a.toList ++ rest) = a := by
  apply toList_injective
  simp [ofPrefix, toList, a.2]

theorem toList_ofPrefix (h : bytes.length = n) : (ofPrefix n bytes).toList = bytes := by
  simp [ofPrefix, toList, ← h]

end Fixed

end BigEndian
