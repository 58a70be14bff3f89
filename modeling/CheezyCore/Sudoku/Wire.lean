import Mathlib.Algebra.Order.Ring.Int
import Mathlib.Data.List.Basic
import Mathlib.Data.Nat.Basic

/-!
# Random draws and write buffers of the Sudoku codecs

The encoders are modelled for every stream of random numbers; `wyDraws` is the stream of
`sudokuRand`. Of a write buffer only the capacity is kept between two writes. `append`
changes the capacity only when it does not suffice, and then to a value that the runtime
chooses: this is the parameter `grow` of the codecs.
-/

namespace Sudoku

/-! ## Random numbers -/

/-- The values of `Uint64`, one after the other. -/
abbrev Draws := Nat → UInt64

namespace Draws

def uint64 (rng : Draws) : UInt64 × Draws := (rng 0, fun n => rng (n + 1))

def uint32 (rng : Draws) : UInt32 × Draws := ((rng 0 >>> 32).toUInt32, fun n => rng (n + 1))

end Draws

/-- The generator step: the next state and its output. -/
@[irreducible]
def wyNext (state : UInt64) : UInt64 × UInt64 :=
  let state := state + 0xa0761d6478bd642f
  let product := state.toNat * (state ^^^ 0xe7037ed1a0b428db).toNat
  (state, UInt64.ofNat (product / 2 ^ 64) ^^^ UInt64.ofNat product)

/-- `newSudokuRand`. -/
def wyDraws (seed : UInt64) : Draws
  | 0 => (wyNext seed).2
  | n + 1 => wyDraws (wyNext seed).1 n

def fastIntnFromUint32 (u : UInt32) (n : Nat) : Nat :=
  ((u.toUInt64 * UInt64.ofNat n) >>> 32).toNat

def Draws.intn (rng : Draws) (n : Nat) : Nat × Draws :=
  if n ≤ 1 then (0, rng)
  else
    let (u, rng) := rng.uint32
    (fastIntnFromUint32 u n, rng)

theorem fastIntnFromUint32_lt (u : UInt32) {n : Nat} (hpos : 0 < n) (hn : n < 2 ^ 32) :
    fastIntnFromUint32 u n < n := by
  have hu : u.toNat < 2 ^ 32 := u.toNat_lt
  have hproduct : u.toNat * n < 2 ^ 32 * n := Nat.mul_lt_mul_of_pos_right hu hpos
  have hsmall : u.toNat * n < 2 ^ 64 := by omega
  rw [fastIntnFromUint32, UInt64.toNat_shiftRight, UInt64.toNat_mul, UInt32.toNat_toUInt64,
    UInt64.toNat_ofNat_of_lt' (Nat.lt_trans hn (by decide)), Nat.mod_eq_of_lt hsmall]
  show (u.toNat * n) >>> 32 < n
  omega

theorem Draws.intn_lt (rng : Draws) {n : Nat} (hpos : 0 < n) (hn : n < 2 ^ 32) :
    (rng.intn n).1 < n := by
  rw [intn]
  split
  · exact hpos
  · exact fastIntnFromUint32_lt _ hpos hn

theorem getD_mem {pool : List UInt8} {i : Nat} (h : i < pool.length) : pool.getD i 0 ∈ pool := by
  rw [List.getD_eq_getElem?_getD, List.getElem?_eq_getElem h]
  exact List.getElem_mem h

/-! ## Write buffers -/

def maxEncodedWriteSize : Nat := 32 * 1024

def retainedWriteBytes : Nat := 2048

/-- The capacity of the buffer, given the capacity of the one that was kept. -/
def growWriteBuf (cap need : Nat) : Nat :=
  if need ≤ cap then cap else if need ≤ retainedWriteBytes then need else maxEncodedWriteSize

/-- The capacity of the buffer that is kept. -/
def releaseWriteBuf (cap : Nat) : Nat := if cap ≤ retainedWriteBytes then cap else 0

/-- The capacity after bytes were appended, up to the given ones. -/
def capAfter (grow : Nat → Nat → Nat) (cap : Nat) (out : List UInt8) : Nat :=
  if out.length ≤ cap then cap else grow cap out.length

theorem le_growWriteBuf (cap : Nat) {need : Nat} (h : need ≤ maxEncodedWriteSize) :
    need ≤ growWriteBuf cap need := by
  rw [growWriteBuf]
  split
  · assumption
  · split
    · exact Nat.le_refl need
    · exact h

theorem capAfter_of_le {grow : Nat → Nat → Nat} {cap : Nat} {out : List UInt8}
    (h : out.length ≤ cap) : capAfter grow cap out = cap := if_pos h

end Sudoku
