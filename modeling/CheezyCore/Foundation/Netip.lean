import Mathlib.Data.BitVec
import CheezyCore.Foundation.Strings

/-!
# IP addresses and prefixes

The part of Go's `net/netip` the development uses. An address is an IPv4
address, an IPv6 address with a possibly empty zone, or not valid. The invalid
addresses are told apart by a number, because stepping past the last address
gives the zero one and stepping on from there counts up.
-/

namespace Netip

inductive Addr where
  | invalid (value : BitVec 128)
  | v4 (value : BitVec 32)
  | v6 (value : BitVec 128) (zone : List UInt8)
  deriving DecidableEq, Repr

/-- `netip.Addr{}`. -/
def Addr.zero : Addr := .invalid 0

namespace Addr

def isValid : Addr → Bool
  | .invalid _ => false
  | _ => true

def is4 : Addr → Bool
  | .v4 _ => true
  | _ => false

def is6 : Addr → Bool
  | .v6 _ _ => true
  | _ => false

def bitLen : Addr → Nat
  | .invalid _ => 0
  | .v4 _ => 32
  | .v6 _ _ => 128

def zone : Addr → List UInt8
  | .v6 _ z => z
  | _ => []

/-- An IPv4 address in IPv6 form as the IPv4 address. -/
def unmap : Addr → Addr
  | .v6 x z => if x.toNat >>> 32 = 0xffff then .v4 (BitVec.ofNat 32 x.toNat) else .v6 x z
  | a => a

/-- The following address; after the last one of its kind comes the zero address. -/
def next : Addr → Addr
  | .invalid x => .invalid (x + 1)
  | .v4 x => if x + 1 = 0 then zero else .v4 (x + 1)
  | .v6 x z => if x + 1 = 0 then zero else .v6 (x + 1) z

/-- The preceding address; before the first one of its kind comes the zero address. -/
def prev : Addr → Addr
  | .invalid x => if x = 0 then zero else .invalid (x - 1)
  | .v4 x => if x = 0 then zero else .v4 (x - 1)
  | .v6 x z => if x = 0 then zero else .v6 (x - 1) z

/-- Addresses are ordered by length, then by value, then by zone. -/
def less : Addr → Addr → Bool
  | .invalid x, .invalid y => decide (x < y)
  | .v4 x, .v4 y => decide (x < y)
  | .v6 x z, .v6 y z' => decide (x < y) || (x == y && decide (z < z'))
  | a, b => decide (a.bitLen < b.bitLen)

/-- The big-endian bytes of a value. -/
def bigEndian {w : Nat} (n : Nat) (x : BitVec w) : List UInt8 :=
  (List.range n).map fun i => UInt8.ofNat (x.toNat >>> (8 * (n - 1 - i)))

def asSlice : Addr → List UInt8
  | .invalid _ => []
  | .v4 x => bigEndian 4 x
  | .v6 x _ => bigEndian 16 x

/-- `netip.AddrFromSlice`: four bytes are an IPv4 address and sixteen an IPv6 one. -/
def ofSlice (s : List UInt8) : Option Addr :=
  let value := s.foldl (fun n b => n * 256 + b.toNat) 0
  if s.length = 4 then some (.v4 (BitVec.ofNat 32 value))
  else if s.length = 16 then some (.v6 (BitVec.ofNat 128 value) [])
  else none

theorem isValid_unmap (a : Addr) : a.unmap.isValid = a.isValid := by
  cases a with
  | invalid | v4 => rfl
  | v6 x z =>
    rw [unmap]
    split
    · rfl
    · rfl

variable {a : Addr}

theorem length_asSlice_of_is4 (h : a.is4) : a.asSlice.length = 4 := by
  cases a with
  | v4 x => simp [asSlice, bigEndian]
  | invalid | v6 => cases h

theorem length_asSlice_of_not_is4 (h : ¬a.is4) : a.asSlice.length = 16 ↔ a.isValid := by
  cases a with
  | invalid x => simp [asSlice, isValid]
  | v4 x => exact absurd rfl h
  | v6 x z => simp [asSlice, bigEndian, isValid]

end Addr

/-- A valid `netip.Prefix`. -/
structure Prefix where
  ip : Addr
  bits : Nat
  isValid : ip.isValid
  noZone : ip.zone = []
  bits_le : bits ≤ ip.bitLen

namespace Prefix

/-- The mask that keeps the leading `bits` bits. -/
def mask (w bits : Nat) : BitVec w := BitVec.allOnes w <<< (w - bits)

/-- `Prefix.Masked().Addr()`. -/
def masked (p : Prefix) : Addr :=
  match p.ip with
  | .invalid x => .invalid x
  | .v4 x => .v4 (x &&& mask 32 p.bits)
  | .v6 x z => .v6 (x &&& mask 128 p.bits) z

/-- An address with a zone, or of the other family, is in no prefix. -/
def contains (p : Prefix) (a : Addr) : Bool :=
  match p.ip, a with
  | .v4 x, .v4 y => (x ^^^ y) &&& mask 32 p.bits == 0
  | .v6 x _, .v6 y z => z.isEmpty && (x ^^^ y) &&& mask 128 p.bits == 0
  | _, _ => false

end Prefix

end Netip
