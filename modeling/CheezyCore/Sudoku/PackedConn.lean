import CheezyCore.Foundation.BitBuffer
import CheezyCore.Foundation.Decoding
import CheezyCore.Sudoku.Layout
import CheezyCore.Sudoku.Wire

/-!
# The packed codec

`PackedConn` sends the bits of its payloads in groups of six, one wire byte for each group, with
random padding between them. What is left of the last group of a `Write` is filled with zero bits
and followed by a marker, at which the reader drops the bits that it holds.

The two accumulators never hold more than 13 bits, so that the 64-bit shifts of the source
lose none. `none` stands for a panic or for a loop that does not end. The transport accepts
every write.
-/

namespace Sudoku

def packedProtectedPrefixBytes : Nat := 14

/-- The fields of a `PackedConn` that do not change. The pool of its table is the layout's. -/
structure PackedConn where
  layout : ByteLayout
  paddingThreshold : UInt64
  padPool : List UInt8

def newPackedConn (layout : ByteLayout) (paddingThreshold : UInt64) : PackedConn :=
  let padPool := layout.paddingPool.filter (· ≠ layout.padMarker)
  ⟨layout, paddingThreshold, if padPool = [] then [layout.padMarker] else padPool⟩

/-- The state of a `Write` between two of its steps. -/
structure PackedEncoder where
  rng : Draws
  bits : BitBuffer
  out : List UInt8

def PackedEncoder.nextProtectedPrefixGap (e : PackedEncoder) : Nat × PackedEncoder :=
  let (n, rng) := e.rng.intn 2
  (1 + n, { e with rng := rng })

/-- The low bits of one byte before the high bits of the next, as a group. -/
theorem join_lt {b c high low : Nat} (hb : b < 2 ^ high) (hc : c < 2 ^ low) (h : high + low = 6) :
    b <<< low ||| c < 64 := by
  have hfits := (BitBuffer.push ⟨b, high, hb⟩ low c hc).fits
  rw [show 64 = 2 ^ (high + low) by rw [h]; rfl]
  exact hfits

theorem shiftRight_lt (b : UInt8) {k n : Nat} (h : n + k = 8) : b.toNat >>> k < 2 ^ n := by
  rw [Nat.shiftRight_eq_div_pow, Nat.div_lt_iff_lt_mul (Nat.two_pow_pos k), ← Nat.pow_add, h]
  exact b.toNat_lt

namespace PackedConn

variable (pc : PackedConn)

/-! ## Writing -/

def maybeAppendPackedPadding (e : PackedEncoder) : PackedEncoder :=
  if pc.paddingThreshold ≠ 0 then
    let (u, rng) := e.rng.uint32
    if u.toUInt64 < pc.paddingThreshold then
      let (v, rng) := rng.uint32
      let padding := pc.padPool.getD (fastIntnFromUint32 v pc.padPool.length) 0
      { e with rng := rng, out := e.out ++ [padding] }
    else { e with rng := rng }
  else e

def appendPackedGroup (e : PackedEncoder) (group : Fin 64) : PackedEncoder :=
  let e := pc.maybeAppendPackedPadding e
  { e with out := e.out ++ [pc.layout.encodeGroup group] }

/-- Feed one byte into the accumulator and emit every group it completes. -/
def appendByte (e : PackedEncoder) (b : UInt8) : PackedEncoder :=
  let bits := e.bits.push 8 b.toNat b.toNat_lt
  let (groups, bits) := BitBuffer.popAll 6 bits.count bits
  groups.foldl (fun e group => pc.appendPackedGroup e (Fin.ofNat 64 group)) { e with bits := bits }

def appendForcedPadding (e : PackedEncoder) : PackedEncoder :=
  let (i, rng) := e.rng.intn pc.padPool.length
  { e with rng := rng, out := e.out ++ [pc.padPool.getD i 0] }

/-- The padding in front of the prefix. The loop draws its bound anew in every round. -/
def prefixPadding : Nat → Nat → PackedEncoder → Option PackedEncoder
  | 0, _, _ => none
  | fuel + 1, padCount, e =>
    let (n, rng) := e.rng.intn 2
    let e := { e with rng := rng }
    if padCount < 1 + n then prefixPadding fuel (padCount + 1) (pc.appendForcedPadding e)
    else some e

/-- The bytes of the prefix, with a padding byte after every `gap` of them. -/
def prefixBytes : Nat → Nat → PackedEncoder → List UInt8 → PackedEncoder
  | _, _, e, [] => e
  | gap, effective, e, b :: rest =>
    let e := pc.appendByte e b
    if gap ≤ effective + 1 then
      let (gap, e) := (pc.appendForcedPadding e).nextProtectedPrefixGap
      prefixBytes gap 0 e rest
    else prefixBytes gap (effective + 1) e rest

def writeProtectedPrefix (e : PackedEncoder) (p : List UInt8) : Option PackedEncoder :=
  if p = [] then some e
  else
    (pc.prefixPadding 3 0 e).map fun e =>
      let (gap, e) := e.nextProtectedPrefixGap
      pc.prefixBytes gap 0 e (p.take packedProtectedPrefixBytes)

/-- Bytes up to a group boundary, and those behind it. -/
def align : PackedEncoder → List UInt8 → PackedEncoder × List UInt8
  | e, [] => (e, [])
  | e, b :: rest => if 0 < e.bits.count then align (pc.appendByte e b) rest else (e, b :: rest)

/-- The four groups of three bytes. -/
def blockGroups (b₀ b₁ b₂ : UInt8) : List (Fin 64) :=
  [⟨b₀.toNat >>> 2, shiftRight_lt b₀ (n := 6) rfl⟩,
    ⟨(b₀.toNat &&& 3) <<< 4 ||| b₁.toNat >>> 4,
      join_lt (Nat.and_lt_two_pow _ (by decide)) (shiftRight_lt b₁ rfl) rfl⟩,
    ⟨(b₁.toNat &&& 15) <<< 2 ||| b₂.toNat >>> 6,
      join_lt (Nat.and_lt_two_pow _ (by decide)) (shiftRight_lt b₂ rfl) rfl⟩,
    ⟨b₂.toNat &&& 63, Nat.and_lt_two_pow (n := 6) _ (by decide)⟩]

/-- One block, without random draws when there is no padding. -/
def appendBlock (e : PackedEncoder) (groups : List (Fin 64)) : PackedEncoder :=
  if pc.paddingThreshold = 0 then { e with out := e.out ++ groups.map pc.layout.encodeGroup }
  else groups.foldl pc.appendPackedGroup e

/-- Complete blocks of three bytes. -/
def appendPackedBlocks : PackedEncoder → List UInt8 → PackedEncoder
  | e, b₀ :: b₁ :: b₂ :: rest =>
    appendPackedBlocks (pc.appendBlock e (blockGroups b₀ b₁ b₂)) rest
  | e, _ => e

def blockSize : Nat := if pc.paddingThreshold ≠ 0 then 8 else 4

/-- The loop over the blocks, which sends the buffer when it is full. It ends with the encoder,
the capacity of its buffer and what was sent. -/
def blockLoop (grow : Nat → Nat → Nat) :
    Nat → Nat → PackedEncoder → List UInt8 → Option (PackedEncoder × Nat × List (List UInt8))
  | 0, _, _, _ => none
  | fuel + 1, cap, e, rest =>
    if rest = [] then some (e, cap, [])
    else
      let count : Int :=
        min ((cap - e.out.length - 8 : Int).tdiv pc.blockSize * 3) rest.length
      if count = 0 then
        (blockLoop grow fuel cap { e with out := [] } rest).map fun (e', cap, sent) =>
          (e', cap, e.out :: sent)
      else if count < 0 then none
      else
        let e := pc.appendPackedBlocks e (rest.take count.toNat)
        blockLoop grow fuel (capAfter grow cap e.out) e (rest.drop count.toNat)

/-- The group of the bits that are left, filled with zero bits. -/
def residualGroup (bits : BitBuffer) : Fin 64 := Fin.ofNat 64 (bits.value <<< (6 - bits.count))

def appendResidual (e : PackedEncoder) : PackedEncoder :=
  if 0 < e.bits.count then
    let e := pc.appendPackedGroup { e with bits := .empty } (residualGroup e.bits)
    { e with out := e.out ++ [pc.layout.padMarker] }
  else e

end PackedConn

/-- The state of the writing side between two calls: the generator, the capacity of the buffer
that is kept, and the accumulator. -/
structure PackedWriter where
  rng : Draws
  writeBuf : Nat
  bits : BitBuffer

namespace PackedWriter

def start (rng : Draws) : PackedWriter := ⟨rng, 0, .empty⟩

variable (pc : PackedConn) (grow : Nat → Nat → Nat)

/-- `Write` with what it sends. -/
def write (w : PackedWriter) (p : List UInt8) : Option (PackedWriter × List (List UInt8)) :=
  if p = [] then some (w, [])
  else
    let need := min (min p.length maxEncodedWriteSize * 3 + 64) maxEncodedWriteSize
    let cap := growWriteBuf w.writeBuf need
    (pc.writeProtectedPrefix ⟨w.rng, w.bits, []⟩ p).bind fun e =>
      let (e, rest) := pc.align e (p.drop packedProtectedPrefixBytes)
      let whole := rest.length / 3 * 3
      (pc.blockLoop grow (2 * whole + 1) (capAfter grow cap e.out) e (rest.take whole)).map
        fun (e, cap, sent) =>
          let e := (rest.drop whole).foldl pc.appendByte e
          let e := pc.maybeAppendPackedPadding (pc.appendResidual e)
          (⟨e.rng, releaseWriteBuf (capAfter grow cap e.out), e.bits⟩, sent ++ [e.out])

/-- `Flush`, which puts no padding before the last group. -/
def flush (w : PackedWriter) : PackedWriter × List (List UInt8) :=
  let e : PackedEncoder :=
    if 0 < w.bits.count then
      ⟨w.rng, .empty,
        [pc.layout.encodeGroup (PackedConn.residualGroup w.bits), pc.layout.padMarker]⟩
    else ⟨w.rng, w.bits, []⟩
  let e := pc.maybeAppendPackedPadding e
  if 0 < e.out.length then (⟨e.rng, capAfter grow w.writeBuf e.out, e.bits⟩, [e.out])
  else (⟨e.rng, w.writeBuf, e.bits⟩, [])

end PackedWriter

inductive PackedCall where
  | write (p : List UInt8)
  | flush
  deriving DecidableEq, Repr

def PackedCall.payload : PackedCall → List UInt8
  | write p => p
  | flush => []

namespace PackedWriter

variable (pc : PackedConn) (grow : Nat → Nat → Nat)

def call (w : PackedWriter) : PackedCall → Option (PackedWriter × List (List UInt8))
  | .write p => w.write pc grow p
  | .flush => some (w.flush pc grow)

/-- A sequence of calls, with what they send. -/
def calls : PackedWriter → List PackedCall → Option (PackedWriter × List (List UInt8))
  | w, [] => some (w, [])
  | w, first :: rest =>
    (w.call pc grow first).bind fun (w, sent) =>
      (calls w rest).map fun (w, more) => (w, sent ++ more)

end PackedWriter

/-! ## Reading -/

namespace PackedConn

variable (pc : PackedConn)

/-- A byte is taken from the accumulator as soon as it is complete. -/
def takeByte (bits : BitBuffer) : BitBuffer × List UInt8 :=
  if 8 ≤ bits.count then ((bits.pop 8).2, [UInt8.ofNat (bits.pop 8).1]) else (bits, [])

def group (b : UInt8) : Nat := (pc.layout.decodeGroup b).toNat

/-- One wire byte goes through the accumulator. -/
def decodeByte (bits : BitBuffer) (b : UInt8) : BitBuffer × List UInt8 :=
  if h : pc.group b < 64 then takeByte (bits.push 6 (pc.group b) h)
  else (if b = pc.layout.padMarker then .empty else bits, [])

/-- The three bytes of four groups. -/
def blockBytes (g₁ g₂ g₃ g₄ : Nat) : List UInt8 :=
  [UInt8.ofNat (g₁ <<< 2 ||| g₂ >>> 4), UInt8.ofNat (g₂ <<< 4 ||| g₃ >>> 2),
    UInt8.ofNat (g₃ <<< 6 ||| g₄)]

/-- The fast path: four groups at once, if the accumulator is empty and there is room. -/
def decodeBlock (room : Nat) (bits : BitBuffer) : List UInt8 → Option (List UInt8 × List UInt8)
  | b₁ :: b₂ :: b₃ :: b₄ :: rest =>
    if bits.count = 0 ∧ 3 ≤ room ∧
        pc.group b₁ ||| pc.group b₂ ||| pc.group b₃ ||| pc.group b₄ < 64 then
      some (blockBytes (pc.group b₁) (pc.group b₂) (pc.group b₃) (pc.group b₄), rest)
    else none
  | _ => none

/-- The loop of `decode`, which makes at most one round for each byte of the chunk. It ends with
the bytes that were written, the accumulator and the rest of the chunk. -/
def decodeLoop : Nat → Nat → BitBuffer → List UInt8 → List UInt8 × BitBuffer × List UInt8
  | 0, _, bits, chunk => ([], bits, chunk)
  | _ + 1, _, bits, [] => ([], bits, [])
  | fuel + 1, room, bits, b :: chunk =>
    if room = 0 then ([], bits, b :: chunk)
    else
      match pc.decodeBlock room bits (b :: chunk) with
      | some (bytes, rest) =>
        let (more, bits, rest) := decodeLoop fuel (room - 3) bits rest
        (bytes ++ more, bits, rest)
      | none =>
        let (bits, bytes) := pc.decodeByte bits b
        let (more, bits, rest) := decodeLoop fuel (room - bytes.length) bits chunk
        (bytes ++ more, bits, rest)

/-- `decode` without its fast path. -/
def decodeBytes : Nat → BitBuffer → List UInt8 → List UInt8 × BitBuffer × List UInt8
  | _, bits, [] => ([], bits, [])
  | room, bits, b :: chunk =>
    if room = 0 then ([], bits, b :: chunk)
    else
      let (bits, bytes) := pc.decodeByte bits b
      let (more, bits, rest) := decodeBytes (room - bytes.length) bits chunk
      (bytes ++ more, bits, rest)

/-- `decode` never fails. -/
def decode (bits : BitBuffer) (room : Nat) (chunk : List UInt8) :
    Decoding.Decoded BitBuffer UInt8 UInt8 Empty :=
  let (out, bits, rest) := pc.decodeLoop chunk.length room bits chunk
  ⟨out, bits, rest, none⟩

/-- One `Read` after the other. At the end of the stream the accumulator is cleared. -/
def reads : List Nat → BitBuffer → Decoding.Source UInt8 →
    Option (List (Decoding.Result UInt8 Empty) × BitBuffer × Decoding.Source UInt8) :=
  Decoding.reads pc.decode fun _ => .empty

end PackedConn

end Sudoku
