import CheezyCore.Foundation.Aead
import CheezyCore.Foundation.BigEndian
import CheezyCore.Foundation.Stream

/-!
# The record layer of a Sudoku connection

A record is one AEAD text under the key of an epoch. Its header, the epoch and a sequence
number, is the nonce and the additional data. The sender starts both at random values, goes
to the next epoch with a new random sequence number after every `KeyUpdateAfterBytes` bytes,
and the receiver wants the successor of the last sequence number within an epoch and any
sequence number in one of the next eight epochs.

The two directions of a connection share nothing, so that a connection is modelled by a
sender and a receiver. The ciphers that `RecordConn` keeps for the current epochs are a
cache of `newAEADFor`.
-/

namespace Sudoku

open BigEndian

abbrev Bytes := List UInt8

def recordHeaderSize : Nat := 12
def maxFrameBodySize : Nat := 65535

/-- `Overhead` of both AEAD methods. -/
def recordOverhead : Nat := 16

/-- `maxPlain` in `Write`, which is positive. -/
def maxPlain : Nat := maxFrameBodySize - recordHeaderSize - recordOverhead

/-- `newAEADFor` with the method and the base key of one direction. -/
abbrev EpochKeys := UInt32 → Aead recordOverhead

/-- The values of `int64`. -/
def int64 (n : Int) : Int := n.bmod (2 ^ 64)

structure Record where
  epoch : UInt32
  seq : UInt64
  plain : Bytes
  deriving DecidableEq, Repr

namespace Record

def header (r : Record) : Bytes := putUint32 r.epoch ++ putUint64 r.seq

def body (keys : EpochKeys) (r : Record) : Bytes :=
  r.header ++ (keys r.epoch).sealed r.header r.plain r.header

/-- What `Write` puts on the wire for one record. -/
def frame (keys : EpochKeys) (r : Record) : Bytes :=
  putNat 2 (recordHeaderSize + (r.plain.length + recordOverhead)) ++ r.body keys

end Record

/-! ## Sending -/

/-- The send direction state. `drawn` counts the random numbers that were drawn. -/
structure Sender where
  sendEpoch : UInt32
  sendSeq : UInt64
  sendBytes : Int
  sendEpochUpdates : UInt32
  drawn : Nat
  deriving DecidableEq, Repr

namespace Sender

/-- `resetTrafficState` with what `randomRecordCounters` returns. -/
def start (epoch : UInt32) (seq : UInt64) : Sender := ⟨epoch, seq, 0, 0, 0⟩

/-- `random` are the values of `randomNonZeroUint64`, `ku` is `KeyUpdateAfterBytes`. -/
def maybeBumpSendEpochLocked (ku : Int) (random : Nat → UInt64) (s : Sender) (addedPlain : Nat) :
    Sender :=
  if ku ≤ 0 then s
  else
    let sendBytes := int64 (s.sendBytes + addedPlain)
    let threshold := int64 (ku * (s.sendEpochUpdates + 1).toNat)
    if sendBytes < threshold then { s with sendBytes := sendBytes }
    else
      { sendEpoch := s.sendEpoch + 1
        sendSeq := random s.drawn
        sendBytes := sendBytes
        sendEpochUpdates := s.sendEpochUpdates + 1
        drawn := s.drawn + 1 }

/-- The loop of `Write` over its chunks. -/
def writeChunks (ku : Int) (random : Nat → UInt64) : Sender → List Bytes → Sender × List Record
  | s, [] => (s, [])
  | s, chunk :: rest =>
    let record : Record := ⟨s.sendEpoch, s.sendSeq, chunk⟩
    let s := { s with sendSeq := s.sendSeq + 1 }.maybeBumpSendEpochLocked ku random chunk.length
    let (s, records) := writeChunks ku random s rest
    (s, record :: records)

def write (ku : Int) (random : Nat → UInt64) (s : Sender) (p : Bytes) : Sender × List Record :=
  s.writeChunks ku random (Chunks.pieces maxPlain p)

/-- One `Write` after the other. -/
def writeAll (ku : Int) (random : Nat → UInt64) : Sender → List Bytes → Sender × List Record
  | s, [] => (s, [])
  | s, p :: rest =>
    let (s, records) := s.write ku random p
    let (s, more) := writeAll ku random s rest
    (s, records ++ more)

end Sender

/-! ## Receiving -/

inductive RecordError where
  | frameTooShort
  | frameTooLarge
  | replayedEpoch (got want : UInt32)
  | outOfOrder (epoch : UInt32) (got want : UInt64)
  | epochJump (got : UInt32)
  | decryptionFailed (epoch : UInt32) (seq : UInt64)
  deriving DecidableEq, Repr

/-- The error's own text; that of `Open` follows the last one. -/
def RecordError.text : RecordError → String
  | frameTooShort => "frame too short"
  | frameTooLarge => "frame too large"
  | replayedEpoch got want => s!"replayed epoch: got {got} want >={want}"
  | outOfOrder epoch got want => s!"out of order: epoch={epoch} got={got} want={want}"
  | epochJump got => s!"epoch jump too large: got={got} want<=8"
  | decryptionFailed epoch seq => s!"decryption failed: epoch={epoch} seq={seq}: "

/-- The receive direction state. `unread` is what is left of `readPlain`. -/
structure Receiver where
  recvEpoch : UInt32
  recvSeq : UInt64
  recvInitialized : Bool
  unread : Bytes
  deriving DecidableEq, Repr

inductive Outcome where
  /-- The connection has not got the bytes yet that `Read` waits for. -/
  | blocked
  | failed (err : RecordError)
  | data (bytes : Bytes)
  deriving DecidableEq, Repr

namespace Receiver

def start : Receiver := ⟨0, 0, false, []⟩

def validateRecvPosition (c : Receiver) (epoch : UInt32) (seq : UInt64) : Option RecordError :=
  if c.recvInitialized = false then none
  else if epoch < c.recvEpoch then some (.replayedEpoch epoch c.recvEpoch)
  else if epoch = c.recvEpoch ∧ seq ≠ c.recvSeq then some (.outOfOrder epoch seq c.recvSeq)
  else if c.recvEpoch < epoch ∧ 8 < epoch - c.recvEpoch then
    some (.epochJump (epoch - c.recvEpoch))
  else none

def markRecvPosition (c : Receiver) (epoch : UInt32) (seq : UInt64) : Receiver :=
  { c with recvEpoch := epoch, recvSeq := seq + 1, recvInitialized := true }

def drainPlain (c : Receiver) (size : Nat) : Receiver × Bytes :=
  ({ c with unread := c.unread.drop size }, c.unread.take size)

/-- `open` and what `Read` does with its results, for a buffer of this size. -/
def openRecord (keys : EpochKeys) (c : Receiver) (body : Bytes) (size : Nat) :
    Except RecordError (Receiver × Bytes) :=
  let header := body.take recordHeaderSize
  let ciphertext := body.drop recordHeaderSize
  let epoch := uint32 (header.take 4)
  let seq := uint64 (header.drop 4)
  match c.validateRecvPosition epoch seq with
  | some err => .error err
  | none =>
    match (keys epoch).opened header ciphertext header with
    | none => .error (.decryptionFailed epoch seq)
    | some plaintext =>
      let c := c.markRecvPosition epoch seq
      if recordOverhead ≤ ciphertext.length ∧ ciphertext.length - recordOverhead ≤ size then
        .ok (c, plaintext)
      else .ok ({ c with unread := plaintext }.drainPlain size)

/-- `Read` into a buffer of this size from a connection on which these bytes arrive. -/
def read (keys : EpochKeys) (c : Receiver) (stream : Bytes) (size : Nat) :
    Receiver × Bytes × Outcome :=
  if c.unread ≠ [] then
    let (c, bytes) := c.drainPlain size
    (c, stream, .data bytes)
  else
    match readFull 2 stream with
    | .error _ => (c, stream, .blocked)
    | .ok (lenBuf, rest) =>
      let bodyLen := ofBytes lenBuf
      if bodyLen < recordHeaderSize then (c, rest, .failed .frameTooShort)
      else if maxFrameBodySize < bodyLen then (c, rest, .failed .frameTooLarge)
      else
        match readFull bodyLen rest with
        | .error _ => (c, stream, .blocked)
        | .ok (body, rest) =>
          match c.openRecord keys body size with
          | .error err => (c, rest, .failed err)
          | .ok (c, bytes) => (c, rest, .data bytes)

/-- Reads with buffers of these sizes, up to the first that fails or has to wait: all the data
and the error, if there is one. -/
def readAll (keys : EpochKeys) : Receiver → Bytes → List Nat → Bytes × Option RecordError
  | _, _, [] => ([], none)
  | c, stream, size :: sizes =>
    match c.read keys stream size with
    | (_, _, .blocked) => ([], none)
    | (_, _, .failed err) => ([], some err)
    | (c, rest, .data bytes) =>
      let (more, err) := readAll keys c rest sizes
      (bytes ++ more, err)

end Receiver

/-! ## One record -/

variable {keys : EpochKeys} {c : Receiver} {r : Record}

theorem Record.length_header (r : Record) : r.header.length = recordHeaderSize := by
  rfl

theorem Record.length_body (keys : EpochKeys) (r : Record) :
    (r.body keys).length = recordHeaderSize + (r.plain.length + recordOverhead) := by
  rw [body, List.length_append, length_header, Aead.length_sealed]

/-- A record that fits into a frame. -/
def Record.Fits (r : Record) : Prop := r.plain ≠ [] ∧ r.plain.length ≤ maxPlain

/-- What `open` does with the body of a record of the sender. -/
theorem openRecord_body (keys : EpochKeys) (c : Receiver) (r : Record) (size : Nat) :
    c.openRecord keys (r.body keys) size =
      match c.validateRecvPosition r.epoch r.seq with
      | some err => .error err
      | none =>
        .ok ({ c.markRecvPosition r.epoch r.seq with
            unread := if r.plain.length ≤ size then c.unread else r.plain.drop size },
          r.plain.take size) := by
  have hheader := r.length_header
  have hepoch : uint32 (r.header.take 4) = r.epoch := by
    rw [Record.header, List.take_left' (length_putUint32 _), uint32_putUint32]
  have hseq : uint64 (r.header.drop 4) = r.seq := by
    rw [Record.header, List.drop_left' (length_putUint32 _), uint64_putUint64]
  unfold Receiver.openRecord
  simp only [Record.body, List.take_left' hheader, List.drop_left' hheader, hepoch, hseq]
  cases c.validateRecvPosition r.epoch r.seq with
  | some err => rfl
  | none =>
    simp only [Aead.opened_sealed, Aead.length_sealed, Nat.add_sub_cancel]
    by_cases hfits : r.plain.length ≤ size
    · rw [if_pos ⟨Nat.le_add_left _ _, hfits⟩, if_pos hfits, List.take_of_length_le hfits]
      rfl
    · rw [if_neg (fun h => hfits h.2), if_neg hfits]
      rfl

/-- `Read` takes the next record of the stream if there is nothing left of the last one. -/
theorem read_frame (hunread : c.unread = []) (hfits : r.Fits) (rest : Bytes) (size : Nat) :
    c.read keys (r.frame keys ++ rest) size =
      match c.validateRecvPosition r.epoch r.seq with
      | some err => (c, rest, .failed err)
      | none =>
        ({ c.markRecvPosition r.epoch r.seq with unread := r.plain.drop size }, rest,
          .data (r.plain.take size)) := by
  have hplain : r.plain.length ≤ 65507 := hfits.2
  have hlength := r.length_body keys
  have hsize : recordHeaderSize + (r.plain.length + recordOverhead) < 65536 := by
    show 12 + (r.plain.length + 16) < 65536
    omega
  have hword : ofBytes (putNat 2
      (recordHeaderSize + (r.plain.length + recordOverhead))) = (r.body keys).length := by
    rw [ofBytes_putNat, hlength]
    exact Nat.mod_eq_of_lt hsize
  have hlen := readFull_append (putNat 2
    (recordHeaderSize + (r.plain.length + recordOverhead))) (r.body keys ++ rest)
  rw [length_putNat] at hlen
  unfold Receiver.read
  rw [if_neg (not_not.mpr hunread), Record.frame, List.append_assoc, hlen]
  simp only [hword, readFull_append]
  rw [if_neg (by omega), if_neg (by show ¬65535 < _; omega), openRecord_body]
  cases c.validateRecvPosition r.epoch r.seq with
  | some err => rfl
  | none =>
    simp only [hunread]
    split
    next hle => rw [List.drop_of_length_le hle]
    · rfl

end Sudoku
