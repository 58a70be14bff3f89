import CheezyCore.Foundation.ByteReader
import CheezyCore.Foundation.Transition

/-!
# UDP messages of a Hysteria client

A UDP message travels in one QUIC datagram, or in several that carry a part of its data
each. `Pack` and `Unpack` are the wire format of a datagram, `fragUDPMessage` splits a
message that is too large, and the one `defragger` of a client puts the parts together again
for all UDP sessions of the client.

The model's functions return `none` where the Go code panics: at an index out of range, at
a division by zero and at a nil part.
-/

namespace Hysteria

open ByteReader

abbrev Bytes := List UInt8

/-- `udpMessage`; a Go string is the list of its bytes. -/
structure UDPMessage where
  sessionID : UInt32
  host : Bytes
  port : UInt16
  msgID : UInt16
  fragID : UInt8
  fragCount : UInt8
  data : Bytes
  deriving DecidableEq, Repr

namespace UDPMessage

def headerSize (m : UDPMessage) : Nat := 4 + 2 + m.host.length + 2 + 2 + 1 + 1 + 2

def size (m : UDPMessage) : Nat := m.headerSize + m.data.length

def pack (m : UDPMessage) : Bytes :=
  BigEndian.putUint32 m.sessionID ++ (BigEndian.putUint16 (UInt16.ofNat m.host.length) ++
    (m.host ++ (BigEndian.putUint16 m.port ++ (BigEndian.putUint16 m.msgID ++ ([m.fragID] ++
      ([m.fragCount] ++ (BigEndian.putUint16 (UInt16.ofNat m.data.length) ++ m.data)))))))

end UDPMessage

inductive UnpackError where
  | eof
  | unexpectedEOF
  /-- `invalid data length` -/
  | invalidDataLength
  deriving DecidableEq, Repr

instance : EndOfInput UnpackError := ⟨.eof, .unexpectedEOF⟩

/-- The fields before the data. The data are what is left of the datagram. -/
def unpackHeader : Reader UnpackError (UDPMessage × UInt16) := do
  let sessionID ← readUint32
  let hostLen ← readUint16
  let host ← readFull hostLen.toNat
  let port ← readUint16
  let msgID ← readUint16
  let fragID ← readByte
  let fragCount ← readByte
  let dataLen ← readUint16
  return ({ sessionID, host, port, msgID, fragID, fragCount, data := [] }, dataLen)

namespace UDPMessage

def unpack (datagram : Bytes) : Except UnpackError UDPMessage := do
  let ((m, dataLen), data) ← unpackHeader.run datagram
  if data.length ≠ dataLen.toNat then throw .invalidDataLength
  return { m with data }

/-- `Unpack` accepts what `Pack` writes for a message whose lengths fit into 16 bits, and nothing
else. -/
theorem unpack_eq_ok_iff {m : UDPMessage} {datagram : Bytes} : unpack datagram = .ok m ↔
    datagram = m.pack ∧ m.host.length < 2 ^ 16 ∧ m.data.length < 2 ^ 16 := by
  constructor
  · intro h
    unfold unpack at h
    cases hrun : unpackHeader.run datagram with
    | error e =>
      rw [hrun] at h
      cases h
    | ok result =>
      obtain ⟨_, data⟩ := result
      rw [hrun] at h
      simp only [unpackHeader, run_bind_eq_ok, readUint32_eq_ok, readUint16_eq_ok, readFull_eq_ok,
        readByte_eq_ok] at hrun
      obtain ⟨_, _, rfl, hostLen, _, rfl, _, _, ⟨rfl, hhost⟩, _, _, rfl, _, _, rfl, _, _, rfl, _, _,
        rfl, dataLen, _, rfl, ⟨⟩⟩ := hrun
      change (if data.length ≠ dataLen.toNat then _ else _) = _ at h
      split at h <;> cases h
      next hdata =>
        rw [not_not] at hdata
        refine ⟨?_, hhost ▸ hostLen.toNat_lt, hdata ▸ dataLen.toNat_lt⟩
        simp [pack, hhost, hdata]
  · rintro ⟨rfl, hhost, hdata⟩
    have hrun : unpackHeader.run m.pack
        = .ok (({ m with data := [] }, UInt16.ofNat m.data.length), m.data) := by
      simp only [unpackHeader, run_bind_eq_ok, readUint32_eq_ok, readUint16_eq_ok, readFull_eq_ok,
        readByte_eq_ok]
      exact ⟨_, _, rfl, _, _, rfl, _, _, ⟨rfl, (UInt16.toNat_ofNat_of_lt' hhost).symm⟩, _, _, rfl,
        _, _, rfl, _, _, rfl, _, _, rfl, _, _, rfl, rfl⟩
    rw [unpack, hrun]
    change (if m.data.length ≠ (UInt16.ofNat m.data.length).toNat then _ else _) = _
    rw [if_neg (not_not.mpr (UInt16.toNat_ofNat_of_lt' hdata).symm)]
    rfl

end UDPMessage

/-! ## Splitting -/

/-- The loop of `fragUDPMessage` over what is left of the payload. Negative sizes are out of
range for a slice expression. -/
def fragLoop (m : UDPMessage) (maxPayloadSize : Int) (fragCount : UInt8) :
    Nat → UInt8 → Bytes → Option (List UDPMessage)
  | _, _, [] => some []
  | 0, _, _ :: _ => none
  | fuel + 1, fragID, byte :: rest =>
    let payload := byte :: rest
    let payloadSize := min (payload.length : Int) maxPayloadSize
    if payloadSize < 0 then none
    else (fragLoop m maxPayloadSize fragCount fuel (fragID + 1)
        (payload.drop payloadSize.toNat)).map
      ({ m with fragID, fragCount, data := payload.take payloadSize.toNat } :: ·)

/-- The number of parts is rounded up and converted to `uint8`. -/
def fragUDPMessage (m : UDPMessage) (maxSize : Int) : Option (List UDPMessage) :=
  if (m.size : Int) ≤ maxSize then some [m]
  else if maxSize - m.headerSize = 0 then none
  else
    fragLoop m (maxSize - m.headerSize)
      (UInt8.ofInt ((m.data.length + (maxSize - m.headerSize) - 1).tdiv (maxSize - m.headerSize)))
      m.data.length 0 m.data

/-! ## Reassembly -/

/-- The state is that of a new client by default. -/
structure Defragger where
  msgID : UInt16 := 0
  frags : List (Option UDPMessage) := []
  count : UInt8 := 0
  deriving DecidableEq, Repr

namespace Defragger

/-- The data of the parts, one after another. A missing part is a nil pointer. -/
def assemble : List (Option UDPMessage) → Option Bytes
  | [] => some []
  | none :: _ => none
  | some frag :: rest => (assemble rest).map (frag.data ++ ·)

def store (d : Defragger) (m : UDPMessage) : Defragger :=
  { d with frags := d.frags.set m.fragID.toNat (some m), count := d.count + 1 }

/-- A part in an empty slot. The last one completes the message and is returned with the
data of all parts. Its slot is a pointer to the same message, so the data in the slot changes,
too; as no slot is empty any more, none is read again. -/
def addPart (d : Defragger) (m : UDPMessage) : Option (Defragger × Option UDPMessage) :=
  if (d.store m).count.toNat = (d.store m).frags.length then
    (assemble (d.store m).frags).map fun data =>
      (d.store m, some { m with data, fragID := 0, fragCount := 1 })
  else some (d.store m, none)

/-- The state after the first part of a message. -/
def begin (m : UDPMessage) : Defragger where
  msgID := m.msgID
  frags := (List.replicate m.fragCount.toNat none).set m.fragID.toNat (some m)
  count := 1

/-- A part of the message at hand. Its number indexes the slots made for the first part. -/
def fill (d : Defragger) (m : UDPMessage) : Option (Defragger × Option UDPMessage) :=
  match d.frags[m.fragID.toNat]? with
  | none => none
  | some (some _) => some (d, none)
  | some none => d.addPart m

def feed (d : Defragger) (m : UDPMessage) : Option (Defragger × Option UDPMessage) :=
  if m.fragCount ≤ 1 then some (d, some m)
  else if m.fragCount ≤ m.fragID then some (d, none)
  else if m.msgID ≠ d.msgID then some (begin m, none)
  else d.fill m

/-- A round of `handleMessage`: what does not unpack is skipped. -/
def receive (d : Defragger) (datagram : Bytes) : Option (Defragger × Option UDPMessage) :=
  match UDPMessage.unpack datagram with
  | .error _ => some (d, none)
  | .ok m => d.feed m

/-- A round of `handleMessage` as a step of the defragger. -/
def next (d : Defragger) (datagram : Bytes) : Option Defragger := (d.receive datagram).map Prod.fst

end Defragger

end Hysteria
