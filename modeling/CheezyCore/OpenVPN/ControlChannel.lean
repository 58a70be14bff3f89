import Mathlib.Data.List.AList
import CheezyCore.OpenVPN.ControlReplay
import CheezyCore.OpenVPN.Packet

/-!
# The reliable layer of a control channel

`read` returns the messages of the peer in the order of their ids. A message that comes early
is kept in `recvPending`; every message that is taken is queued for an acknowledgement. The
TLS connection reads in one mode, the watcher that waits for the next soft reset in another:
the watcher parks the payloads it finds for `ReadAll`.

Session ids are eight bytes of which only equality matters, so they are words here. A datagram
is given with what `DecodeControlPacket` makes of it. The wake-up channels are left out.
-/

namespace OpenVPN

abbrev SessionID := UInt64

structure ControlPacket where
  opcode : Opcode
  keyID : UInt8
  localSession : SessionID
  ackIDs : List UInt32
  ackRemoteSession : SessionID
  messageID : UInt32
  payload : List UInt8
  deriving DecidableEq, Repr

/-- `&ControlPacket{Opcode: PControlV1, Payload: payload}`. -/
def ControlPacket.ofPayload (payload : List UInt8) : ControlPacket :=
  ⟨.controlV1, 0, 0, [], 0, 0, payload⟩

structure Datagram where
  /-- A datagram that cannot be decoded has none. -/
  packet : Option ControlPacket
  packetID : UInt32
  unixTime : UInt32
  /-- The reading of `replayClock` when the datagram is checked. -/
  now : Int

structure ControlChannel where
  /-- Whether there is a `ControlCryptor`. -/
  crypt : Bool
  keyID : UInt8
  localID : SessionID
  remote : SessionID
  recvMessage : UInt32
  ackPending : List UInt32
  lruAcks : List UInt32
  /-- The ids of the messages that the peer has not acknowledged. -/
  pending : List UInt32
  recvPending : AList fun _ : UInt32 => ControlPacket
  pendingSoftReset : Option ControlPacket
  parkedTLS : List (List UInt8)
  recReplay : ControlReplay.ReplayState

def reliableAckSize : Nat := 8

def reliableCapacity : Nat := 12

def recvWindowOK (recvMessage messageID : UInt32) (buffered : Nat) : Bool :=
  decide ((messageID - recvMessage).toNat < reliableCapacity) &&
    decide (buffered < reliableCapacity)

def reliableMessageBefore (messageID recvMessage : UInt32) : Bool :=
  decide (2 ^ 31 ≤ (messageID - recvMessage).toNat)

/-- 0, 1, ..., 7, and then 1 again. -/
def nextKeyID (current : UInt8) : UInt8 :=
  let next := (current + 1) &&& keyIDMask
  if next = 0 then 1 else next

def appendAck (acks : List UInt32) (ack : UInt32) : List UInt32 :=
  if ack ∈ acks then acks else acks ++ [ack]

/-- The inner loop of `takeAcksLocked`: `move` takes the place of the first entry, which moves
on, up to the place where `id` was found. -/
def shiftAcks (id : UInt32) : UInt32 → List UInt32 → List UInt32 × Option UInt32
  | move, [] => ([], some move)
  | move, first :: rest =>
    if first = id then (move :: rest, none)
    else
      let (rest, left) := shiftAcks id first rest
      (move :: rest, left)

/-- One id becomes the most recent one. -/
def moveToFront (lruAcks : List UInt32) (id : UInt32) : List UInt32 :=
  match shiftAcks id id lruAcks with
  | (acks, none) => acks
  | (acks, some left) => if acks.length < reliableAckSize then acks ++ [left] else acks

namespace ControlChannel

/-- The ids are taken from the last to the first. The result is what the packet carries. -/
def takeAcksLocked (c : ControlChannel) (max : Nat) : ControlChannel × List UInt32 :=
  let lruAcks := ((c.ackPending.take max).reverse.foldl moveToFront c.lruAcks).take reliableAckSize
  ({ c with ackPending := c.ackPending.drop max, lruAcks := lruAcks }, lruAcks.take max)

def beginEpochLocked (c : ControlChannel) (keyID : UInt8) : ControlChannel :=
  { c with
    keyID := keyID &&& keyIDMask
    recvMessage := 0
    ackPending := []
    lruAcks := []
    pending := []
    recvPending := ∅
    parkedTLS := [] }

def markReceived (c : ControlChannel) (messageID : UInt32) : ControlChannel :=
  let next := messageID + 1
  { c with
    recvMessage :=
      if next ≠ c.recvMessage ∧ reliableMessageBefore next c.recvMessage = false then next
      else c.recvMessage
    recvPending := c.recvPending.erase messageID }

def queueAck (c : ControlChannel) (messageID : UInt32) : ControlChannel :=
  { c with ackPending := appendAck c.ackPending messageID }

/-- Whether a packet is the next soft reset, and whether it belongs to the session at all. -/
def classifyWatchPacketLocked (c : ControlChannel) (packet : ControlPacket) : Bool × Bool :=
  if c.remote = 0 ∨ packet.localSession ≠ c.remote then (false, false)
  else if packet.opcode = .controlSoftResetV1 then
    let expected := decide (packet.keyID = nextKeyID c.keyID ∧ packet.messageID = 0)
    (expected, expected)
  else (false, decide (packet.keyID = c.keyID))

/-- `checkReplayLocked`, without a cryptor no check. -/
def checkReplay (c : ControlChannel) (d : Datagram) : ControlChannel × Bool :=
  if c.crypt then
    let (recReplay, err) := c.recReplay.checkReplayLocked d.now d.packetID d.unixTime
    ({ c with recReplay := recReplay }, err.isNone)
  else (c, true)

/-- The first packet of the peer sets the remote session. The second component is
`replayChecked`, if the packet is not dropped. -/
def identify (c : ControlChannel) (d : Datagram) (packet : ControlPacket) :
    ControlChannel × Option Bool :=
  if c.remote = 0 ∧ (packet.opcode = .controlHardResetServerV2 ∨
      packet.opcode = .controlHardResetServerV1) ∧ packet.keyID = c.keyID ∧
      packet.messageID = 0 then
    match c.checkReplay d with
    | (c, false) => (c, none)
    | (c, true) => ({ c with remote := packet.localSession }, some c.crypt)
  else (c, some false)

/-- What becomes of a packet before its message id is looked at. -/
inductive Screened where
  | drop
  | softReset
  | pass
  deriving DecidableEq, Repr

/-- The checks of `read` for the TLS connection. A soft reset is kept for the watcher. -/
def screenRead (c : ControlChannel) (d : Datagram) (packet : ControlPacket)
    (replayChecked : Bool) : ControlChannel × Screened :=
  if packet.opcode = .controlSoftResetV1 then
    if packet.keyID = nextKeyID c.keyID ∧ packet.messageID = 0 ∧
        (c.remote = 0 ∨ packet.localSession = c.remote) then
      match c.checkReplay d with
      | (c, false) => (c, .drop)
      | (c, true) =>
        ({ c with
            pendingSoftReset := c.pendingSoftReset.or (some packet)
            pending := c.pending.filter (· ∉ packet.ackIDs) }, .drop)
    else (c, .drop)
  else if packet.keyID ≠ c.keyID then (c, .drop)
  else if replayChecked then (c, .pass)
  else
    match c.checkReplay d with
    | (c, false) => (c, .drop)
    | (c, true) => (c, .pass)

/-- The checks of `read` for the watcher. -/
def screenWatch (c : ControlChannel) (d : Datagram) (packet : ControlPacket) :
    ControlChannel × Screened :=
  match c.classifyWatchPacketLocked packet with
  | (_, false) => (c, .drop)
  | (softReset, true) =>
    match c.checkReplay d with
    | (c, false) => (c, .drop)
    | (c, true) => (c, if softReset then .softReset else .pass)

/-- The cases of the last critical section of `read`. -/
def acceptMessage (c : ControlChannel) (packet : ControlPacket) :
    ControlChannel × Option ControlPacket :=
  if packet.opcode = .ackV1 then (c, none)
  else if packet.opcode.hasMessageID = false then (c, some packet)
  else if reliableMessageBefore packet.messageID c.recvMessage then
    (c.queueAck packet.messageID, none)
  else if packet.messageID = c.recvMessage then
    ({ c.queueAck packet.messageID with recvMessage := c.recvMessage + 1 }, some packet)
  else if packet.messageID ∈ c.recvPending then (c.queueAck packet.messageID, none)
  else if recvWindowOK c.recvMessage packet.messageID c.recvPending.keys.length then
    ({ c.queueAck packet.messageID with
        recvPending := c.recvPending.insert packet.messageID packet }, none)
  else (c, none)

/-- The last critical section: the acknowledgements of the packet are for what was sent. -/
def accept (c : ControlChannel) (packet : ControlPacket) : ControlChannel × Option ControlPacket :=
  acceptMessage { c with pending := c.pending.filter (· ∉ packet.ackIDs) } packet

/-- One datagram in the loop of `read`. -/
def receive (watch : Bool) (c : ControlChannel) (d : Datagram) :
    ControlChannel × Option ControlPacket :=
  match d.packet with
  | none => (c, none)
  | some packet =>
    if packet.localSession = 0 then (c, none)
    else if packet.ackIDs ≠ [] ∧ packet.ackRemoteSession ≠ c.localID then (c, none)
    else
      match c.identify d packet with
      | (c, none) => (c, none)
      | (c, some replayChecked) =>
        if c.remote = 0 ∨ packet.localSession ≠ c.remote then (c, none)
        else
          match if watch then c.screenWatch d packet
            else c.screenRead d packet replayChecked with
          | (c, .drop) => (c, none)
          | (c, .softReset) => (c, some packet)
          | (c, .pass) => c.accept packet

/-- The beginning of the loop of `read`: the next message may have come early. -/
def takeBuffered (watch : Bool) (c : ControlChannel) : ControlChannel × Option ControlPacket :=
  match c.recvPending.lookup c.recvMessage with
  | none => (c, none)
  | some packet =>
    let erased := { c with recvPending := c.recvPending.erase c.recvMessage }
    let taken := { erased with recvMessage := c.recvMessage + 1 }
    if watch then
      match c.classifyWatchPacketLocked packet with
      | (_, false) => (erased, none)
      | (true, true) => (erased, some packet)
      | (false, true) => (taken, some packet)
    else (taken, some packet)

/-- `read` while these datagrams come in; then its context ends. -/
def read (watch : Bool) : List Datagram → ControlChannel → ControlChannel × Option ControlPacket
  | [], c => c.takeBuffered watch
  | d :: rest, c =>
    match c.takeBuffered watch with
    | (c, some packet) => (c, some packet)
    | (c, none) =>
      match c.receive watch d with
      | (c, some packet) => (c, some packet)
      | (c, none) => read watch rest c

/-- The beginning of `waitForSoftReset`. -/
def takeSoftReset (c : ControlChannel) : ControlChannel × Option ControlPacket :=
  match c.pendingSoftReset with
  | none => (c, none)
  | some packet =>
    ({ c with pendingSoftReset := none },
      if packet.keyID ≠ nextKeyID c.keyID ∨ packet.messageID ≠ 0 then none else some packet)

/-- The loop of `ReadAll`, for at most so many messages. -/
def drain : Nat → ControlChannel → ControlChannel × List ControlPacket
  | 0, c => (c, [])
  | count + 1, c =>
    match c.recvPending.lookup c.recvMessage with
    | none => (c, [])
    | some packet =>
      let (c, packets) := drain count
        { c with
          recvPending := c.recvPending.erase c.recvMessage
          recvMessage := c.recvMessage + 1 }
      (c, packet :: packets)

/-- What was parked, and what is next of the messages that came early. -/
def readAll (c : ControlChannel) : ControlChannel × List ControlPacket × List ControlPacket :=
  let (c', packets) := drain c.recvPending.keys.length { c with parkedTLS := [] }
  (c', c.parkedTLS.map .ofPayload, packets)

end ControlChannel

/-- What becomes of a message of the peer. -/
inductive Fate where
  /-- `Read` or `ReadAll` returns it. -/
  | returned
  /-- The watcher keeps its payload for `ReadAll`. -/
  | parked
  /-- The watcher has no use for it. -/
  | dropped
  /-- It is the soft reset that began the epoch. -/
  | reset
  deriving DecidableEq, Repr

/-- A channel in one epoch, with the messages it has taken and what `Read` and `ReadAll` have
returned, the oldest first. -/
structure ControlSession where
  channel : ControlChannel
  log : List (ControlPacket × Fate)
  returned : List ControlPacket

inductive ControlAction where
  | read (input : List Datagram)
  /-- `waitForSoftReset` is called. -/
  | takeSoftReset
  /-- One turn of its loop. -/
  | watch (input : List Datagram)
  | readAll
  /-- A packet that carries at most so many acknowledgements is sent. -/
  | takeAcks (max : Nat)

namespace ControlSession

/-- A channel at the beginning of its first epoch. -/
def start (c : ControlChannel) (keyID : UInt8) : ControlSession :=
  ⟨c.beginEpochLocked keyID, [], []⟩

/-- A channel at the beginning of an epoch for which the watcher has returned a soft reset. -/
def renegotiate (c : ControlChannel) (serverReset : ControlPacket) : ControlSession :=
  ⟨((c.beginEpochLocked (serverReset.keyID &&& keyIDMask)).markReceived
      serverReset.messageID).queueAck serverReset.messageID, [(serverReset, .reset)], []⟩

def Begins (s : ControlSession) : Prop :=
  (∃ c keyID, s = start c keyID) ∨
    ∃ c serverReset, serverReset.messageID = 0 ∧ s = renegotiate c serverReset

/-- A packet of `Read`. Packets without a message id are not in the history. -/
def take (s : ControlSession) (c : ControlChannel) (packet : Option ControlPacket) :
    ControlSession :=
  match packet with
  | none => { s with channel := c }
  | some packet =>
    if packet.opcode.hasMessageID then
      ⟨c, s.log ++ [(packet, .returned)], s.returned ++ [packet]⟩
    else { s with channel := c }

/-- A packet of the watcher: a soft reset is returned and belongs to the next epoch. -/
def park (s : ControlSession) (c : ControlChannel) (packet : Option ControlPacket) :
    ControlSession :=
  match packet with
  | none => { s with channel := c }
  | some packet =>
    if packet.opcode = .controlSoftResetV1 then { s with channel := c }
    else if packet.opcode = .controlV1 ∧ packet.payload ≠ [] then
      { s with
        channel := { c with parkedTLS := c.parkedTLS ++ [packet.payload] }
        log := s.log ++ [(packet, .parked)] }
    else if packet.opcode.hasMessageID then
      { s with channel := c, log := s.log ++ [(packet, .dropped)] }
    else { s with channel := c }

/-- The client calls `ReadAll` before it reads again when something was parked. -/
def next (s : ControlSession) : ControlAction → Option ControlSession
  | .read input =>
    if s.channel.parkedTLS = [] then
      let (c, packet) := s.channel.read false input
      some (s.take c packet)
    else none
  | .takeSoftReset => some { s with channel := s.channel.takeSoftReset.1 }
  | .watch input =>
    let (c, packet) := s.channel.read true input
    some (s.park c packet)
  | .readAll =>
    let (c, parked, packets) := s.channel.readAll
    some ⟨c, s.log ++ packets.map (·, .returned), s.returned ++ parked ++ packets⟩
  | .takeAcks max => some { s with channel := (s.channel.takeAcksLocked max).1 }

end ControlSession

end OpenVPN
