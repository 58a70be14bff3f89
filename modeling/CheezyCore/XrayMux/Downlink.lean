import CheezyCore.Foundation.Stream
import CheezyCore.XrayMux.Uplink

/-!
# The way of a received byte

`carrierFill` reads the physical connection into the carrier's pipe, `readLoop` reads
frames out of that pipe and pushes their payloads into the pipes of the sessions, and
`Read` takes them from there. The two kinds of pipe are the same `sessionPipe`, a
bounded queue of chunks.

`Downlink` puts these goroutines around an `Uplink`, which has the session map, the
ends of the sessions and `worker.close`. Its last fields are history: the bytes read
from the connection, the frames `readLoop` has handled, the bytes that `Read` has
returned. As in `Uplink`, each action is what one goroutine does between two points
at which another one can see it, and an action that is not possible waits.
-/

namespace XrayMux

open BigEndian Chunks

/-! ## `sessionPipe` -/

def sessionPipeLimit : Int := 512 * 1024
def carrierDownlinkLimit : Int := 256 * 1024
def workerReadBuffer : Nat := 64 * 1024

/-- The buffer of `carrierFill`. -/
def carrierFillBuffer : Nat := 32 * 1024

structure SessionPipe where
  chunks : List (List UInt8) := []
  nbytes : Int := 0
  limit : Int
  closed : Bool := false
  err : Option Err := none
  deriving DecidableEq

def newSessionPipe (limit : Int) : SessionPipe := { limit }

/-- The results of `readDeadline`: the deadline passed, the pipe was at its end, or the
bytes copied to the buffer. -/
inductive PipeRead where
  | timeout
  | failed (err : Err)
  | data (bytes : List UInt8)
  deriving DecidableEq

namespace SessionPipe

def contents (p : SessionPipe) : List UInt8 := p.chunks.flatten

/-- `write`; `none` when it has to wait for space. -/
def write (p : SessionPipe) (data : List UInt8) : Option (Except Err SessionPipe) :=
  if p.closed then some (.error .netClosed)
  else if p.nbytes + data.length ≤ p.limit then
    some (.ok { p with chunks := p.chunks ++ [data], nbytes := p.nbytes + data.length })
  else none

/-- `readLocked` into a buffer with `room` bytes. -/
def readLocked (p : SessionPipe) (room : Nat) : List UInt8 × SessionPipe :=
  ((takeChunk room p.chunks).1,
    { p with
      chunks := (takeChunk room p.chunks).2
      nbytes := p.nbytes - (takeChunk room p.chunks).1.length })

/-- `readDeadline`; `none` when it has to wait. `expired` tells whether the deadline,
if there is one, has passed. -/
def readDeadline (p : SessionPipe) (room : Nat) (expired : Bool) :
    Option (PipeRead × SessionPipe) :=
  if p.chunks = [] then
    if p.closed then some (.failed (p.err.getD .eof), p)
    else if expired then some (.timeout, p)
    else none
  else some (.data (p.readLocked room).1, (p.readLocked room).2)

def readAvailable (p : SessionPipe) (room : Nat) : List UInt8 × SessionPipe :=
  if p.chunks = [] then ([], p) else p.readLocked room

/-- `close` keeps the queued chunks for `Read`. -/
def close (p : SessionPipe) (cause : Option Err) : SessionPipe :=
  if p.closed then p else { p with closed := true, err := cause }

def drop (p : SessionPipe) (cause : Option Err) : SessionPipe :=
  { p with closed := true, err := cause, chunks := [], nbytes := 0 }

end SessionPipe

/-! ## Frames with their payload -/

/-- A frame as `readLoop` reads it. -/
structure DataFrame where
  header : FrameMetadata
  payload : List UInt8
  deriving DecidableEq

/-- The beginning of the loop of `readLoop`: the header, then the payload of a frame
with the Data option. -/
def readFrame (r : List UInt8) : Except Err (DataFrame × List UInt8) :=
  match readFrameMetadata r with
  | .error e => .error e
  | .ok (header, r) =>
    if header.option &&& optionData ≠ 0 then
      match readFull 2 r with
      | .error left => .error (shortRead left)
      | .ok (size, r) =>
        match readFull (word size).toNat r with
        | .error left => .error (shortRead left)
        | .ok (payload, r) => .ok (⟨header, payload⟩, r)
    else .ok (⟨header, []⟩, r)

/-- The reader came to the end of its bytes, as opposed to bytes that are no frame. -/
def Err.isShort : Err → Bool
  | .eof | .unexpectedEOF => true
  | .protocol op cause =>
    op = "read metadata length"
      || (op = "read metadata" && (cause = .eof || cause = .unexpectedEOF))
  | _ => false

/-- The error of a reader whose source ends with `cause` instead of an end of file. -/
def Err.endedBy (cause : Err) (e : Err) : Err :=
  if cause = .eof then e
  else
    match e with
    | .protocol op _ => .protocol op cause
    | _ => cause

/-! ## The goroutines -/

/-- `Read`: the room left in the buffer and the bytes that are already in it. -/
inductive Reader where
  | idle
  | draining (room : Nat) (bytes : List UInt8)
  deriving DecidableEq

def Reader.held : Reader → List UInt8
  | .idle => []
  | .draining _ bytes => bytes

/-- The downlink side of a session. `since` is the number of frames that `readLoop` had
handled when the session was registered. -/
structure Inbox where
  pipe : SessionPipe := newSessionPipe sessionPipeLimit
  packets : List (List UInt8 × List UInt8 × Addr × UInt16) := []
  reader : Reader := .idle
  since : Nat
  returned : List UInt8 := []
  reported : Option Err := none
  deriving DecidableEq

/-- The pipe of a session is closed in one step with its terminal cause. -/
def Inbox.follow (f : Flow) (b : Inbox) : Inbox :=
  if f.finish.pastCause then { b with pipe := b.pipe.close f.cause } else b

/-- Where `carrierFill` is: in `conn.Read`, with a chunk and the error that came with
it, or returned. -/
inductive CarrierFill where
  | reading
  | writing (chunk : List UInt8) (err : Option Err)
  | stopped
  deriving DecidableEq

/-- Where `readLoop` is: reading a frame, pushing its payload, done with the payload,
in `finishWithCause` of a session, or returned. -/
inductive ReadLoop where
  | frame
  | pushing
  | pushed
  | finishing (ref : Nat)
  | stopped
  deriving DecidableEq

/-- `pending` are the bytes that `readLoop` took from the carrier's pipe (those in its
`bufio.Reader` included) and that are not part of a frame yet. `loopClosed` records
that a read error of `readLoop` was what closed the worker. -/
structure Downlink where
  uplink : Uplink
  carrier : SessionPipe := newSessionPipe carrierDownlinkLimit
  fill : CarrierFill := .reading
  loop : ReadLoop := .frame
  pending : List UInt8 := []
  dropped : Bool := false
  inboxes : List Inbox := []
  received : List UInt8 := []
  handled : List DataFrame := []
  loopClosed : Bool := false
  deriving DecidableEq

inductive DownAction where
  | act (action : Action)
  | drop
  | carrierRead (bytes : List UInt8) (err : Option Err)
  | carrierWrite
  | fill (order : List Nat)
  | decode (sent : Bool) (order : List Nat)
  | push (closed : Bool)
  | deliver (order : List Nat)
  | resume
  | read (ref : Nat) (room : Nat) (expired : Bool)
  | drain (ref : Nat)
  | readFrom (ref : Nat)
  deriving DecidableEq

namespace Downlink

def start (maxWorkerUses : Int) : Downlink := { uplink := .start maxWorkerUses }

/-- Follow a step of the uplink: new sessions get their inbox, ended ones a closed pipe. -/
def sync (d : Downlink) (u : Uplink) : Downlink :=
  let fresh := List.replicate (u.flows.length - d.inboxes.length) { since := d.handled.length }
  { d with uplink := u, inboxes := List.zipWith Inbox.follow u.flows (d.inboxes ++ fresh) }

/-- The actions of the goroutines other than `readLoop`. The loop of `worker.close` runs
after `downlink.drop`. -/
def allows (d : Downlink) : Action → Bool
  | .receive .. | .deliver _ | .closeWorker (.carrierRead _) _ | .closeWorker (.malformed _) _ =>
    false
  | .closeStep => d.dropped
  | _ => true

def act (d : Downlink) (a : Action) : Option Downlink :=
  if d.allows a then (d.uplink.next a).map d.sync else none

/-- `worker.close` throws the queue of the carrier away. -/
def drop (d : Downlink) : Option Downlink :=
  match d.uplink.teardown with
  | .running _ cause =>
    if d.dropped then none
    else some { d with carrier := d.carrier.drop (some cause), dropped := true }
  | _ => none

/-- `conn.Read` in `carrierFill`. -/
def carrierRead (d : Downlink) (bytes : List UInt8) (err : Option Err) : Option Downlink :=
  if d.fill = .reading ∧ bytes.length ≤ carrierFillBuffer then
    let d := { d with received := d.received ++ bytes }
    if bytes ≠ [] then some { d with fill := .writing bytes err }
    else
      match err with
      | none => some d
      | some e => some { d with carrier := d.carrier.close (some e), fill := .stopped }
  else none

def carrierWrite (d : Downlink) : Option Downlink :=
  match d.fill with
  | .writing chunk err =>
    match d.carrier.write chunk, err with
    | none, _ => none
    | some (.error e), _ => some { d with carrier := d.carrier.close (some e), fill := .stopped }
    | some (.ok p), none => some { d with carrier := p, fill := .reading }
    | some (.ok p), some e => some { d with carrier := p.close (some e), fill := .stopped }
  | _ => none

/-- `readLoop` closes the worker with a read error and returns. -/
def endLoop (d : Downlink) (external : External) (order : List Nat) : Option Downlink :=
  (d.uplink.enterClose external.failure order).map fun u =>
    { d with
      uplink := u, loop := .stopped
      loopClosed := d.loopClosed || d.uplink.teardown = .idle }

/-- `readLoop` needs more bytes: one read of its `bufio.Reader` from the carrier's pipe. -/
def refill (d : Downlink) (order : List Nat) : Option Downlink :=
  if d.loop = .frame then
    match readFrame d.pending with
    | .ok _ => none
    | .error e =>
      if e.isShort then
        match d.carrier.readDeadline workerReadBuffer false with
        | some (.data bytes, p) => some { d with carrier := p, pending := d.pending ++ bytes }
        | some (.failed cause, _) => d.endLoop (.carrierRead (e.endedBy cause)) order
        | _ => none
      else none
  else none

/-- `readLoop` has the bytes of a frame, and looks its session up. -/
def decode (d : Downlink) (sent : Bool) (order : List Nat) : Option Downlink :=
  if d.loop = .frame then
    match readFrame d.pending with
    | .ok (x, rest) =>
      (d.uplink.receive x.header x.payload sent).map fun u =>
        { d with
          uplink := u, pending := rest, handled := d.handled ++ [x]
          loop := if u.demux = .reading then .frame else .pushing }
    | .error e => if e.isShort then none else d.endLoop (.malformed e) order
  else none

/-- The session does not take the payload any more: `deliverFrame` returns `net.ErrClosed`,
which `readLoop` ignores. -/
def refuse (d : Downlink) : Downlink :=
  { d with uplink := { d.uplink with demux := .reading }, loop := .frame }

/-- The part of `deliverFrame` that hands over the payload. A packet goes to a channel
of 16; `closed` is the choice of its `select`. An unusable address is left to `deliver`. -/
def push (d : Downlink) (closed : Bool) : Option Downlink :=
  match d.loop, d.uplink.demux with
  | .pushing, .delivering ref frame payload =>
    (d.uplink.flows[ref]?).bind fun f =>
      (d.inboxes[ref]?).bind fun b =>
        if payload = [] then some { d with loop := .pushed }
        else if f.packet then
          match metadataPacketAddr (frame.target <|> f.target) with
          | .error _ => some { d with loop := .pushed }
          | .ok addr =>
            if closed then if f.done then some d.refuse else none
            else if b.packets.length < 16 then
              let b := { b with packets := b.packets ++ [(payload, addr)] }
              some { d with inboxes := d.inboxes.set ref b, loop := .pushed }
            else none
        else
          match b.pipe.write payload with
          | none => none
          | some (.error _) => some d.refuse
          | some (.ok p) =>
            some { d with inboxes := d.inboxes.set ref { b with pipe := p }, loop := .pushed }
  | _, _ => none

/-- The rest of `deliverFrame`. `finishWithCause` returns when the session's end is over,
whoever runs it. -/
def deliver (d : Downlink) (order : List Nat) : Option Downlink :=
  match d.loop, d.uplink.demux with
  | .pushed, .delivering ref frame _ =>
    (d.uplink.deliver order).map fun u =>
      { d with
        uplink := u
        loop := if u.demux = .stopped then .stopped
          else if (Uplink.remoteEnding frame).isSome then .finishing ref else .frame }
  | _, _ => none

def resume (d : Downlink) : Option Downlink :=
  match d.loop with
  | .finishing ref =>
    (d.uplink.flows[ref]?).bind fun f =>
      if f.finish = .complete then some { d with loop := .frame } else none
  | _ => none

/-- `Read` up to its drain loop, on a session that was returned. -/
def read (d : Downlink) (ref room : Nat) (expired : Bool) : Option Downlink :=
  (d.uplink.flows[ref]?).bind fun f =>
    (d.inboxes[ref]?).bind fun b =>
      if f.packet = false ∧ f.opening = .started ∧ b.reader = .idle ∧ 0 < room then
        match b.pipe.readDeadline room expired with
        | none => none
        | some (.timeout, _) => some d
        | some (.failed e, _) =>
          some { d with inboxes := d.inboxes.set ref { b with reported := some e } }
        | some (.data bytes, p) =>
          let reader := if bytes = [] then .idle else .draining (room - bytes.length) bytes
          some { d with inboxes := d.inboxes.set ref { b with pipe := p, reader } }
      else none

/-- One turn of the drain loop of `Read`, or its return. -/
def drain (d : Downlink) (ref : Nat) : Option Downlink :=
  (d.inboxes[ref]?).bind fun b =>
    match b.reader with
    | .idle => none
    | .draining room bytes =>
      if room = 0 ∨ (b.pipe.readAvailable room).1 = [] then
        let b := { b with reader := .idle, returned := b.returned ++ bytes }
        some { d with inboxes := d.inboxes.set ref b }
      else
        let more := (b.pipe.readAvailable room).1
        let b := { b with
          pipe := (b.pipe.readAvailable room).2
          reader := .draining (room - more.length) (bytes ++ more) }
        some { d with inboxes := d.inboxes.set ref b }

/-- `ReadFrom` takes a packet from the channel. -/
def readFrom (d : Downlink) (ref : Nat) : Option Downlink :=
  (d.inboxes[ref]?).bind fun b =>
    match b.packets with
    | [] => none
    | _ :: packets => some { d with inboxes := d.inboxes.set ref { b with packets } }

def next (d : Downlink) : DownAction → Option Downlink
  | .act a => d.act a
  | .drop => d.drop
  | .carrierRead bytes err => d.carrierRead bytes err
  | .carrierWrite => d.carrierWrite
  | .fill order => d.refill order
  | .decode sent order => d.decode sent order
  | .push closed => d.push closed
  | .deliver order => d.deliver order
  | .resume => d.resume
  | .read ref room expired => d.read ref room expired
  | .drain ref => d.drain ref
  | .readFrom ref => d.readFrom ref

end Downlink

end XrayMux
