import CheezyCore.Foundation.Registry

/-!
# The streams of a Sudoku mux session

`OpenStream`, `AcceptStream`, `readLoop`, the closes of streams and `closeWithError` run in
goroutines of their own. An action is one operation of one goroutine on what they share: a
critical section under `streamsMu` or under the mutex of a stream, an operation on the channels
`closed` and `acceptCh`. Whether a frame can be sent is chosen by the action; a write that fails
makes the sender call `closeWithError`, which returns when the first call of it has.
-/

namespace Sudoku.MuxStreams

abbrev Bytes := List UInt8

def maxQueuedBytesPerStream : Nat := 4 * 1024 * 1024

/-- The room of `acceptCh`. -/
def acceptBacklog : Nat := 256

structure Stream where
  id : UInt32
  closed : Bool := false
  remoteWriteClosed : Bool := false
  readBuf : Bytes := []
  queue : List Bytes := []
  queuedBytes : Nat := 0
  deriving DecidableEq, Repr

inductive ReadResult where
  | data (bytes : Bytes)
  | error
  deriving DecidableEq, Repr

namespace Stream

/-- The bytes that `Read` has not returned yet. -/
def unread (st : Stream) : Bytes := st.readBuf ++ st.queue.flatten

def closeNoSend (st : Stream) : Stream := { st with closed := true }

def closeRemoteWrite (st : Stream) : Stream :=
  if st.closed then st else { st with remoteWriteClosed := true }

/-- What `Close` does to the stream itself. -/
def close (st : Stream) : Stream :=
  { st with closed := true, readBuf := [], queue := [], queuedBytes := 0 }

/-- `enqueue`; `none` if the queue is full. -/
def enqueue (st : Stream) (payload : Bytes) : Option Stream :=
  if st.closed || st.remoteWriteClosed then some st
  else if maxQueuedBytesPerStream < st.queuedBytes + payload.length then none
  else if st.readBuf = [] ∧ st.queue = [] then
    some { st with queuedBytes := st.queuedBytes + payload.length, readBuf := payload }
  else
    some { st with
      queuedBytes := st.queuedBytes + payload.length
      queue := st.queue ++ [payload] }

/-- The first message of the queue moves to an empty `readBuf`. -/
def refill (st : Stream) : Stream :=
  match st.readBuf, st.queue with
  | [], message :: rest => { st with readBuf := message, queue := rest }
  | _, _ => st

/-- `n` bytes of `readBuf` are copied to the caller. -/
def consume (st : Stream) (n : Nat) : Stream :=
  { st with
    readBuf := st.readBuf.drop n
    queuedBytes := st.queuedBytes - (st.readBuf.take n).length }

/-- `Read` with a buffer of `n > 0` bytes; `none` if it waits. -/
def read (st : Stream) (n : Nat) : Option (ReadResult × Stream) :=
  if st.readBuf = [] ∧ st.queue = [] ∧ !st.closed ∧ !st.remoteWriteClosed then none
  else if st.refill.readBuf = [] ∧ (st.closed ∨ st.remoteWriteClosed) then some (.error, st.refill)
  else some (.data (st.refill.readBuf.take n), st.refill.consume n)

/-- Calls of `Read` until one fails: the bytes, and whether one failed. -/
def readAll (st : Stream) : List Nat → Option (Bytes × Bool)
  | [] => some ([], false)
  | n :: sizes => (st.read n).bind fun
      | (.error, _) => some ([], true)
      | (.data bytes, st') => (st'.readAll sizes).map fun rest => (bytes ++ rest.1, rest.2)

end Stream

/-- How a call of `sendFrame` on an open session ends. -/
inductive Sending where
  | sent
  /-- The frame is too large. -/
  | refused
  /-- A write fails and the session is closed. -/
  | failed
  deriving DecidableEq, Repr

/-- Where the first call of `closeWithError` is. -/
inductive Closing where
  | idle
  /-- The streams of the map are next. -/
  | snapshot
  | streams (todo : List Nat)
  | conn
  | returned
  deriving DecidableEq, Repr

/-- The channel `closed` is closed. -/
def Closing.shut : Closing → Bool
  | conn | returned => true
  | idle | snapshot | streams _ => false

/-- Where a call of `OpenStream` is. -/
inductive OpenPc where
  | check
  | id
  | register (id : UInt32)
  /-- `sendFrame` looks at `closed`. -/
  | send (k : Nat)
  | sending (k : Nat)
  /-- It waits for `closeWithError`. -/
  | await (k : Nat)
  | close (k : Nat)
  | remove (k : Nat)
  | returned (k : Nat)
  | failed
  deriving DecidableEq, Repr

/-- Where the goroutine is that offers a stream to `AcceptStream`. -/
inductive OfferPc where
  | select (k : Nat)
  | close (k : Nat)
  | remove (k : Nat)
  | done
  deriving DecidableEq, Repr

/-- Where a call of `stream.Close` is. -/
inductive ClosePc where
  | mark
  | send
  | await
  | remove
  | returned
  deriving DecidableEq, Repr

structure CloseCall where
  stream : Nat
  pc : ClosePc := .mark
  deriving DecidableEq, Repr

/-- What `readLoop` reads from the connection. -/
inductive Incoming where
  | open (id : UInt32)
  | data (id : UInt32) (payload : Bytes)
  | close (id : UInt32)
  | reset (id : UInt32)
  /-- A ping or pong. -/
  | keepalive
  /-- Reading fails, or the frame is not valid. -/
  | fail
  deriving DecidableEq, Repr

inductive ReadPc where
  | read
  | frame (f : Incoming)
  | register (id : UInt32)
  | enqueue (k : Nat) (payload : Bytes)
  | closeRemote (k : Nat)
  | close (k : Nat)
  | remove (k : Nat)
  /-- The loop ends when `closeWithError` returns. -/
  | leave
  | exited
  deriving DecidableEq, Repr

structure State where
  /-- The session has an `acceptCh`. -/
  serves : Bool
  nextID : UInt32 := 0
  streams : Registry UInt32 Stream := {}
  closing : Closing := .idle
  opens : List OpenPc := []
  offers : List OfferPc := []
  acceptCh : List Nat := []
  /-- The streams that `AcceptStream` returned. -/
  accepted : List Nat := []
  closes : List CloseCall := []
  reader : ReadPc := .read

inductive Action where
  /-- `OpenStream` is called. -/
  | openStream
  | opening (i : Nat) (result : Sending)
  /-- `readLoop` reads a frame. -/
  | receive (f : Incoming)
  | reader
  /-- A goroutine that offers a stream goes on; `take` says that it prefers `closed`. -/
  | offer (i : Nat) (take : Bool)
  /-- `AcceptStream` returns a stream. -/
  | accept
  /-- The user of a stream reads from it. -/
  | read (k : Nat) (n : Nat)
  /-- The user of a stream calls `Close`. -/
  | closeStream (k : Nat)
  | closing (j : Nat) (result : Sending)
  /-- `Session.Close` is called, or the write of another goroutine fails. -/
  | close
  /-- `closeWithError` goes on, with stream `k` if it closes streams. -/
  | die (k : Nat)
  deriving DecidableEq, Repr

namespace State

/-- `OpenStream` or `AcceptStream` returned the stream. -/
def Given (s : State) (k : Nat) : Prop := .returned k ∈ s.opens ∨ k ∈ s.accepted

instance (s : State) (k : Nat) : Decidable (s.Given k) := inferInstanceAs (Decidable (_ ∨ _))

/-- `closeWithError` is called. -/
def callClose (s : State) : State :=
  if s.closing = .idle then { s with closing := .snapshot } else s

def setOpen (s : State) (i : Nat) (pc : OpenPc) : State := { s with opens := s.opens.set i pc }

def setOffer (s : State) (i : Nat) (pc : OfferPc) : State := { s with offers := s.offers.set i pc }

def setClose (s : State) (j : Nat) (pc : ClosePc) : State :=
  { s with closes := s.closes.modify j fun c => { c with pc } }

def alter (s : State) (k : Nat) (f : Stream → Stream) : State :=
  { s with streams := s.streams.alter k f }

def closeNoSend (s : State) (k : Nat) : Option State :=
  s.streams.objects[k]?.map fun _ => s.alter k Stream.closeNoSend

/-- `removeStream` for the number of stream `k`. -/
def remove (s : State) (k : Nat) : Option State :=
  s.streams.objects[k]?.map fun st => { s with streams := s.streams.delete st.id }

/-- `newStream` and `registerStream`. -/
def register (s : State) (id : UInt32) : State :=
  { s with streams := (s.streams.make { id }).put id s.streams.objects.length }

/-- `nextStreamID`. -/
def nextStreamID (s : State) : UInt32 := if s.nextID + 1 = 0 then 1 else s.nextID + 1

/-- `OpenStream`. -/
def openStep (s : State) (i : Nat) (result : Sending) : OpenPc → Option State
  | .check => some (s.setOpen i (if s.closing.shut then .failed else .id))
  | .id => some ({ s with nextID := s.nextStreamID }.setOpen i (.register s.nextStreamID))
  | .register id => some ((s.register id).setOpen i (.send s.streams.objects.length))
  | .send k => some (s.setOpen i (if s.closing.shut then .close k else .sending k))
  | .sending k => some (match result with
      | .sent => s.setOpen i (.returned k)
      | .refused => s.setOpen i (.close k)
      | .failed => s.callClose.setOpen i (.await k))
  | .await k => if s.closing = .returned then some (s.setOpen i (.close k)) else none
  | .close k => (s.closeNoSend k).map (·.setOpen i (.remove k))
  | .remove k => (s.remove k).map (·.setOpen i .failed)
  | .returned _ | .failed => none

/-- The goroutine of a `frameOpen`. It may choose when both channels are ready. -/
def offerStep (s : State) (i : Nat) (take : Bool) : OfferPc → Option State
  | .select k =>
    if take then
      if s.closing.shut then some (s.setOffer i (.close k)) else none
    else if s.acceptCh.length < acceptBacklog then
      some ({ s with acceptCh := s.acceptCh ++ [k] }.setOffer i .done)
    else none
  | .close k => (s.closeNoSend k).map (·.setOffer i (.remove k))
  | .remove k => (s.remove k).map (·.setOffer i .done)
  | .done => none

/-- `stream.Close`. -/
def closeStep (s : State) (j : Nat) (result : Sending) (c : CloseCall) : Option State :=
  match c.pc with
  | .mark => s.streams.objects[c.stream]?.map fun st =>
    if st.closed then s.setClose j .returned
    else (s.alter c.stream Stream.close).setClose j .send
  | .send =>
    if s.closing.shut ∨ result ≠ .failed then some (s.setClose j .remove)
    else some (s.callClose.setClose j .await)
  | .await => if s.closing = .returned then some (s.setClose j .remove) else none
  | .remove => (s.remove c.stream).map (·.setClose j .returned)
  | .returned => none

/-- `readLoop` acts on a frame. For an open that it refuses it sends a reset itself, and goes on
whether that succeeds or not; that a write fails and ends the session is the action `close`. -/
def frameStep (s : State) : Incoming → State
  | .open id =>
    if s.serves ∧ id ≠ 0 ∧ s.streams.slots id = none then { s with reader := .register id }
    else { s with reader := .read }
  | .data id payload =>
    { s with reader := (s.streams.slots id).elim .read fun k =>
        if payload = [] then .read else .enqueue k payload }
  | .close id => { s with reader := (s.streams.slots id).elim .read .closeRemote }
  | .reset id => { s with reader := (s.streams.slots id).elim .read .close }
  | .keepalive => { s with reader := .read }
  | .fail => { s.callClose with reader := .leave }

def readerStep (s : State) : ReadPc → Option State
  | .read => none
  | .frame f => some (s.frameStep f)
  | .register id => some { s.register id with
      offers := s.offers ++ [.select s.streams.objects.length]
      reader := .read }
  | .enqueue k payload => s.streams.objects[k]?.map fun st =>
    match st.enqueue payload with
    | some st' => { s.alter k (fun _ => st') with reader := .read }
    | none => { s with reader := .close k }
  | .closeRemote k => some { s.alter k Stream.closeRemoteWrite with reader := .read }
  | .close k => (s.closeNoSend k).map fun t => { t with reader := .remove k }
  | .remove k => (s.remove k).map fun t => { t with reader := .read }
  | .leave => if s.closing = .returned then some { s with reader := .exited } else none
  | .exited => none

/-- `closeWithError`. The order in which it closes the streams is open. -/
def dieStep (s : State) (k : Nat) : Closing → Option State
  | .idle | .returned => none
  | .snapshot => some { s with
      streams := s.streams.clear
      closing := .streams (s.streams.values Stream.id) }
  | .streams [] => some { s with closing := .conn }
  | .streams todo =>
    if k ∈ todo then
      (s.closeNoSend k).map fun t => { t with closing := .streams (todo.erase k) }
    else none
  | .conn => some { s with closing := .returned }

def next (s : State) : Action → Option State
  | .openStream => some { s with opens := s.opens ++ [.check] }
  | .opening i result => s.opens[i]?.bind (s.openStep i result)
  | .receive f =>
    if s.reader = .read ∧ (s.closing = .returned → f = .fail) then
      some { s with reader := .frame f }
    else none
  | .reader => s.readerStep s.reader
  | .offer i take => s.offers[i]?.bind (s.offerStep i take)
  | .accept => match s.acceptCh with
      | [] => none
      | k :: rest => some { s with acceptCh := rest, accepted := s.accepted ++ [k] }
  | .read k n =>
    if s.Given k ∧ 0 < n then
      s.streams.objects[k]?.bind fun st => (st.read n).map fun result =>
        s.alter k fun _ => result.2
    else none
  | .closeStream k =>
    if s.Given k then some { s with closes := s.closes ++ [{ stream := k }] } else none
  | .closing j result => s.closes[j]?.bind (s.closeStep j result)
  | .close => some s.callClose
  | .die k => s.dieStep k s.closing

end State

/-- `NewClientSession` has no `acceptCh`, `NewServerSession` has one. -/
def newSession (serves : Bool) : State := { serves }

end Sudoku.MuxStreams
