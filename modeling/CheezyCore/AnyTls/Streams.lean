import CheezyCore.Foundation.Registry

/-!
# The streams of an AnyTLS session

`OpenStream`, `recvLoop`, the closes of streams and `Session.Close` run in goroutines of their
own. An action is one operation of one goroutine on what they share: the stream map under
`streamLock`, the `die` channel, the closing of a stream. What happens to a written frame or a
read is chosen by the action.

The numbers of the streams are keys of the map `streams`; a peer may use a number again.
-/

namespace AnyTls.Streams

/-- `Stream`; it is closed when its `dieOnce` is done. -/
structure Stream where
  sid : UInt32
  closed : Bool := false
  deriving DecidableEq, Repr

/-- The goroutine that calls `Session.Close`. -/
inductive Owner where
  | openStream (i : Nat)
  | recvLoop
  | streamClose (j : Nat)
  | other
  deriving DecidableEq, Repr

/-- Where the call of `Session.Close` is that won `dieOnce`. -/
inductive Closing where
  /-- There is none, and `die` is open. -/
  | idle
  | hook (owner : Owner)
  | lock (owner : Owner)
  /-- It holds `streamLock` and has the streams of `todo` left to close. -/
  | streams (owner : Owner) (todo : List Nat)
  | conn (owner : Owner)
  | returned
  deriving DecidableEq, Repr

namespace Closing

/-- `IsClosed`. -/
def died (c : Closing) : Bool := c != idle

def owner : Closing → Option Owner
  | hook owner | lock owner | streams owner _ | conn owner => some owner
  | idle | returned => none

/-- The stream map has been emptied. -/
def emptied : Closing → Bool
  | conn _ | returned => true
  | idle | hook _ | lock _ | streams _ _ => false

end Closing

/-- Where a call of `OpenStream` is. -/
inductive OpenPc where
  | check
  | id
  | write (k : Nat)
  | lock (k : Nat)
  /-- It holds `streamLock` and looks at `die`. -/
  | select (k : Nat)
  /-- It holds `streamLock` and enters the stream. -/
  | insert (k : Nat)
  | returned (k : Nat)
  | failed
  deriving DecidableEq, Repr

def OpenPc.holdsLock : OpenPc → Bool
  | select _ | insert _ => true
  | _ => false

/-- Where a call of `Stream.closeWithError` is. -/
inductive ClosePc where
  | once
  | check
  | write
  | delete
  | returned
  deriving DecidableEq, Repr

structure CloseCall where
  stream : Nat
  pc : ClosePc := .once
  deriving DecidableEq, Repr

/-- What `recvLoop` reads from the connection. -/
inductive Incoming where
  | psh (sid : UInt32)
  | syn (sid : UInt32)
  | synack (sid : UInt32) (error : Bool)
  | fin (sid : UInt32)
  /-- `replies` control frames are written. -/
  | settings (replies : Nat)
  | heartRequest
  | alert
  | other
  /-- Reading fails. -/
  | fail
  deriving DecidableEq, Repr

inductive RecvPc where
  | check
  | read
  | frame (f : Incoming)
  /-- The data goes to the pipe of a stream. -/
  | pipe (k : Nat)
  /-- `closeWithError` runs. -/
  | close (j : Nat)
  /-- A stream that is out of the map is closed next. -/
  | finish (k : Nat)
  /-- Control frames are left to write; `last` says that the loop ends then. -/
  | control (count : Nat) (last : Bool)
  /-- The deferred `Close` is left. -/
  | leave
  | exited
  deriving DecidableEq, Repr

structure State where
  isClient : Bool
  /-- `onNewStream` is set. -/
  serves : Bool
  streamId : UInt32 := 0
  streams : Registry UInt32 Stream := {}
  closing : Closing := .idle
  opens : List OpenPc := []
  closes : List CloseCall := []
  recv : RecvPc := .check
  receivedSettings : Bool := false
  /-- The streams handed to `onNewStream`. -/
  handed : List Nat := []

inductive Action where
  /-- `OpenStream` is called. -/
  | openStream
  /-- A call of `OpenStream` goes on; `ok` says how a write ends. -/
  | opening (i : Nat) (ok : Bool)
  /-- `recvLoop` reads a frame. -/
  | read (f : Incoming)
  | recv (ok : Bool)
  /-- A stream that was returned or handed out is closed by its user. -/
  | closeStream (k : Nat)
  | closing (j : Nat) (ok : Bool)
  /-- `Session.Close` is called by another goroutine. -/
  | close
  /-- The call of `Session.Close` goes on, with stream `k` if it closes streams. -/
  | die (k : Nat)
  deriving DecidableEq, Repr

namespace State

/-- Nobody holds `streamLock`. -/
def lockFree (s : State) : Bool :=
  (match s.closing with
    | .streams _ _ => false
    | _ => true) && s.opens.all (! ·.holdsLock)

/-- The goroutine does not wait for its call of `Session.Close`. -/
def runs (s : State) (owner : Owner) : Bool := s.closing.owner != some owner

/-- `OpenStream` returned the stream, or `onNewStream` got it. -/
def Given (s : State) (k : Nat) : Prop := k ∈ s.handed ∨ .returned k ∈ s.opens

instance (s : State) (k : Nat) : Decidable (s.Given k) := inferInstanceAs (Decidable (_ ∨ _))

/-- `Session.Close` enters `dieOnce`. -/
def callClose (s : State) (owner : Owner) : State :=
  if s.closing = .idle then { s with closing := .hook owner } else s

def setOpen (s : State) (i : Nat) (pc : OpenPc) : State := { s with opens := s.opens.set i pc }

def setClose (s : State) (j : Nat) (pc : ClosePc) : State :=
  { s with closes := s.closes.modify j fun c => { c with pc } }

/-- `dieOnce` of stream `k`. -/
def shut (s : State) (k : Nat) : State :=
  { s with streams := s.streams.alter k fun st => { st with closed := true } }

/-- `OpenStream`. -/
def openStep (s : State) (i : Nat) (ok : Bool) : OpenPc → Option State
  | .check => some (s.setOpen i (if s.closing.died then .failed else .id))
  | .id => some ({ s with
      streamId := s.streamId + 1
      streams := s.streams.make { sid := s.streamId + 1 } }.setOpen i
        (.write s.streams.objects.length))
  | .write k =>
    if ok then some (s.setOpen i (.lock k))
    else some ((s.callClose (.openStream i)).setOpen i .failed)
  | .lock k => if s.lockFree then some (s.setOpen i (.select k)) else none
  | .select k => some (s.setOpen i (if s.closing.died then .failed else .insert k))
  | .insert k => s.streams.objects[k]?.map fun st =>
    { s with streams := s.streams.put st.sid k }.setOpen i (.returned k)
  | .returned _ | .failed => none

/-- `closeWithError` and `streamClosed`. -/
def closeStep (s : State) (j : Nat) (ok : Bool) (c : CloseCall) : Option State :=
  s.streams.objects[c.stream]?.bind fun st =>
    match c.pc with
    | .once =>
      if st.closed then some (s.setClose j .returned)
      else some ((s.shut c.stream).setClose j .check)
    | .check => some (s.setClose j (if s.closing.died then .returned else .write))
    | .write =>
      if ok then some (s.setClose j .delete)
      else some ((s.callClose (.streamClose j)).setClose j .delete)
    | .delete =>
      if s.lockFree then
        some ({ s with streams := s.streams.delete st.sid }.setClose j .returned)
      else none
    | .returned => none

/-- A `SYN` for a free number registers a stream; without `onNewStream` it is closed again. -/
def register (s : State) (sid : UInt32) : State :=
  let k := s.streams.objects.length
  let s := { s with streams := (s.streams.make { sid }).put sid k, recv := .check }
  if s.serves then { s with handed := s.handed ++ [k] }
  else { s with closes := s.closes ++ [{ stream := k }] }

/-- `recvLoop` acts on a frame. -/
def frameStep (s : State) : Incoming → Option State
  | .psh sid =>
    if s.lockFree then
      some { s with recv := (s.streams.slots sid).elim .check .pipe }
    else none
  | .syn sid =>
    if !s.isClient && !s.receivedSettings then some { s with recv := .control 1 true }
    else if s.lockFree then
      some (if s.streams.slots sid = none then s.register sid else { s with recv := .check })
    else none
  | .synack sid error =>
    if error then
      if s.lockFree then
        match s.streams.slots sid with
        | some k => some { s with
            closes := s.closes ++ [{ stream := k }]
            recv := .close s.closes.length }
        | none => some { s with recv := .check }
      else none
    else some { s with recv := .check }
  | .fin sid =>
    if s.lockFree then
      some { s with
        streams := s.streams.delete sid
        recv := (s.streams.slots sid).elim .check .finish }
    else none
  | .settings replies =>
    some (if s.isClient then { s with recv := .check }
      else { s with receivedSettings := true, recv := .control replies false })
  | .heartRequest => some { s with recv := .control 1 false }
  | .alert | .fail => some { s with recv := .leave }
  | .other => some { s with recv := .check }

def recvStep (s : State) (ok : Bool) : RecvPc → Option State
  | .check => some { s with recv := if s.closing.died then .leave else .read }
  | .read => none
  | .frame f => s.frameStep f
  | .pipe _ => some { s with recv := .check }
  | .close j => s.closes[j]?.bind fun c =>
    if c.pc = .returned then some { s with recv := .check } else none
  | .finish k => some { s.shut k with recv := .check }
  | .control 0 last => some { s with recv := if last then .leave else .check }
  | .control (count + 1) last =>
    if ok then some { s with recv := .control count last }
    else some { s.callClose .recvLoop with recv := .leave }
  | .leave => some { s.callClose .recvLoop with recv := .exited }
  | .exited => none

/-- The rest of `Session.Close`. The order in which it closes the streams is open. -/
def dieStep (s : State) (k : Nat) : Closing → Option State
  | .idle | .returned => none
  | .hook owner => some { s with closing := .lock owner }
  | .lock owner =>
    if s.lockFree then
      some { s with closing := .streams owner (s.streams.values Stream.sid) }
    else none
  | .streams owner [] => some { s with streams := s.streams.clear, closing := .conn owner }
  | .streams owner todo =>
    if k ∈ todo then some { s.shut k with closing := .streams owner (todo.erase k) } else none
  | .conn _ => some { s with closing := .returned }

def next (s : State) : Action → Option State
  | .openStream => some { s with opens := s.opens ++ [.check] }
  | .opening i ok => s.opens[i]?.bind fun pc =>
    if s.runs (.openStream i) then s.openStep i ok pc else none
  | .read f =>
    if s.recv = .read ∧ (s.closing = .returned → f = .fail) then
      some { s with recv := .frame f }
    else none
  | .recv ok => if s.runs .recvLoop then s.recvStep ok s.recv else none
  | .closeStream k =>
    if s.Given k then some { s with closes := s.closes ++ [{ stream := k }] } else none
  | .closing j ok => s.closes[j]?.bind fun c =>
    if s.runs (.streamClose j) then s.closeStep j ok c else none
  | .close => some (s.callClose .other)
  | .die k => s.dieStep k s.closing

end State

/-- `NewClientSession` has no `onNewStream`, `NewServerSession` may have one. -/
def newSession (isClient serves : Bool) : State := { isClient, serves := !isClient && serves }

end AnyTls.Streams
