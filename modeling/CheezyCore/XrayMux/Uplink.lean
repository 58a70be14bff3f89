import CheezyCore.XrayMux.Worker

/-!
# The goroutines that share one carrier

Every session of a carrier has writers (`Write`, `WriteTo`), a timer that opens
the session on the wire when no payload came in time, and an end: `Close`, an End
or Error frame from the peer, or the end of the carrier. Each of them runs in a
goroutine of its own. A step here is what a goroutine does between two points at
which another one can see or change something it depends on: a critical section
of `newMu` or `w.mu`, a frame handed to the carrier, a channel that is closed.

`Flow.step` is a step of one session's goroutines. It knows nothing of the other
sessions: what it sees of the worker is an `Env`, what it asks of it is a `Call`.
`Uplink.next` puts the sessions, the demultiplexer and `worker.close` together.
The choice of goroutine, the fate of each write on the carrier and the iteration
order of the session map are part of the action.
-/

namespace XrayMux

open BigEndian

/-- Why `worker.close` was called. -/
inductive Origin where
  | carrierError
  | malformedFrame
  | idleExpiry
  | retirement
  | poolClose
  | sessionClosed
  | unencodable
  deriving DecidableEq, Repr

/-- An error on its way to `worker.close`, with the reason it stands for. -/
structure Failure where
  origin : Origin
  err : Err
  deriving DecidableEq, Repr

/-- A frame handed to the carrier by a session, or by the demultiplexer (`none`).
`sent` tells whether the carrier's write succeeded. -/
structure Frame where
  owner : Option Nat
  id : UInt16
  status : UInt8
  option : UInt8
  header : List UInt8
  payload : List UInt8
  sent : Bool
  deriving DecidableEq, Repr

/-- `worker.writeFrame` up to the carrier: an error means that nothing was written. -/
def writeFrame (owner : Option Nat) (id : UInt16) (status option : UInt8)
    (target : Option Metadata) (globalID : Option (Fixed 8)) (payload : List UInt8)
    (sent : Bool) : Except Err Frame :=
  if payload.length > maxFramePayload then
    .error (protocolError "encode" (.text ("payload length " ++ toString payload.length ++
      " exceeds " ++ toString maxFramePayload)))
  else if payload ≠ [] ∧ option &&& optionData = 0 then
    .error (protocolError "encode" (.text "payload provided without data option"))
  else
    match encodeMetadata id status option target globalID with
    | .error e => .error e
    | .ok header => .ok { owner, id, status, option, header, payload, sent }

/-- The error of a carrier that fails to write. -/
def carrierFailure : Failure := ⟨.carrierError, .conn 0⟩

/-! ## One session -/

/-- `firstPayloadTimer` and the goroutine it starts. -/
inductive Timer where
  | unset
  | armed
  | fired
  | failing (failure : Failure)
  | closing
  | complete
  deriving DecidableEq, Repr

/-- `Stop` does not reach a goroutine that was already started. -/
def Timer.stop : Timer → Timer
  | .armed => .unset
  | timer => timer

inductive WriterPc where
  | head
  | keep
  | failing (failure : Failure)
  | closing (failure : Failure)
  | returned (err : Option Err)
  deriving DecidableEq, Repr

/-- A call of `Write` or `WriteTo`: the bytes counted as written, those still to
write, and where its frames go. -/
structure Writer where
  target : Option Metadata
  written : List UInt8 := []
  rest : List UInt8
  pc : WriterPc := .head
  deriving DecidableEq

def Writer.isReturned (w : Writer) : Bool :=
  match w.pc with
  | .returned _ => true
  | _ => false

/-- The next chunk of the loop, and the writer once it is on the carrier. -/
def Writer.chunk (w : Writer) : List UInt8 := w.rest.take maxFramePayload

def Writer.advance (w : Writer) : Writer :=
  { w with written := w.written ++ w.chunk, rest := w.rest.drop maxFramePayload, pc := .head }

/-- The arguments of `finishWithCause`. -/
structure Ending where
  sendEnd : Bool
  withError : Bool
  cause : Option Err
  deriving DecidableEq, Repr

/-- How far the `once` body of `finishWithCause` is. -/
inductive Finish where
  | idle
  | begun (ending : Ending)
  | stopped (ending : Ending)
  | ending (ending : Ending)
  | ended (ending : Ending)
  | caused
  | finished
  | removed (retire : Bool)
  | retiring
  | complete
  deriving DecidableEq, Repr

/-- The terminal cause is set. -/
def Finish.pastCause : Finish → Bool
  | .caused | .finished | .removed _ | .retiring | .complete => true
  | _ => false

/-- Who ended a session. -/
inductive Ender where
  | localClose
  | remoteEnd
  | failedOpen
  | workerClose
  deriving DecidableEq, Repr

/-- How far `openSession` is. -/
inductive Opening where
  | reserved
  | failed (failure : Failure)
  | abandoned (failure : Failure)
  | lost
  | started
  deriving DecidableEq, Repr

/-- The uplink side of a `session`. -/
structure Flow extends SessionRef where
  opening : Opening := .reserved
  target : Option Metadata := none
  globalID : Option (Fixed 8) := none
  newSent : Bool := false
  newClosed : Bool := false
  timer : Timer := .unset
  finish : Finish := .idle
  ender : Option Ender := none
  done : Bool := false
  cause : Option Err := none
  writers : List Writer := []
  deriving DecidableEq

/-- What a session's goroutine sees of the worker: `w.closed`, whether `worker.close`
is over, and the `shouldClose` of `removeSession`. -/
structure Env where
  closed : Bool
  torn : Bool
  retire : Bool

/-- What a session's goroutine asks of the worker. -/
inductive Call where
  | none
  | close (failure : Failure)
  | removeSession
  | abandonSession
  deriving DecidableEq, Repr

structure Outcome where
  flow : Flow
  frame : Option Frame := none
  call : Call := .none

inductive FlowAction where
  | openSession (metadata : Metadata) (globalID : Option (Fixed 8)) (firstPayloadTimeout : Int)
      (sent : Bool)
  | abandon
  | closeAbandoned
  | write (payload : List UInt8) (expired : Bool)
  | writeTo (payload : List UInt8) (target : Metadata) (expired : Bool)
  | writeStep (k : Nat) (sent : Bool)
  | timerFire
  | timerStep (sent : Bool)
  | close
  | finishStep (sent : Bool)
  deriving DecidableEq

namespace Flow

def closedWriteError (f : Flow) : Err := f.cause.getD .netClosed

/-- `writeNewTo`, one critical section of `newMu`: the session, the frame put on the
carrier, and the result. -/
def writeNewTo (f : Flow) (payload : List UInt8) (target : Option Metadata) (sent : Bool) :
    Flow × Option Frame × Except Failure Bool :=
  if f.newClosed then (f, none, .error ⟨.sessionClosed, f.closedWriteError⟩)
  else if f.newSent then (f, none, .ok false)
  else if f.done then (f, none, .error ⟨.sessionClosed, f.closedWriteError⟩)
  else
    let option := if payload = [] then 0 else optionData
    let f := { f with timer := f.timer.stop, newSent := true }
    match writeFrame (some f.ref) f.id statusNew option target f.globalID payload sent with
    | .error e => (f, none, .error ⟨.unencodable, e⟩)
    | .ok frame => (f, some frame, if sent then .ok true else .error carrierFailure)

/-- The three callers of `dialSession`: `DialContext`, `DialUDPContext` and
`ListenPacketContext`. -/
def dialable (packet : Bool) (metadata : Metadata) (globalID : Option (Fixed 8)) : Bool :=
  (!packet && metadata.netWork = .TCP && globalID.isNone) ||
    (metadata.netWork = .UDP && globalID.isSome)

/-- The session with the target and GlobalID that `openSession` sets. -/
def aim (f : Flow) (metadata : Metadata) (globalID : Option (Fixed 8)) : Flow :=
  { f with target := some metadata, globalID }

/-- `openSession` with `session.start`. -/
def openSession (f : Flow) (metadata : Metadata) (globalID : Option (Fixed 8))
    (firstPayloadTimeout : Int) (sent : Bool) : Option Outcome :=
  if f.opening = .reserved ∧ dialable f.packet metadata globalID = true then
    if metadata.netWork = .UDP then
      some { flow := { f.aim metadata globalID with opening := .started } }
    else if firstPayloadTimeout ≤ 0 then
      match (f.aim metadata globalID).writeNewTo [] (some metadata) sent with
      | (g, frame, .error failure) => some { flow := { g with opening := .failed failure }, frame }
      | (g, frame, .ok _) => some { flow := { g with opening := .started }, frame }
    else some { flow := { f.aim metadata globalID with timer := .armed, opening := .started } }
  else none

/-- `abandonSession`; its `once` body has no other observer in a session that was
never returned. -/
def abandon (f : Flow) : Option Outcome :=
  match f.opening with
  | .failed failure =>
    let f := { f with opening := .abandoned failure }
    if f.finish = .idle then
      some {
        flow := { f with
          finish := .complete, ender := some .failedOpen, newClosed := true, timer := f.timer.stop
          done := true, cause := some failure.err }
        call := .abandonSession }
    else some { flow := f, call := .abandonSession }
  | _ => none

/-- The last line of a failed `openSession`: `go w.close(err)`. -/
def closeAbandoned (f : Flow) : Option Outcome :=
  match f.opening with
  | .abandoned failure =>
    if f.finish = .complete then some
      { flow := { f with opening := .lost }, call := .close failure }
    else none
  | _ => none

/-- The beginning of `Write`. A closed session and an expired deadline return. -/
def write (f : Flow) (payload : List UInt8) (expired : Bool) : Option Outcome :=
  if f.opening = .started ∧ f.packet = false then
    if f.done ∨ expired then some { flow := f }
    else some
      { flow := { f with writers := f.writers ++ [{ target := f.target, rest := payload }] } }
  else none

/-- The beginning of `WriteTo`, with the target `packetAddrMetadata` gave. The calls
exclude each other by `packetWriteMu`. -/
def writeTo (f : Flow) (payload : List UInt8) (target : Metadata) (expired : Bool) :
    Option Outcome :=
  if f.opening = .started ∧ f.packet = true ∧ target.netWork = .UDP ∧
      f.writers.all Writer.isReturned = true then
    if payload = [] ∨ payload.length > maxFramePayload ∨ f.done ∨ expired then some { flow := f }
    else some
      { flow := { f with writers := f.writers ++ [{ target := some target, rest := payload }] } }
  else none

/-- UDP Keep frames repeat the destination address, TCP ones do not. -/
def keepTarget (f : Flow) (target : Option Metadata) : Option Metadata :=
  if f.packet ∨ isUDP target then target else none

def setWriter (f : Flow) (k : Nat) (w : Writer) : Flow := { f with writers := f.writers.set k w }

/-- The chunk loop of `Write`, and the frame of `WriteTo`, whose payload is one chunk. -/
def writeStep (env : Env) (f : Flow) (k : Nat) (w : Writer) (sent : Bool) : Option Outcome :=
  match w.pc with
  | .head =>
    if w.rest = [] then some { flow := f.setWriter k { w with pc := .returned none } }
    else
      match f.writeNewTo w.chunk w.target sent with
      | (g, frame, .error failure) =>
        some { flow := g.setWriter k { w with pc := .failing failure }, frame }
      | (g, frame, .ok true) => some { flow := g.setWriter k w.advance, frame }
      | (g, frame, .ok false) => some { flow := g.setWriter k { w with pc := .keep }, frame }
  | .keep =>
    match writeFrame (some f.ref) f.id statusKeep optionData (f.keepTarget w.target) none w.chunk
        sent with
    | .error e => some { flow := f.setWriter k { w with pc := .failing ⟨.unencodable, e⟩ } }
    | .ok frame =>
      if sent then some { flow := f.setWriter k w.advance, frame := some frame }
      else some { flow := f.setWriter k { w with pc := .failing carrierFailure }
                  frame := some frame }
  | .failing failure =>
    some { flow := f.setWriter k { w with pc := .closing failure }, call := .close failure }
  | .closing failure =>
    if env.torn then some { flow := f.setWriter k { w with pc := .returned (some failure.err) } }
    else none
  | .returned _ => none

/-- The goroutine of the first-payload timer. -/
def timerStep (env : Env) (f : Flow) (sent : Bool) : Option Outcome :=
  match f.timer with
  | .fired =>
    match f.writeNewTo [] f.target sent with
    | (g, frame, .error failure) => some { flow := { g with timer := .failing failure }, frame }
    | (g, frame, .ok _) => some { flow := { g with timer := .complete }, frame }
  | .failing failure => some { flow := { f with timer := .closing }, call := .close failure }
  | .closing => if env.torn then some { flow := { f with timer := .complete } } else none
  | _ => none

/-- Win the `once` of `finishWithCause`. -/
def beginFinish (f : Flow) (ender : Ender) (ending : Ending) : Flow :=
  { f with finish := .begun ending, ender := some ender }

/-- The `once` body of `finishWithCause`, then `removeSession`. -/
def finishStep (env : Env) (f : Flow) (sent : Bool) : Option Outcome :=
  match f.finish with
  | .begun e =>
    some { flow := { f with newClosed := true, timer := f.timer.stop, finish := .stopped e } }
  | .stopped e =>
    some { flow := { f with finish := if e.sendEnd && !env.closed then .ending e else .ended e } }
  | .ending e =>
    let option := if e.withError then optionError else 0
    some {
      flow := { f with finish := .ended e }
      frame := (writeFrame (some f.ref) f.id statusEnd option none none [] sent).toOption }
  | .ended e => some { flow := { f with cause := e.cause, finish := .caused } }
  | .caused => some { flow := { f with done := true, finish := .finished } }
  | .finished => some { flow := { f with finish := .removed env.retire }, call := .removeSession }
  | .removed retire =>
    if retire then
      some { flow := { f with finish := .retiring }, call := .close ⟨.retirement, .netClosed⟩ }
    else some { flow := { f with finish := .complete } }
  | .retiring => if env.torn then some { flow := { f with finish := .complete } } else none
  | .idle | .complete => none

/-- One step of one of the session's goroutines. -/
def step (env : Env) (f : Flow) : FlowAction → Option Outcome
  | .openSession metadata globalID timeout sent => f.openSession metadata globalID timeout sent
  | .abandon => f.abandon
  | .closeAbandoned => f.closeAbandoned
  | .write payload expired => f.write payload expired
  | .writeTo payload target expired => f.writeTo payload target expired
  | .writeStep k sent => (f.writers[k]?).bind fun w => f.writeStep env k w sent
  | .timerFire => if f.timer = .armed then some { flow := { f with timer := .fired } } else none
  | .timerStep sent => f.timerStep env sent
  | .close =>
    if f.opening = .started ∧ f.finish = .idle then
      some { flow := f.beginFinish .localClose ⟨true, false, none⟩ }
    else none
  | .finishStep sent => f.finishStep env sent

end Flow

/-! ## The carrier -/

/-- `worker.close`: the sessions its loop has still to finish. -/
inductive Teardown where
  | idle
  | running (pending : List Nat) (cause : Err)
  | done
  deriving DecidableEq, Repr

/-- `readLoop`, between two frames or with a frame for a session it looked up. -/
inductive Demux where
  | reading
  | delivering (ref : Nat) (frame : FrameMetadata) (payload : List UInt8)
  | stopped
  deriving DecidableEq

structure Uplink where
  worker : Worker
  flows : List Flow := []
  teardown : Teardown := .idle
  origin : Option Origin := none
  demux : Demux := .reading
  wire : List Frame := []
  deriving DecidableEq

/-- `netip.Addr.Unmap`. -/
def Addr.unmap : Addr → Addr
  | .v6 bytes zone =>
    if bytes.toList.take 12 = [0, 0, 0, 0, 0, 0, 0, 0, 0, 0, 0xff, 0xff] then
      .v4 (Fixed.ofPrefix 4 (bytes.toList.drop 12))
    else .v6 bytes zone
  | addr => addr

/-- The address a UDP packet is delivered with. -/
def metadataPacketAddr : Option Metadata → Except Err (List UInt8 × Addr × UInt16)
  | none => .error (.text "xray mux: UDP frame is missing a target")
  | some m =>
    if m.netWork ≠ .UDP then .error (.text "xray mux: UDP frame is missing a target")
    else if m.host ≠ [] then .ok (m.host, .invalid, m.dstPort)
    else if m.dstIP ≠ .invalid then .ok ([], m.dstIP.unmap, m.dstPort)
    else .error (.text "xray mux: UDP target address is empty")

/-- The calls of `worker.close` that come from outside the sessions. -/
inductive External where
  | carrierRead (err : Err)
  | malformed (err : Err)
  | idleExpiry
  | poolClose
  deriving DecidableEq, Repr

def External.failure : External → Failure
  | .carrierRead err => ⟨.carrierError, err⟩
  | .malformed err => ⟨.malformedFrame, err⟩
  | .idleExpiry => ⟨.idleExpiry, .netClosed⟩
  | .poolClose => ⟨.poolClose, .netClosed⟩

inductive Action where
  | reserve (limit : Int) (packet : Bool)
  | session (ref : Nat) (action : FlowAction) (order : List Nat)
  | receive (frame : FrameMetadata) (payload : List UInt8) (sent : Bool)
  | deliver (order : List Nat)
  | closeWorker (external : External) (order : List Nat)
  | closeStep
  deriving DecidableEq

namespace Uplink

def start (maxWorkerUses : Int) : Uplink := { worker := newWorker (poolMaxUses maxWorkerUses) }

/-- Enter `worker.close`. The first caller empties the session map and runs the loop;
`order` is the order in which the loop visits the sessions. -/
def enterClose (u : Uplink) (failure : Failure) (order : List Nat) : Option Uplink :=
  match u.teardown with
  | .idle =>
    if order.Perm (u.worker.sessions.map SessionRef.ref) then
      some { u with
        worker := u.worker.shutdown
        teardown := .running order failure.err
        origin := some failure.origin }
    else none
  | _ => some u

def env (u : Uplink) (id : UInt16) : Env where
  closed := u.worker.closed
  torn := u.teardown = .done
  retire := (u.worker.removeSession id).2

def reserve (u : Uplink) (limit : Int) (packet : Bool) : Uplink :=
  match u.worker.reserve limit packet with
  | none => u
  | some (s, w) => { u with worker := w, flows := u.flows ++ [{ toSessionRef := s }] }

def session (u : Uplink) (ref : Nat) (action : FlowAction) (order : List Nat) : Option Uplink :=
  (u.flows[ref]?).bind fun f =>
    (f.step (u.env f.id) action).bind fun o =>
      let u' := { u with flows := u.flows.set ref o.flow, wire := u.wire ++ o.frame.toList }
      match o.call with
      | .none => some u'
      | .close failure => u'.enterClose failure order
      | .removeSession => some { u' with worker := (u.worker.removeSession f.id).1 }
      | .abandonSession => some { u' with worker := u.worker.abandonSession f.id }

/-- `readLoop` up to the lookup. It answers frames for unknown sessions with End. -/
def receive (u : Uplink) (frame : FrameMetadata) (payload : List UInt8) (sent : Bool) :
    Option Uplink :=
  if u.demux = .reading then
    if frame.status = statusKeep ∨ frame.status = statusNew then
      match u.worker.lookup frame.id with
      | some s => some { u with demux := .delivering s.ref frame payload }
      | none =>
        let reply := writeFrame none frame.id statusEnd 0 none none [] sent
        some { u with wire := u.wire ++ reply.toOption.toList }
    else if frame.status = statusEnd then
      match u.worker.lookup frame.id with
      | some s => some { u with demux := .delivering s.ref frame payload }
      | none => some u
    else if frame.status = statusKeepAlive then some u
    else none
  else none

/-- The end of a session that a frame reports. -/
def remoteEnding (frame : FrameMetadata) : Option Ending :=
  if frame.option &&& optionError ≠ 0 then
    some ⟨false, false, some (protocolError "remote session" (.text "remote reported an error"))⟩
  else if frame.status = statusEnd then some ⟨false, false, none⟩
  else none

/-- Who is to blame for a packet without an address: the frame, unless the session
itself was opened without one. -/
def packetOrigin (frame : FrameMetadata) (f : Flow) : Origin :=
  if frame.target = none ∧ f.target ≠ none then .unencodable else .malformedFrame

/-- `deliverFrame`. The queue of the session is not part of this model, and the
demultiplexer does not wait for the end it starts: that only adds executions. -/
def deliver (u : Uplink) (order : List Nat) : Option Uplink :=
  match u.demux with
  | .delivering ref frame payload =>
    (u.flows[ref]?).bind fun f =>
      match (if payload ≠ [] ∧ f.packet = true then
        (metadataPacketAddr (frame.target <|> f.target)).map fun _ => () else .ok ()) with
      | .error e =>
        { u with demux := .stopped }.enterClose ⟨packetOrigin frame f, e⟩ order
      | .ok _ =>
        match remoteEnding frame with
        | some ending =>
          if f.finish = .idle then
            some { u with
              demux := .reading
              flows := u.flows.set ref (f.beginFinish .remoteEnd ending) }
          else some { u with demux := .reading }
        | none => some { u with demux := .reading }
  | _ => none

/-- The loop of `worker.close`: finish the next session, or wait for its end. -/
def closeStep (u : Uplink) : Option Uplink :=
  match u.teardown with
  | .running [] _ => some { u with teardown := .done }
  | .running (ref :: rest) cause =>
    (u.flows[ref]?).bind fun f =>
      if f.finish = .idle then
        some { u with
          flows := u.flows.set ref (f.beginFinish .workerClose ⟨false, false, some cause⟩) }
      else if f.finish = .complete then some { u with teardown := .running rest cause }
      else none
  | _ => none

def next (u : Uplink) : Action → Option Uplink
  | .reserve limit packet => some (u.reserve limit packet)
  | .session ref action order => u.session ref action order
  | .receive frame payload sent => u.receive frame payload sent
  | .deliver order => u.deliver order
  | .closeWorker external order => u.enterClose external.failure order
  | .closeStep => u.closeStep

end Uplink

end XrayMux
