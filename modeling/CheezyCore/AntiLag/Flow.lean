import Mathlib.Algebra.Order.Ring.Unbundled.Rat
import CheezyCore.Foundation.Transition
import CheezyCore.Foundation.Strings

/-!
# A flow of an AntiLag socket

A flow has an active path that carries its datagrams and a reserve path that is ready to
take over. `change` replaces the active path, `warm` prepares a reserve, `fail` reacts to a
path that died and `close` ends the flow; `WriteTo` hands a datagram to the writer of the
active path and `WaitReadFrom` takes a packet from the reader of a path. They run at the
same time: `change` and the replacement of a reserve exclude each other by the switch
gate, and each step under the flow's lock is one step here.

A thread is the state of one such goroutine between two steps. What the environment
decides (the candidates and their order, the outcome of a dial, a context that ended, the
result of a transport) is part of the action. `handed` and `delivered` are history: the
calls of a path's `WriteTo` and the packets `WaitReadFrom` returned.
-/

namespace AntiLag

abbrev Name := List UInt8

/-- A path is named by its position in the list of dialled paths. -/
abbrev PathId := Nat

/-- A goroutine is named by its position in the list of threads. A datagram is named by the
thread of the `WriteTo` it was passed to. -/
abbrev ThreadId := Nat

abbrev Packet := List UInt8

/-- A member of the group. -/
structure Proxy where
  id : Nat
  name : Name
  deriving DecidableEq, Repr

structure Candidate where
  proxy : Proxy
  failed : Bool
  score : Rat
  deriving DecidableEq, Repr

/-- `antiPath`; `retired` says that `Close` was called. -/
structure Path where
  member : Proxy
  retired : Bool
  deriving DecidableEq, Repr

/-- What the transport's `WriteTo` returned: nothing wrong, an error that says that the
transport is gone, or another one. -/
inductive WriteResult where
  | sent
  | gone
  | failed
  deriving DecidableEq, Repr

/-- `antiFlow` with the context of its socket. -/
structure Flow where
  closed : Bool
  warming : Bool
  active : Option PathId
  reserve : Option PathId
  /-- The switch gate is taken. -/
  gate : Bool
  /-- `writeMu` is taken. -/
  writing : Bool
  /-- Closed once the initial change is over, with whether it succeeded. -/
  ready : Option Bool
  /-- The context of the socket is over. -/
  cancelled : Bool
  paths : List Path
  results : List (ThreadId × WriteResult)
  handed : List (ThreadId × PathId)
  delivered : List (ThreadId × Packet × PathId)

/-- Who called `change` and goes on when it returns. -/
inductive Caller where
  /-- `Failover` or the prober. -/
  | switch
  /-- `binding`, for a `WriteTo` or for the opening of the socket. -/
  | initial (write : Bool)
  /-- `WriteTo` without an active path. -/
  | reconnect
  /-- `fail`, called by `WriteTo` or by the reader of the path. -/
  | failure (path : PathId) (write : Bool)
  deriving DecidableEq, Repr

structure Call where
  name : Name
  expected : Option PathId
  caller : Caller
  deriving DecidableEq, Repr

/-- What `change` returns: an error, nothing to do, or a new active path in place of `old`. -/
inductive Changed where
  | failed
  | unchanged
  | switched (old : Option PathId)
  deriving DecidableEq, Repr

def Changed.ok : Changed → Bool
  | .failed => false
  | _ => true

inductive Thread where
  /-- `change`, before the switch gate. -/
  | enter (call : Call)
  | inspect (call : Call)
  | choose (call : Call) (old spare : Option PathId) (options : List Candidate)
  | install (call : Call) (old spare : Option PathId) (next : PathId)
  /-- `change`, about to close a path it dialled in vain. -/
  | discard (call : Call) (next : PathId)
  | closeOld (call : Call) (old stale : Option PathId) (next : PathId)
  | closeStale (call : Call) (old stale : Option PathId) (next : PathId)
  /-- `change`, about to give the gate back and return. -/
  | leave (call : Call) (result : Changed)
  | warmStart (active : PathId)
  | warmChoose (active : PathId) (old : Option PathId) (options rest : List Candidate)
  | warmEnter (active old new : PathId)
  | warmSwap (active : PathId) (old : Option PathId) (new : PathId)
  | warmLeave (entered : Bool) (drop : Option PathId)
  | warmClose (drop : Option PathId)
  | warmEnd
  | failStart (path : PathId) (write : Bool)
  | failClear (path : PathId) (write : Bool)
  | failClose (path : PathId) (write : Bool)
  | closeStart
  | closeRest (paths : List PathId)
  /-- `binding`, after the initial change. -/
  | bound (ok write : Bool)
  /-- `binding` of a flow that another one opened. -/
  | await
  | writeLock
  | writeCheck
  | writeLook
  | writePick
  | writeOffer (path : PathId)
  | writeWait (path : PathId)
  | writeReturn
  | loopIdle (path : PathId)
  | loopCall (path : PathId) (datagram : ThreadId)
  | loopReturn (path : PathId) (datagram : ThreadId)
  | receiveWait (path : PathId)
  | receiveOffer (path : PathId) (packet : Packet)
  | readWait
  | readCheck (path : PathId) (packet : Packet)
  | readReturn (path : PathId) (packet : Packet)
  | done

/-- What the environment decides about a step of a thread. -/
inductive Choice where
  | go
  /-- A context ended, a deadline passed, or reading failed. -/
  | stop
  /-- The candidates in the order in which they are tried. -/
  | options (options : List Candidate)
  /-- The dial succeeded; the context may be over by then. -/
  | dialled (expired : Bool)
  | refused (expired : Bool)
  | result (result : WriteResult)
  | packet (packet : Packet)

namespace Flow

def member (f : Flow) (p : PathId) : Option Proxy := f.paths[p]?.map Path.member

def name (f : Flow) (p : PathId) : Option Name := f.paths[p]?.map fun path => path.member.name

def isRetired (f : Flow) (p : PathId) : Bool := (f.paths[p]?.map Path.retired).getD false

/-- `antiPath.Close`. -/
def closePath (f : Flow) (p : PathId) : Flow :=
  { f with paths := f.paths.modify p fun path => { path with retired := true } }

def closeOption (f : Flow) : Option PathId → Flow
  | some p => f.closePath p
  | none => f

/-- `dial` succeeded. -/
def dial (f : Flow) (member : Proxy) : Flow := { f with paths := f.paths ++ [⟨member, false⟩] }

/-- The name of the path, if there is one, is the given one. -/
def named (f : Flow) (p : Option PathId) (name : Name) : Bool :=
  match p with
  | some p => f.name p == some name
  | none => false

/-- `change` tries the reserve first when it replaces a path that failed. -/
def prefer (f : Flow) (call : Call) (spare : Option PathId) (options : List Candidate) :
    List Candidate :=
  if call.name = [] ∧ call.expected.isSome then
    match options, options.findIdx? (fun c => f.named spare c.proxy.name) with
    | first :: _, some i =>
      match options[i]? with
      | some c => (options.set i first).set 0 c
      | none => options
    | _, _ => options
  else options

/-- The candidates that `change` does not try. -/
def skips (f : Flow) (call : Call) (old : Option PathId) (c : Candidate) : Bool :=
  (c.failed && call.expected.isSome) || (call.name != [] && c.proxy.name != call.name) ||
    f.named old c.proxy.name

/-- `warm` keeps the reserve it found: it is of the candidate, or not clearly worse. -/
def keeps (f : Flow) (old : Option PathId) (options : List Candidate) (c : Candidate) : Bool :=
  match old.bind f.member with
  | some m =>
    m == c.proxy || options.any fun previous =>
      previous.proxy == m && !previous.failed &&
        previous.score - c.score < max 10 (15 / 100 * max previous.score (-previous.score))
  | none => false

end Flow

/-- Where a thread goes on when its `fail` returns. -/
def Thread.failed (write : Bool) : Thread := if write then .writeReturn else .done

/-- Where a thread goes on when its `change` returns. -/
def Call.returns (call : Call) (result : Changed) : Thread :=
  match call.caller with
  | .switch => .done
  | .initial write => .bound result.ok write
  | .reconnect => if result.ok then .writePick else .writeReturn
  | .failure path write => if result.ok then Thread.failed write else .failClear path write

/-- What a step leaves: the flow, the thread and the threads it started. -/
abbrev Stepped := Option (Flow × Thread × List Thread)

namespace Thread

/-- The steps of `change`. -/
def changeStep (f : Flow) : Thread → Choice → Stepped
  | .enter call, .go => if f.gate then none else some ({ f with gate := true }, .inspect call, [])
  | .enter call, .stop => some (f, call.returns .failed, [])
  | .inspect call, .options options =>
    if f.closed || f.cancelled then some (f, .leave call .failed, [])
    else if (call.expected.isSome && f.active != call.expected) || f.named f.active call.name then
      some (f, .leave call .unchanged, [])
    else some (f, .choose call f.active f.reserve (f.prefer call f.reserve options), [])
  | .choose call _ _ [], .go => some (f, .leave call .failed, [])
  | .choose call old spare (c :: rest), choice =>
    if f.skips call old c then
      match choice with
      | .go => some (f, .choose call old spare rest, [])
      | _ => none
    else
      match spare with
      | some p =>
        if f.member p = some c.proxy then
          match choice with
          | .go => some (f, .install call old spare p, [])
          | .stop => some (f, .leave call .failed, [])
          | _ => none
        else dials call old spare c rest choice
      | none => dials call old spare c rest choice
  | .install call old spare next, .go =>
    if f.closed then
      some (f, if spare = some next then .leave call .failed else .discard call next, [])
    else
      some ({ f with active := some next, reserve := none },
        .closeOld call old f.reserve next, [])
  | .discard call next, .go => some (f.closePath next, .leave call .failed, [])
  | .closeOld call old stale next, .go =>
    some (f.closeOption old, .closeStale call old stale next, [])
  | .closeStale call old stale next, .go =>
    some (if stale = some next then f else f.closeOption stale, .leave call (.switched old),
      [.receiveWait next, .loopIdle next, .warmStart next])
  | .leave call result, .go => some ({ f with gate := false }, call.returns result, [])
  | _, _ => none
where
  dials (call : Call) (old spare : Option PathId) (c : Candidate) (rest : List Candidate) :
      Choice → Stepped
    | .dialled expired =>
      some (f.dial c.proxy, if expired then .discard call f.paths.length
        else .install call old spare f.paths.length, [])
    | .refused expired =>
      some (f, if expired then .leave call .failed else .choose call old spare rest, [])
    | _ => none

/-- The steps of `warm`. -/
def warmStep (f : Flow) : Thread → Choice → Stepped
  | .warmStart active, .options options =>
    if f.closed || f.warming || f.active != some active then some (f, .done, [])
    else some ({ f with warming := true }, .warmChoose active f.reserve options options, [])
  | .warmChoose _ _ _ [], .go => some (f, .warmEnd, [])
  | .warmChoose active old options (c :: rest), choice =>
    if c.failed || f.named (some active) c.proxy.name then
      match choice with
      | .go => some (f, .warmChoose active old options rest, [])
      | _ => none
    else if f.keeps old options c then
      match choice with
      | .go => some (f, .warmEnd, [])
      | _ => none
    else
      match choice with
      | .dialled _ =>
        some (f.dial c.proxy, match old with
          | some p => .warmEnter active p f.paths.length
          | none => .warmSwap active none f.paths.length, [])
      | .refused _ => some (f, .warmChoose active old options rest, [])
      | _ => none
  | .warmEnter active old new, .go =>
    if f.gate then some (f, .warmClose (some new), [])
    else some ({ f with gate := true }, .warmSwap active (some old) new, [])
  | .warmSwap active old new, .go =>
    if f.active = some active ∧ f.closed = false ∧ f.reserve = old then
      some ({ f with reserve := some new }, .warmLeave old.isSome old, [])
    else some (f, .warmLeave old.isSome (some new), [])
  | .warmLeave entered drop, .go =>
    some (if entered then { f with gate := false } else f, .warmClose drop, [])
  | .warmClose drop, .go => some (f.closeOption drop, .warmEnd, [])
  | .warmEnd, .go => some ({ f with warming := false }, .done, [])
  | _, _ => none

/-- The steps of `fail`, `close` and `binding`. -/
def endStep (f : Flow) : Thread → Choice → Stepped
  | .failStart path write, .go =>
    if f.cancelled || f.closed || f.active != some path then some (f, failed write, [])
    else some (f, .enter ⟨[], some path, .failure path write⟩, [])
  | .failClear path write, .go =>
    some (if f.active = some path then { f with active := none } else f,
      .failClose path write, [])
  | .failClose path write, .go => some (f.closePath path, failed write, [])
  | .closeStart, .go =>
    some ({ f with closed := true, active := none, reserve := none },
      .closeRest (f.active.toList ++ f.reserve.toList), [])
  | .closeRest [], .go => some (f, .done, [])
  | .closeRest (p :: rest), .go => some (f.closePath p, .closeRest rest, [])
  | .bound ok write, .go =>
    if ok && !f.cancelled then
      some ({ f with ready := some true }, if write then .writeLock else .done, [])
    else some ({ f with ready := some false }, .closeStart, [])
  | .await, .go =>
    match f.ready with
    | some ok => some (f, if ok then .writeLock else .done, [])
    | none => none
  | .await, .stop => some (f, .done, [])
  | _, _ => none

/-- The steps of `WriteTo` and of the writer of a path. -/
def writeStep (t : ThreadId) (f : Flow) : Thread → Choice → Stepped
  | .writeLock, .go =>
    if f.writing then none else some ({ f with writing := true }, .writeCheck, [])
  | .writeCheck, .go => some (f, .writeLook, [])
  | .writeCheck, .stop => some (f, .writeReturn, [])
  | .writeLook, .go =>
    some (f, if f.active = none then .enter ⟨[], none, .reconnect⟩ else .writePick, [])
  | .writePick, .go =>
    some (f, match f.active with
      | some p => if f.closed then .writeReturn else .writeOffer p
      | none => .writeReturn, [])
  | .writeOffer path, .go => if f.isRetired path then some (f, .writeReturn, []) else none
  | .writeOffer _, .stop => some (f, .writeReturn, [])
  | .writeWait path, .result result =>
    if (t, result) ∈ f.results then
      some (f, if result = .gone ∧ f.cancelled = false then .failStart path true
        else .writeReturn, [])
    else none
  | .writeWait path, .go => if f.isRetired path then some (f, .writeReturn, []) else none
  | .writeWait _, .stop => some (f, .writeReturn, [])
  | .writeReturn, .go => some ({ f with writing := false }, .done, [])
  | .loopIdle path, .go => if f.isRetired path then some (f, .done, []) else none
  | .loopCall path datagram, .go =>
    some ({ f with handed := f.handed ++ [(datagram, path)] }, .loopReturn path datagram, [])
  | .loopReturn path datagram, .result result =>
    some ({ f with results := f.results ++ [(datagram, result)] }, .loopIdle path, [])
  | _, _ => none

/-- The steps of the reader of a path and of `WaitReadFrom`. -/
def readStep (t : ThreadId) (f : Flow) : Thread → Choice → Stepped
  | .receiveWait path, .packet packet => some (f, .receiveOffer path packet, [])
  | .receiveWait path, .stop => some (f, .failStart path false, [])
  | .receiveOffer path _, .go =>
    if f.cancelled || f.isRetired path then some (f, .done, []) else none
  | .readWait, .stop => some (f, .done, [])
  | .readCheck path packet, .go =>
    some (f, if f.closed || f.active != some path then .readWait
      else .readReturn path packet, [])
  | .readReturn path packet, .go =>
    some ({ f with delivered := f.delivered ++ [(t, packet, path)] }, .done, [])
  | _, _ => none

/-- Each thread state belongs to one of the goroutines. -/
def step (t : ThreadId) (f : Flow) (thread : Thread) (choice : Choice) : Stepped :=
  match thread with
  | .enter .. | .inspect .. | .choose .. | .install .. | .discard .. | .closeOld ..
  | .closeStale .. | .leave .. => changeStep f thread choice
  | .warmStart .. | .warmChoose .. | .warmEnter .. | .warmSwap .. | .warmLeave ..
  | .warmClose .. | .warmEnd => warmStep f thread choice
  | .failStart .. | .failClear .. | .failClose .. | .closeStart | .closeRest .. | .bound ..
  | .await => endStep f thread choice
  | .writeLock | .writeCheck | .writeLook | .writePick | .writeOffer .. | .writeWait ..
  | .writeReturn | .loopIdle .. | .loopCall .. | .loopReturn .. => writeStep t f thread choice
  | .receiveWait .. | .receiveOffer .. | .readWait | .readCheck .. | .readReturn .. =>
    readStep t f thread choice
  | .done => none

end Thread

structure State where
  flow : Flow
  threads : List Thread

inductive Action where
  | step (t : ThreadId) (choice : Choice)
  /-- `p.writes <- w`: the thread of a `WriteTo` meets the writer of the path. -/
  | hand (t u : ThreadId)
  /-- `f.socket.incoming <- packet`: the reader of a path meets a `WaitReadFrom`. -/
  | pass (t u : ThreadId)
  /-- The context of the socket ends. -/
  | cancel
  /-- `Failover` to the named member, or to any if the name is empty. -/
  | switch (name : Name)
  /-- The prober replaces the active path. -/
  | probe (name : Name)
  /-- The prober has a reserve prepared for the active path. -/
  | warm
  /-- `close`, of an idle flow or by the socket. -/
  | close
  /-- `WriteTo` is called. -/
  | write
  /-- `WaitReadFrom` is called. -/
  | read

namespace State

/-- A flow that was just made, with its initial change ahead. -/
def start (write : Bool) : State where
  flow :=
    { closed := false, warming := false, active := none, reserve := none, gate := false,
      writing := false, ready := none, cancelled := false, paths := [], results := [],
      handed := [], delivered := [] }
  threads := [.enter ⟨[], none, .initial write⟩]

def spawn (s : State) (thread : Thread) : State := { s with threads := s.threads ++ [thread] }

def next (s : State) : Action → Option State
  | .step t choice =>
    match s.threads[t]? with
    | some thread =>
      match thread.step t s.flow choice with
      | some (flow, thread, spawned) =>
        some ⟨flow, s.threads.set t thread ++ spawned⟩
      | none => none
    | none => none
  | .hand t u =>
    match s.threads[t]?, s.threads[u]? with
    | some (.writeOffer p), some (.loopIdle q) =>
      if p = q then
        some { s with threads := (s.threads.set t (.writeWait p)).set u (.loopCall p t) }
      else none
    | _, _ => none
  | .pass t u =>
    match s.threads[t]?, s.threads[u]? with
    | some (.receiveOffer p x), some .readWait =>
      some { s with threads := (s.threads.set t (.receiveWait p)).set u (.readCheck p x) }
    | _, _ => none
  | .cancel => some { s with flow := { s.flow with cancelled := true } }
  | .switch name => some (s.spawn (.enter ⟨name, none, .switch⟩))
  | .probe name =>
    match s.flow.active with
    | some p => some (s.spawn (.enter ⟨name, some p, .switch⟩))
    | none => none
  | .warm =>
    match s.flow.active with
    | some p => some (s.spawn (.warmStart p))
    | none => none
  | .close => some (s.spawn .closeStart)
  | .write => some (s.spawn .await)
  | .read => some (s.spawn .readWait)

end State

/-! ### Runs -/

/-- A member of a group, neither failed nor ranked. -/
def member (id : Nat) : Candidate := ⟨⟨id, [id.toUInt8]⟩, false, 0⟩

/-- A thread whose `change` dials the member and makes it the active path, up to the step in
which it would close the path that it replaced. -/
def changes (t : ThreadId) (id : Nat) : List Action :=
  [.step t .go, .step t (.options [member id]), .step t (.dialled false), .step t .go]

/-- The initial change of a flow, from its beginning to its end. -/
def opened (id : Nat) : List Action :=
  changes 0 id ++ [Action.step 0 .go, .step 0 .go, .step 0 .go, .step 0 .go]

end AntiLag
