import CheezyCore.Foundation.Permits
import CheezyCore.XrayMux.Worker

/-!
# The pool of carriers

`Pool` hands out sessions on a changing set of carriers. A call of `dialSession`
loops over five attempts: grow the pool by a carrier, reserve on a carrier below
the soft limit, dial a carrier because all are soft-full, reserve up to the hard
limit, wait. Physical dials of one pool exclude each other by `dialMu`; soft-full
dials for one endpoint are shared through a `singleflight.Group`; all pools of the
process draw their permits from one registry. Of the group the documented behaviour
of `Do` is taken: one execution of the function is in flight for a key at a time, a
call that comes meanwhile waits for it and gets its results, and a later one starts
the function again.

A step of a call is one critical section of `p.mu`, `w.mu`, the registry or the
flight group, or one answer of the environment (the endpoint's key, the physical
dial, the New frame of `openSession`). A loop over the workers under `p.mu` reads
them at one instant. `turn` says what a call does next, `commit` applies it, and
`next` adds what happens around the calls: contexts end, sessions end, carriers
close, pools are closed, time passes.
-/

namespace XrayMux

def errMaxConnections : Err := .text "xray mux: max connections reached"
def errDialRateLimit : Err := .text "xray mux: dial rate limit"

/-- `errors.Is`. -/
def Err.is (err target : Err) : Bool :=
  err = target ||
    match err with
    | .protocol _ cause => cause.is target
    | .wrapped _ cause => cause.is target
    | _ => false

/-- The two errors on which `dialSession` goes on with its next attempt. -/
def Err.isLimit (err : Err) : Bool := err.is errMaxConnections || err.is errDialRateLimit

/-- The call whose ended context the error reports. -/
def Err.context : Err → Option Nat
  | .ctx call => some call
  | .protocol _ cause => cause.context
  | .wrapped _ cause => cause.context
  | _ => none

/-! ## Configuration -/

structure Options where
  concurrency : Int := 0
  xudpConcurrency : Int := 0
  maxConnections : Int := 0
  maxWorkerUses : Int := 0
  maxDialsPerMinute : Int := 0
  firstPayloadTimeout : Int := 0
  deriving DecidableEq, Repr

def defaultConcurrency : Int := 8
def hardConcurrencyMult : Int := 4

/-- Durations and times are in nanoseconds. -/
def minute : Int := 60000000000
def defaultFirstPayloadTimeout : Int := 100000000

/-- A result of 64-bit `int` arithmetic. -/
def wrapInt (n : Int) : Int := n.bmod (2 ^ 64)

/-- `concurrency * hardConcurrencyMult`, or `concurrency` where that overflows. -/
def hardLimit (concurrency : Int) : Int :=
  if wrapInt (concurrency * hardConcurrencyMult) < concurrency then concurrency
  else wrapInt (concurrency * hardConcurrencyMult)

def orDefault (value default : Int) : Int := if value ≤ 0 then default else value

/-- `Pool`. Its workers are numbers of carriers of the system. `dialMu` is the call
that holds the mutex, and `broadcasts` counts the calls of `p.free.Broadcast`. -/
structure Pool where
  concurrency : Int
  hardConcurrency : Int
  xudpConcurrency : Int
  hardXUDPConcurrency : Int
  maxConnections : Int
  maxWorkerUses : Int
  maxDialsPerMinute : Int
  firstPayloadTimeout : Int
  workers : List Nat := []
  closed : Bool := false
  dialMu : Option Nat := none
  dialTimes : List Int := []
  broadcasts : Nat := 0
  deriving DecidableEq, Repr

def newPool (opts : Options) : Pool where
  concurrency := orDefault opts.concurrency defaultConcurrency
  hardConcurrency := hardLimit (orDefault opts.concurrency defaultConcurrency)
  xudpConcurrency := orDefault opts.xudpConcurrency 16
  hardXUDPConcurrency := hardLimit (orDefault opts.xudpConcurrency 16)
  maxConnections := opts.maxConnections
  maxWorkerUses := poolMaxUses opts.maxWorkerUses
  maxDialsPerMinute := opts.maxDialsPerMinute
  firstPayloadTimeout :=
    if opts.firstPayloadTimeout = 0 then defaultFirstPayloadTimeout
    else if opts.firstPayloadTimeout < 0 then 0
    else opts.firstPayloadTimeout

namespace Pool

def soft (p : Pool) (packet : Bool) : Int := if packet then p.xudpConcurrency else p.concurrency

def hard (p : Pool) (packet : Bool) : Int :=
  if packet then p.hardXUDPConcurrency else p.hardConcurrency

/-- The time stamps that `dialAllowedLocked` keeps. -/
def recentDials (p : Pool) (now : Int) : List Int :=
  if p.maxDialsPerMinute ≤ 0 then p.dialTimes
  else p.dialTimes.filter fun dialTime => dialTime > now - minute

/-- The answer of `dialAllowedLocked`. -/
def dialAllowed (p : Pool) (now : Int) : Bool :=
  p.maxDialsPerMinute ≤ 0 || (p.recentDials now).length < p.maxDialsPerMinute

def recordDialLocked (p : Pool) (now : Int) : Pool :=
  if p.maxDialsPerMinute > 0 then { p with dialTimes := p.dialTimes ++ [now] } else p

def signalFree (p : Pool) : Pool := { p with broadcasts := p.broadcasts + 1 }

/-- The critical section of `Close`; its workers are closed afterwards. -/
def close (p : Pool) : Pool :=
  if p.closed then p else { p with closed := true, workers := [], broadcasts := p.broadcasts + 1 }

end Pool

/-- The default of both dial paths. A pool without `endpointKey` acts like one whose
`endpointKey` returns the empty string. -/
def endpointKey (key : String) : String := if key ≠ "" then key else "_"

/-! ## Calls -/

/-- The three callers of `dialSession`. -/
inductive Entry where
  | dialContext
  | dialUDPContext
  | listenPacketContext
  deriving DecidableEq, Repr

/-- The check of the metadata's network, with nil metadata as `none`. -/
def Entry.refusal : Entry → Option NetWork → Option Err
  | .dialContext, some .TCP => none
  | .dialContext, _ => some (.text "xray mux: only TCP targets are supported")
  | .dialUDPContext, some .UDP => none
  | .dialUDPContext, _ => some (.text "xray mux: DialUDPContext requires a UDP target")
  | .listenPacketContext, some .UDP => none
  | .listenPacketContext, _ => some (.text "xray mux: ListenPacketContext requires a UDP target")

def Entry.packet : Entry → Bool
  | .listenPacketContext => true
  | _ => false

/-- What a dial path returns. -/
inductive Dialed where
  | worker (w : Nat)
  | error (err : Err)
  deriving DecidableEq, Repr

/-- `dialWorkerNew`, or the function that `dialWorker` gives to `dialGroup.Do`. -/
inductive Path where
  | grow
  | flight (f : Nat)
  deriving DecidableEq, Repr

/-- The local variables of a dial path. -/
structure Dial where
  path : Path
  permitKey : String
  now : Int
  deriving DecidableEq, Repr

/-- The attempts of the loop that reserve a session. -/
inductive Attempt where
  | grow
  | packSoft
  | softFull
  | packHard
  deriving DecidableEq, Repr

/-- Where a call of `dialSession` is. -/
inductive Pc where
  | top
  | wantGrow
  | lock (path : Path)
  | check (path : Path)
  | dial (d : Dial)
  | undo (d : Dial) (err : Err)
  | rollBack (d : Dial) (err : Err)
  | install (d : Dial) (w : Nat)
  | discard (d : Dial) (w : Nat)
  | unlock (path : Path) (result : Dialed)
  | land (f : Nat) (result : Dialed)
  | dialGroup
  | joined (f : Nat)
  | tryReserve (attempt : Attempt)
  | reserve (attempt : Attempt) (w : Nat)
  | openSession (w : Nat) (id : UInt16)
  | waitForSlot
  | asleep (ticket : Nat)
  | opened (w : Nat) (id : UInt16)
  | failed (err : Err)
  deriving DecidableEq, Repr

/-- A call of `dialSession`; `done` says that its context ended. -/
structure Caller where
  pool : Nat
  entry : Entry
  done : Bool := false
  pc : Pc := .top
  deriving DecidableEq, Repr

/-- A carrier with what its `release` closure captured. `released` says that the
permit was given back. -/
structure PoolWorker where
  worker : Worker
  pool : Nat
  permitKey : String
  released : Bool := false
  deriving DecidableEq, Repr

/-- A call of the flight group, with the calls that share its result. It is in the
group's map until it has one. -/
structure Flight where
  pool : Nat
  key : String
  leader : Nat
  joiners : List Nat := []
  result : Option Dialed := none
  deriving DecidableEq, Repr

/-- All pools of the process. `dialErrors` keeps the failed physical dials, each with
the call that made it. -/
structure System where
  counts : String → Option Nat := fun _ => none
  pools : List Pool
  workers : List PoolWorker := []
  callers : List Caller := []
  flights : List Flight := []
  dialErrors : List (Nat × Err) := []
  now : Int := 0

/-- What the environment answers in one step. -/
structure Answer where
  key : String := ""
  dial : Option Err := none
  newFrame : Option Err := none
  deriving DecidableEq, Repr

/-- What a step of a call changes outside its own pool. -/
inductive Effect where
  | none
  | permits (counts : String → Option Nat)
  | newWorker (permitKey : String)
  | worker (w : Nat) (worker : Worker)
  | dialError (err : Err)
  | fly (key : String)
  | join (f : Nat)
  | land (f : Nat) (result : Dialed)

structure Turn where
  pool : Pool
  pc : Pc
  effect : Effect := .none

namespace System

/-! ## The critical sections of `p.mu` -/

def isClosed (s : System) (w : Nat) : Bool :=
  match s.workers[w]? with
  | some m => m.worker.closed
  | none => true

def hasCapacity (s : System) (limit : Int) (packet : Bool) (w : Nat) : Bool :=
  match s.workers[w]? with
  | some m => m.worker.hasCapacity limit packet
  | none => false

def pruneLocked (s : System) (pool : Pool) : Pool :=
  { pool with workers := pool.workers.filter fun w => !s.isClosed w }

/-- One round of the loop of `tryReserve`: the best worker so far, with its load. -/
def lessLoaded (s : System) (limit : Int) (packet : Bool) (best : Option (Nat × Int)) (w : Nat) :
    Option (Nat × Int) :=
  match s.workers[w]? with
  | some m =>
    if m.worker.hasCapacity limit packet = true ∧
        best.all (fun b => m.worker.activeSessionsLocked packet < b.2) = true then
      some (w, m.worker.activeSessionsLocked packet)
    else best
  | none => best

/-- The worker that `tryReserve` picks. -/
def leastLoaded (s : System) (limit : Int) (packet : Bool) (workers : List Nat) : Option Nat :=
  (workers.foldl (s.lessLoaded limit packet) none).map Prod.fst

/-- From the dial budget to the unlock before the physical dial, the same code in both
paths. The budget's window is trimmed even when the dial is refused. -/
def beginDial (s : System) (pool : Pool) (path : Path) (key : String) : Turn :=
  if pool.dialAllowed s.now = false then
    { pool := { pool with dialTimes := pool.recentDials s.now }
      pc := .unlock path (.error errDialRateLimit) }
  else if pool.maxConnections > 0 then
    match Permits.acquire s.counts key pool.maxConnections with
    | none =>
      { pool := { pool with dialTimes := pool.recentDials s.now }
        pc := .unlock path (.error errMaxConnections) }
    | some counts =>
      { pool := { pool with dialTimes := pool.recentDials s.now }.recordDialLocked s.now
        pc := .dial ⟨path, key, s.now⟩
        effect := .permits counts }
  else
    { pool := { pool with dialTimes := pool.recentDials s.now }.recordDialLocked s.now
      pc := .dial ⟨path, "", s.now⟩ }

/-- `dialWorkerNew` up to the physical dial. `p.mu` is held from the reading of the clock to
the unlock, with the call for the endpoint's key in between: this is one step, and the time
that the call takes passes before the step that dials. -/
def dialWorkerNew (s : System) (pool : Pool) (key : String) : Turn :=
  if pool.closed then { pool, pc := .unlock .grow (.error .netClosed) }
  else if pool.maxConnections > 0 ∧ (s.pruneLocked pool).workers.length ≥ pool.maxConnections then
    { pool := s.pruneLocked pool, pc := .unlock .grow (.error errMaxConnections) }
  else s.beginDial (s.pruneLocked pool) .grow (endpointKey key)

/-- The function in `dialWorker` up to the physical dial. -/
def dialWorker (s : System) (pool : Pool) (f : Nat) (key : String) (packet : Bool) : Turn :=
  if pool.closed then { pool, pc := .unlock (.flight f) (.error .netClosed) }
  else
    match (s.pruneLocked pool).workers.find? fun w =>
        !s.isClosed w && s.hasCapacity (pool.soft packet) packet w with
    | some w => { pool := s.pruneLocked pool, pc := .unlock (.flight f) (.worker w) }
    | none => s.beginDial (s.pruneLocked pool) (.flight f) key

/-- One round of the loop of `waitForSlot`, for the call `c`. -/
def waitForSlot (s : System) (c : Nat) (caller : Caller) (pool : Pool) : Turn :=
  if pool.closed then { pool, pc := .failed .netClosed }
  else if (s.pruneLocked pool).workers.any
      (s.hasCapacity (pool.hard caller.entry.packet) caller.entry.packet) then
    { pool := s.pruneLocked pool, pc := .top }
  else if caller.done then
    { pool := s.pruneLocked pool, pc := .failed (.wrapped "waiting for xray mux slot" (.ctx c)) }
  else { pool := s.pruneLocked pool, pc := .asleep pool.broadcasts }

/-! ## The loop of `dialSession` -/

/-- An attempt that found no slot on its worker. -/
def missed : Attempt → Pc
  | .grow => .tryReserve .packSoft
  | .packSoft => .dialGroup
  | .softFull => .top
  | .packHard => .waitForSlot

def limitOf (pool : Pool) (packet : Bool) : Attempt → Int
  | .packHard => pool.hard packet
  | _ => pool.soft packet

/-- After `dialWorkerNew`. -/
def afterGrow : Dialed → Pc
  | .worker w => .reserve .grow w
  | .error err => if err.isLimit then .tryReserve .packSoft else .failed err

/-- After `dialWorker`. -/
def afterSoftFull : Dialed → Pc
  | .worker w => .reserve .softFull w
  | .error err => if err.isLimit then .tryReserve .packHard else .failed err

/-- The flight in the group's map under a key. -/
def flying (s : System) (pool : Nat) (key : String) : Option Nat :=
  s.flights.findIdx? fun fl => fl.pool = pool ∧ fl.key = key ∧ fl.result = none

/-- The error a physical dial may return: of its own making, or the end of the
context it was given. It knows nothing of the pool's limits. -/
def dialable (c : Nat) (caller : Caller) (err : Err) : Bool :=
  !err.isLimit && (err.context = none || (err.context = some c && caller.done))

/-- `openSession` writes the New frame itself, which can fail; otherwise it only arms
the first-payload timer, or leaves the frame to the first packet. -/
def immediate (caller : Caller) (pool : Pool) : Bool :=
  caller.entry = .dialContext && pool.firstPayloadTimeout ≤ 0

/-- The next step of the call `c`, a `caller` of `pool`. A call that waits for a mutex,
a flight, a wake-up or the end of `w.close` has none. -/
def turn (s : System) (c : Nat) (caller : Caller) (pool : Pool) (answer : Answer) : Option Turn :=
  match caller.pc with
  | .top => some { pool, pc := if caller.done then .failed (.ctx c) else .wantGrow }
  | .wantGrow =>
    if pool.maxConnections ≤ 0 ∨ pool.closed = true then
      some { pool, pc := .tryReserve .packSoft }
    else if (s.pruneLocked pool).workers.length < pool.maxConnections then
      some { pool := s.pruneLocked pool, pc := .lock .grow }
    else some { pool := s.pruneLocked pool, pc := .tryReserve .packSoft }
  | .lock path =>
    if pool.dialMu = none then some { pool := { pool with dialMu := some c }, pc := .check path }
    else none
  | .check .grow => some (s.dialWorkerNew pool answer.key)
  | .check (.flight f) =>
    (s.flights[f]?).map fun fl => s.dialWorker pool f fl.key caller.entry.packet
  | .dial d =>
    match answer.dial with
    | none =>
      some { pool, pc := .install d s.workers.length, effect := .newWorker d.permitKey }
    | some err =>
      if dialable c caller err then some { pool, pc := .undo d err, effect := .dialError err }
      else none
  | .undo d err =>
    if d.permitKey ≠ "" then
      some { pool, pc := .rollBack d err,
             effect := .permits (Permits.release s.counts d.permitKey) }
    else some { pool, pc := .rollBack d err }
  | .rollBack d err =>
    some { pool := { pool with dialTimes := pool.dialTimes.dropLast }
           pc := .unlock d.path (.error err) }
  | .install d w =>
    if pool.closed then some { pool, pc := .discard d w }
    else some { pool := { pool with workers := pool.workers ++ [w] }
                pc := .unlock d.path (.worker w) }
  | .discard d w =>
    match s.workers[w]? with
    | none => none
    | some m =>
      match m.worker.closeOnce with
      | .idle => some { pool, pc := .discard d w, effect := .worker w m.worker.shutdown }
      | .running => none
      | .done => some { pool, pc := .unlock d.path (.error .netClosed) }
  | .unlock .grow result => some { pool := { pool with dialMu := none }, pc := afterGrow result }
  | .unlock (.flight f) result =>
    some { pool := { pool with dialMu := none }, pc := .land f result }
  | .land f result => some { pool, pc := afterSoftFull result, effect := .land f result }
  | .dialGroup =>
    match s.flying caller.pool (endpointKey answer.key) with
    | some f => some { pool, pc := .joined f, effect := .join f }
    | none =>
      some { pool, pc := .lock (.flight s.flights.length)
             effect := .fly (endpointKey answer.key) }
  | .joined f =>
    match s.flights[f]? with
    | some fl => fl.result.map fun result => { pool, pc := afterSoftFull result }
    | none => none
  | .tryReserve attempt =>
    if pool.closed then some { pool, pc := missed attempt }
    else
      match s.leastLoaded (limitOf pool caller.entry.packet attempt) caller.entry.packet
          (s.pruneLocked pool).workers with
      | some w => some { pool := s.pruneLocked pool, pc := .reserve attempt w }
      | none => some { pool := s.pruneLocked pool, pc := missed attempt }
  | .reserve attempt w =>
    match s.workers[w]? with
    | none => none
    | some m =>
      match m.worker.reserve (limitOf pool caller.entry.packet attempt) caller.entry.packet with
      | some (ref, worker) => some { pool, pc := .openSession w ref.id, effect := .worker w worker }
      | none => some { pool, pc := missed attempt }
  | .openSession w id =>
    if immediate caller pool then
      match answer.newFrame, s.workers[w]? with
      | some err, some m =>
        some { pool, pc := .failed err, effect := .worker w (m.worker.abandonSession id) }
      | _, _ => some { pool, pc := .opened w id }
    else some { pool, pc := .opened w id }
  | .waitForSlot => some (s.waitForSlot c caller pool)
  | .asleep ticket =>
    if ticket < pool.broadcasts then some (s.waitForSlot c caller pool) else none
  | .opened _ _ => none
  | .failed _ => none

def commit (s : System) (c : Nat) (caller : Caller) (t : Turn) : System :=
  let s := { s with
    callers := s.callers.set c { caller with pc := t.pc }
    pools := s.pools.set caller.pool t.pool }
  match t.effect with
  | .none => s
  | .permits counts => { s with counts }
  | .newWorker permitKey =>
    { s with workers := s.workers ++
        [{ worker := newWorker t.pool.maxWorkerUses, pool := caller.pool, permitKey }] }
  | .worker w worker => { s with workers := s.workers.modify w fun m => { m with worker } }
  | .dialError err => { s with dialErrors := s.dialErrors ++ [(c, err)] }
  | .fly key => { s with flights := s.flights ++ [{ pool := caller.pool, key, leader := c }] }
  | .join f =>
    { s with flights := s.flights.modify f fun fl => { fl with joiners := fl.joiners ++ [c] } }
  | .land f result => { s with flights := s.flights.modify f fun fl => { fl with result } }

/-! ## Around the calls -/

/-- The actions of the system. `w.close` is three of them: its first critical section,
the permit given back, and the wake-up that ends it. `signalFree` stands for the
callbacks of ending sessions and contexts, which call it on their own. -/
inductive Action where
  | call (p : Nat) (entry : Entry) (metadata : Option NetWork)
  | advance (c : Nat) (answer : Answer)
  | cancel (c : Nat)
  | removeSession (w : Nat) (id : UInt16)
  | closeWorker (w : Nat)
  | release (w : Nat)
  | finishClose (w : Nat)
  | signalFree (p : Nat)
  | closePool (p : Nat)
  | tick (elapsed : Nat)
  deriving DecidableEq, Repr

def advance (s : System) (c : Nat) (answer : Answer) : Option System :=
  match s.callers[c]? with
  | none => none
  | some caller =>
    match s.pools[caller.pool]? with
    | none => none
    | some pool => (s.turn c caller pool answer).map (s.commit c caller)

/-- The critical section of `w.removeSession`. The call of `w.onFree` after it is kept by
`Signalled`. -/
def removeSession (s : System) (w : Nat) (id : UInt16) : Option System :=
  (s.workers[w]?).map fun m =>
    { s with workers := s.workers.set w { m with worker := (m.worker.removeSession id).1 } }

def closeWorker (s : System) (w : Nat) : Option System :=
  match s.workers[w]? with
  | none => none
  | some m =>
    if m.worker.closeOnce = .idle then
      some { s with workers := s.workers.set w { m with worker := m.worker.shutdown } }
    else none

/-- The first half of the `release` closure. -/
def release (s : System) (w : Nat) : Option System :=
  match s.workers[w]? with
  | none => none
  | some m =>
    if m.worker.closeOnce = .running ∧ m.released = false then
      some { s with
        counts := if m.permitKey ≠ "" then Permits.release s.counts m.permitKey else s.counts
        workers := s.workers.set w { m with released := true } }
    else none

def signalFree (s : System) (p : Nat) : Option System :=
  (s.pools[p]?).map fun pool => { s with pools := s.pools.set p pool.signalFree }

def closePool (s : System) (p : Nat) : Option System :=
  (s.pools[p]?).map fun pool => { s with pools := s.pools.set p pool.close }

/-- The second half of the `release` closure, with which `closeOnce` is done. -/
def finishClose (s : System) (w : Nat) : Option System :=
  match s.workers[w]? with
  | none => none
  | some m =>
    if m.worker.closeOnce = .running ∧ m.released = true then
      { s with
        workers := s.workers.set w { m with worker := { m.worker with closeOnce := .done } }
      }.signalFree m.pool
    else none

def cancel (s : System) (c : Nat) : Option System :=
  (s.callers[c]?).map fun caller =>
    { s with callers := s.callers.set c { caller with done := true } }

def next (s : System) : Action → Option System
  | .call p entry metadata =>
    if p < s.pools.length then
      match entry.refusal metadata with
      | some _ => some s
      | none => some { s with callers := s.callers ++ [{ pool := p, entry }] }
    else none
  | .advance c answer => s.advance c answer
  | .cancel c => s.cancel c
  | .removeSession w id => s.removeSession w id
  | .closeWorker w => s.closeWorker w
  | .release w => s.release w
  | .finishClose w => s.finishClose w
  | .signalFree p => s.signalFree p
  | .closePool p => s.closePool p
  | .tick elapsed => some { s with now := s.now + elapsed }

/-- The process with its pools, before the first call. -/
def start (options : List Options) : System := { pools := options.map newPool }

end System

end XrayMux
