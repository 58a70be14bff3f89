import CheezyCore.Foundation.BigEndian
import CheezyCore.Foundation.Table
import CheezyCore.Foundation.Transition

/-!
# Sending frames of a Sudoku mux session

Any number of calls of `sendFrame` run at the same time. A small frame is appended to the
pending batch, under `pendMu`; whoever holds `writeMu` takes the batch and writes it. A caller
that cannot get `writeMu` with `TryLock` leaves its frame to the one who has it, and every
writer looks at the batch again after it has given `writeMu` back. A large frame waits for
`writeMu`, sends its header behind the batch, and its payload with a write of its own.

An action starts a call or takes one of its steps: a critical section under `pendMu`, an
operation on `writeMu`, or a write to the connection. The session is open and writes to the
connection succeed.
-/

namespace Sudoku.Mux

abbrev Bytes := List UInt8

def maxFrameSize : Nat := 256 * 1024
def coalesceMaxPayload : Nat := 4 * 1024
def coalesceMaxPending : Nat := 64 * 1024

structure Frame where
  frameType : UInt8
  streamID : UInt32
  payload : Bytes
  deriving DecidableEq, Repr

namespace Frame

/-- `putHeader`. -/
def header (f : Frame) : Bytes :=
  f.frameType :: (BigEndian.putUint32 f.streamID ++
    BigEndian.putUint32 (UInt32.ofNat f.payload.length))

def wire (f : Frame) : Bytes := f.header ++ f.payload

theorem wire_ne_nil (f : Frame) : f.wire ≠ [] := List.cons_ne_nil _ _

end Frame

/-- Where a call of `sendFrame` is. -/
inductive Pc where
  | start
  /-- The top of the loop of `flushPending`. -/
  | flush (wait : Bool)
  /-- `writeMu` is held; `writeBatch(nil)` comes next. -/
  | taking
  /-- The batch is taken, or there was none. -/
  | writing (batch : Option Bytes)
  | unlocking
  | recheck
  /-- `sendDirect`, before `writeMu.Lock`. -/
  | direct
  | directTaking
  /-- The batch is taken; it is written together with the header. -/
  | directHeader (batch : Option Bytes)
  | directPayload
  | directUnlocking
  /-- `ok` is false for a payload that is too large. -/
  | returned (ok : Bool)
  deriving DecidableEq, Repr

/-- What the calls share. -/
structure Shared where
  pending : Option Bytes := none
  /-- The call that holds `writeMu`. -/
  writeMu : Option Nat := none
  /-- The writes to the connection. -/
  written : List Bytes := []
  deriving DecidableEq, Repr

def Shared.wire (sh : Shared) : Bytes := sh.written.flatten

structure Call where
  /-- The goroutine that makes the call. -/
  caller : Nat
  frame : Frame
  pc : Pc := .start
  deriving DecidableEq, Repr

/-- The calls are numbered in the order in which they start. -/
structure Session where
  shared : Shared := {}
  calls : List Call := []
  deriving DecidableEq, Repr

/-- A call waits in `writeMu.Lock`. -/
def Pc.waits : Pc → Bool
  | flush wait => wait
  | direct => true
  | _ => false

/-- `sendQueued` up to the call of `flushPending`. -/
def Shared.enqueue (sh : Shared) (f : Frame) : Pc × Shared :=
  let pending := sh.pending.getD [] ++ f.wire
  (.flush (coalesceMaxPending ≤ pending.length), { sh with pending := some pending })

/-- The next step of call `i`, which sends `f`. `TryLock` fails while `writeMu` is held; it may
also fail (`fails`) while another call is about to get it from `Lock` (`waiting`). -/
def advance (sh : Shared) (waiting : Bool) (i : Nat) (f : Frame) (fails : Bool) :
    Pc → Option (Pc × Shared)
  | .start =>
    if f.payload.length > maxFrameSize then some (.returned false, sh)
    else if f.payload.length ≤ coalesceMaxPayload then some (sh.enqueue f)
    else some (.direct, sh)
  | .flush wait =>
    if fails then
      if wait = false ∧ (sh.writeMu ≠ none ∨ waiting = true) then some (.returned true, sh)
      else none
    else if sh.writeMu = none then some (.taking, { sh with writeMu := some i })
    else none
  | .taking => some (.writing sh.pending, { sh with pending := none })
  | .writing batch => some (.unlocking, { sh with written := sh.written ++ batch.toList })
  | .unlocking => some (.recheck, { sh with writeMu := none })
  | .recheck => some (if sh.pending = none then .returned true else .flush false, sh)
  | .direct =>
    if sh.writeMu = none then some (.directTaking, { sh with writeMu := some i }) else none
  | .directTaking => some (.directHeader sh.pending, { sh with pending := none })
  | .directHeader batch =>
    some (.directPayload, { sh with written := sh.written ++ [batch.getD [] ++ f.header] })
  | .directPayload => some (.directUnlocking, { sh with written := sh.written ++ [f.payload] })
  | .directUnlocking => some (.flush false, { sh with writeMu := none })
  | .returned _ => none

/-- The steps of a call, one by one. -/
inductive Advances (sh : Shared) (waiting : Bool) (i : Nat) (f : Frame) :
    Pc → Pc → Shared → Prop where
  | reject (large : maxFrameSize < f.payload.length) :
      Advances sh waiting i f .start (.returned false) sh
  | enqueue (small : f.payload.length ≤ coalesceMaxPayload) :
      Advances sh waiting i f .start (sh.enqueue f).1 (sh.enqueue f).2
  | goDirect (large : coalesceMaxPayload < f.payload.length) :
      Advances sh waiting i f .start .direct sh
  | giveUp (busy : sh.writeMu ≠ none ∨ waiting = true) :
      Advances sh waiting i f (.flush false) (.returned true) sh
  | lock (wait : Bool) (free : sh.writeMu = none) :
      Advances sh waiting i f (.flush wait) .taking { sh with writeMu := some i }
  | take : Advances sh waiting i f .taking (.writing sh.pending) { sh with pending := none }
  | write (batch : Option Bytes) : Advances sh waiting i f (.writing batch) .unlocking
      { sh with written := sh.written ++ batch.toList }
  | unlock : Advances sh waiting i f .unlocking .recheck { sh with writeMu := none }
  | finish (empty : sh.pending = none) : Advances sh waiting i f .recheck (.returned true) sh
  | again (more : sh.pending ≠ none) : Advances sh waiting i f .recheck (.flush false) sh
  | lockDirect (free : sh.writeMu = none) :
      Advances sh waiting i f .direct .directTaking { sh with writeMu := some i }
  | takeDirect :
      Advances sh waiting i f .directTaking (.directHeader sh.pending) { sh with pending := none }
  | writeHeader (batch : Option Bytes) : Advances sh waiting i f (.directHeader batch)
      .directPayload { sh with written := sh.written ++ [batch.getD [] ++ f.header] }
  | writePayload : Advances sh waiting i f .directPayload .directUnlocking
      { sh with written := sh.written ++ [f.payload] }
  | unlockDirect :
      Advances sh waiting i f .directUnlocking (.flush false) { sh with writeMu := none }

theorem advances_of_advance {sh sh' : Shared} {waiting fails : Bool} {i : Nat} {f : Frame}
    {pc pc' : Pc} (h : advance sh waiting i f fails pc = some (pc', sh')) :
    Advances sh waiting i f pc pc' sh' := by
  cases pc with
  | start =>
    rw [advance] at h
    split at h
    · next hlarge => cases h; exact .reject hlarge
    · split at h
      · next hsmall => cases h; exact .enqueue hsmall
      · next hlarge => cases h; exact .goDirect (Nat.not_le.mp hlarge)
  | flush wait =>
    rw [advance] at h
    split at h
    · obtain ⟨⟨rfl, hbusy⟩, ⟨⟩⟩ := Transition.of_guard h
      exact .giveUp hbusy
    · obtain ⟨hfree, ⟨⟩⟩ := Transition.of_guard h
      exact .lock wait hfree
  | recheck =>
    rw [advance] at h
    split at h
    · next hnone => cases h; exact .finish hnone
    · next hsome => cases h; exact .again hsome
  | direct =>
    obtain ⟨hfree, ⟨⟩⟩ := Transition.of_guard h
    exact .lockDirect hfree
  | taking => cases h; exact .take
  | writing batch => cases h; exact .write batch
  | unlocking => cases h; exact .unlock
  | directTaking => cases h; exact .takeDirect
  | directHeader batch => cases h; exact .writeHeader batch
  | directPayload => cases h; exact .writePayload
  | directUnlocking => cases h; exact .unlockDirect
  | returned ok => cases h

inductive Action where
  /-- A goroutine calls `sendFrame`; its earlier calls have returned. -/
  | call (caller : Nat) (frame : Frame)
  | step (i : Nat) (fails : Bool)
  deriving DecidableEq, Repr

def Pc.isReturned : Pc → Bool
  | returned _ => true
  | _ => false

def Session.next (s : Session) : Action → Option Session
  | .call caller frame =>
    if s.calls.all fun c => c.caller != caller || c.pc.isReturned then
      some { s with calls := s.calls ++ [{ caller, frame }] }
    else none
  | .step i fails =>
    s.calls[i]?.bind fun c =>
      (advance s.shared (s.calls.any (·.pc.waits)) i c.frame fails c.pc).map fun (pc, shared) =>
        { shared, calls := s.calls.set i { c with pc } }

def newSession : Session := {}

/-- No call is in progress. -/
def Session.Quiet (s : Session) : Prop := ∀ c ∈ s.calls, c.pc.isReturned = true

instance (s : Session) : Decidable s.Quiet := List.decidableBAll _ _

/-- What one step of the system does. -/
theorem Session.next_cases {s t : Session} {a : Action} (h : s.next a = some t) :
    (∃ caller frame, (∀ c ∈ s.calls, c.caller = caller → c.pc.isReturned = true) ∧
      t = { s with calls := s.calls ++ [{ caller, frame }] }) ∨
    ∃ i c pc shared, s.calls[i]? = some c ∧
      Advances s.shared (s.calls.any (·.pc.waits)) i c.frame c.pc pc shared ∧
      t = { shared, calls := s.calls.set i { c with pc } } := by
  cases a with
  | call caller frame =>
    obtain ⟨hidle, rfl⟩ := Transition.of_guard h
    refine .inl ⟨caller, frame, fun c hc hcaller => ?_, rfl⟩
    have hc := List.all_eq_true.mp hidle c hc
    simpa [hcaller] using hc
  | step i fails =>
    obtain ⟨c, hc, hstep⟩ := Option.bind_eq_some_iff.mp h
    obtain ⟨⟨pc, shared⟩, hadvance, rfl⟩ := Option.map_eq_some_iff.mp hstep
    exact .inr ⟨i, c, pc, shared, hc, advances_of_advance hadvance, rfl⟩

end Sudoku.Mux
