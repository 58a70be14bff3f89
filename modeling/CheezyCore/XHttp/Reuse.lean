import Mathlib.Algebra.Order.Ring.Int
import Mathlib.Data.List.Basic

/-!
# Reuse of XHTTP transports

A `ReuseManager` hands out transports. Several users may have one at the same time, and a
transport that is given back may be handed out again, within the limits drawn when it was made.
`GetTransport` runs under the lock of the manager: it drops the entries that are used up, picks
the one with the fewest users or makes a new one, and counts the new user. `release` runs
without the lock and shuts the transport down when its last user leaves and a limit is reached.

An action is one atomic operation of one goroutine: a load, a store, an addition, a
compare-and-swap, a reading of the clock, or the acquisition of the lock. The clock counts
nanoseconds. An `int32` counter is the number it stands for.
-/

namespace XHttp

structure Range where
  min : Int
  max : Int
  deriving DecidableEq, Repr

/-- The numbers `Rand` may return. -/
def Range.Draws (r : Range) (n : Int) : Prop := r.min ≤ n ∧ n ≤ r.max

instance (r : Range) (n : Int) : Decidable (r.Draws n) := inferInstanceAs (Decidable (_ ∧ _))

/-- Conversion to a signed integer of `w` bits. -/
def wrap (w : Nat) (n : Int) : Int := (n + 2 ^ (w - 1)) % 2 ^ w - 2 ^ (w - 1)

theorem wrap_of_bounds {w : Nat} {n : Int} (hw : 0 < w) (hlow : -2 ^ (w - 1) ≤ n)
    (hhigh : n < 2 ^ (w - 1)) : wrap w n = n := by
  obtain ⟨k, rfl⟩ := Nat.exists_eq_succ_of_ne_zero (Nat.ne_of_gt hw)
  rw [Nat.succ_sub_one] at hlow hhigh
  rw [wrap, Nat.succ_sub_one, Int.emod_eq_of_lt]
  · omega
  · omega
  · omega

theorem wrap_lt (n : Int) : wrap 32 n < 2 ^ 31 := by
  rw [wrap]
  omega

/-- Who shut a transport down. -/
inductive Closer where
  | manager
  | other
  deriving DecidableEq, Repr

/-- `reuseEntry`. `limit` is the number of requests it was made for. -/
structure Entry where
  openUsage : Int := 0
  leftRequests : Int
  reuseCount : Int := 0
  maxReuseTimes : Int := 0
  unreusableAt : Option Int := none
  shut : Option Closer := none
  limit : Int
  deriving DecidableEq, Repr

namespace Entry

def close (e : Entry) (closer : Closer) : Entry :=
  { e with shut := e.shut.orElse fun _ => some closer }

/-- `now.After(entry.unreusableAt)`. -/
def Expired (e : Entry) (now : Int) : Prop := ∃ d, e.unreusableAt = some d ∧ d < now

instance (e : Entry) (now : Int) : Decidable (e.Expired now) :=
  match h : e.unreusableAt with
  | none => isFalse (by rintro ⟨d, hd, -⟩; rw [h] at hd; cases hd)
  | some d => decidable_of_iff (d < now)
      ⟨fun hlt => ⟨d, h, hlt⟩, fun ⟨d', hd', hlt⟩ => by rw [h] at hd'; cases hd'; exact hlt⟩

/-- The reuse limit is reached. -/
def ReusedUp (e : Entry) : Prop := 0 < e.maxReuseTimes ∧ e.maxReuseTimes ≤ e.reuseCount

instance (e : Entry) : Decidable e.ReusedUp := inferInstanceAs (Decidable (_ ∧ _))

end Entry

structure Config where
  maxConcurrency : Int
  maxConnections : Int
  cMaxReuseTimes : Range
  hMaxRequestTimes : Range
  hMaxReusableSecs : Range
  deriving DecidableEq, Repr

/-- The random numbers of a new entry. -/
structure Draw where
  requests : Int := 0
  seconds : Int := 0
  reuses : Int := 0
  deriving DecidableEq, Repr

def Config.Allows (cfg : Config) (d : Draw) : Prop :=
  (0 < cfg.hMaxRequestTimes.max → cfg.hMaxRequestTimes.Draws d.requests) ∧
    (0 < cfg.hMaxReusableSecs.max → cfg.hMaxReusableSecs.Draws d.seconds) ∧
      (0 < cfg.cMaxReuseTimes.max → cfg.cMaxReuseTimes.Draws d.reuses)

instance (cfg : Config) (d : Draw) : Decidable (cfg.Allows d) :=
  inferInstanceAs (Decidable (_ ∧ _ ∧ _))

/-- The time an entry is reusable for. -/
def lifetime (d : Draw) : Int := wrap 64 (d.seconds * 1000000000)

/-- `newEntryLocked`. -/
def newEntry (cfg : Config) (now : Int) (d : Draw) : Entry :=
  let requests := if 0 < cfg.hMaxRequestTimes.max then wrap 32 d.requests else 2 ^ 30 - 1
  { leftRequests := requests
    limit := requests
    unreusableAt := if 0 < cfg.hMaxReusableSecs.max then some (now + lifetime d) else none
    maxReuseTimes := if 0 < cfg.cMaxReuseTimes.max then wrap 32 d.reuses else 0 }

/-! ## Under the lock -/

/-- Where `cleanupLocked` is with an entry. -/
inductive Check where
  | closed
  | requests
  | usage
  | expiry
  | expiredUsage
  | shut
  deriving DecidableEq, Repr

inductive CheckResult where
  | goto (check : Check)
  | keep
  | drop
  | close
  deriving DecidableEq, Repr

def Check.run (now : Int) (e : Entry) : Check → CheckResult
  | closed => if e.shut.isSome then .drop else .goto requests
  | requests => if e.leftRequests ≤ 0 then .goto usage else .goto expiry
  | usage => if e.openUsage = 0 then .goto shut else .goto expiry
  | expiry => if e.Expired now then .goto expiredUsage else .keep
  | expiredUsage => if e.openUsage = 0 then .goto shut else .keep
  | shut => .close

/-- Where `pickLocked` is with an entry. -/
inductive Test where
  | closed
  | requests
  | reuses
  | concurrency
  | compare
  /-- The entry has `usage` users; those of the best one are read next. -/
  | against (usage : Int)
  deriving DecidableEq, Repr

inductive TestResult where
  | goto (test : Test)
  | skip
  | choose
  deriving DecidableEq, Repr

def Test.run (maxConcurrency : Int) (best : Option Entry) (e : Entry) : Test → TestResult
  | closed => if e.shut.isSome then .skip else .goto requests
  | requests => if e.leftRequests ≤ 0 then .skip else .goto reuses
  | reuses => if e.ReusedUp then .skip else .goto concurrency
  | concurrency =>
    if 0 < maxConcurrency ∧ maxConcurrency ≤ e.openUsage then .skip else .goto compare
  | compare => if best.isNone then .choose else .goto (against e.openUsage)
  | against usage => if ∃ b ∈ best, usage < b.openUsage then .choose else .skip

/-- Where the holder of the lock is. -/
inductive Phase where
  | cleanup (todo kept : List Nat) (check : Check)
  | pick (todo : List Nat) (best : Option Nat) (test : Test)
  | create
  /-- `reuseCount.Add(1)` -/
  | reuse (i : Nat)
  /-- `openUsage.Add(1)` -/
  | usage (i : Nat)
  /-- `leftRequests.Add(-1)` -/
  | requests (i : Nat)
  /-- `GetTransport` returns. -/
  | hand (i : Nat)
  /-- The loop of `ReuseManager.Close`. -/
  | closing (todo : List Nat)
  deriving DecidableEq, Repr

/-- The call that holds the lock, with the clock reading it started with. -/
structure Crit where
  now : Int
  phase : Phase
  deriving DecidableEq, Repr

/-! ## Without the lock -/

/-- Where a `ReuseTransport` and its `release` are. -/
inductive UsePhase where
  | active
  | decrement
  | store
  | readClock
  | requests (now : Int)
  | reuses (now : Int)
  | expiry (now : Int)
  | shutdown
  | done
  deriving DecidableEq, Repr

/-- `ReuseTransport`; `since` is when it was handed out. -/
structure Use where
  entry : Nat
  since : Int
  phase : UsePhase := .active
  deriving DecidableEq, Repr

/-- One step of `release`. -/
def UsePhase.run (clock : Int) (e : Entry) : UsePhase → Option (UsePhase × Entry)
  | active | done => none
  | decrement =>
    let remaining := wrap 32 (e.openUsage - 1)
    some (if remaining < 0 then store else if remaining = 0 then readClock else done,
      { e with openUsage := remaining })
  | store => some (readClock, { e with openUsage := 0 })
  | readClock => some (requests clock, e)
  | requests now => some (if e.leftRequests ≤ 0 then shutdown else reuses now, e)
  | reuses now => some (if e.ReusedUp then shutdown else expiry now, e)
  | expiry now => some (if e.Expired now then shutdown else done, e)
  | shutdown => some (done, e.close .other)

/-! ## The system -/

structure State where
  cfg : Config
  clock : Int := 0
  /-- All entries ever made. -/
  entries : List Entry := []
  /-- `m.entries`. -/
  pool : List Nat := []
  /-- The clock readings of the calls that wait for the lock. -/
  waiting : List Int := []
  crit : Option Crit := none
  uses : List Use := []
  deriving DecidableEq, Repr

inductive Action where
  | tick (elapsed : Nat)
  /-- `GetTransport` reads the clock. -/
  | call
  /-- The `i`-th waiting call gets the lock. -/
  | enter (i : Nat)
  /-- `ReuseManager.Close` gets the lock. -/
  | closeManager
  /-- The holder of the lock goes on. -/
  | step (draw : Draw)
  /-- The user of a transport calls `Close` for the first time. -/
  | closeUse (u : Nat)
  | release (u : Nat)
  deriving DecidableEq, Repr

namespace State

/-- `shouldCreateLocked`. -/
def shouldCreate (cfg : Config) (pool : List Nat) : Bool :=
  if pool = [] then true
  else if 0 < cfg.maxConnections then pool.length < cfg.maxConnections
  else false

def move (s : State) (now : Int) (phase : Phase) : State := { s with crit := some ⟨now, phase⟩ }

def afterCheck (s : State) (now : Int) (i : Nat) (todo kept : List Nat) : CheckResult → State
  | .goto check => s.move now (.cleanup (i :: todo) kept check)
  | .keep => s.move now (.cleanup todo (kept ++ [i]) .closed)
  | .drop => s.move now (.cleanup todo kept .closed)
  | .close => { s with entries := s.entries.modify i (·.close .other) }.move now
      (.cleanup todo kept .closed)

def afterTest (s : State) (now : Int) (i : Nat) (todo : List Nat) (best : Option Nat) :
    TestResult → State
  | .goto test => s.move now (.pick (i :: todo) best test)
  | .skip => s.move now (.pick todo best .closed)
  | .choose => s.move now (.pick todo (some i) .closed)

def useUp (e : Entry) : Entry :=
  { e with leftRequests := if 0 < e.leftRequests then e.leftRequests - 1 else e.leftRequests }

def critStep (s : State) (now : Int) (draw : Draw) : Phase → Option State
  | .cleanup [] kept _ => some ({ s with pool := kept }.move now
      (if shouldCreate s.cfg kept then .create else .pick kept none .closed))
  | .cleanup (i :: todo) kept check =>
    s.entries[i]?.map fun e => s.afterCheck now i todo kept (check.run now e)
  | .pick [] best _ => some (s.move now (best.elim .create .reuse))
  | .pick (i :: todo) best test =>
    s.entries[i]?.map fun e => s.afterTest now i todo best
      (test.run s.cfg.maxConcurrency (best.bind (s.entries[·]?)) e)
  | .create =>
    if s.cfg.Allows draw then
      some ({ s with
        entries := s.entries ++ [newEntry s.cfg now draw]
        pool := s.pool ++ [s.entries.length] }.move now (.usage s.entries.length))
    else none
  | .reuse i => some ({ s with
      entries := s.entries.modify i fun e => { e with reuseCount := e.reuseCount + 1 } }.move now
        (.usage i))
  | .usage i => some ({ s with
      entries := s.entries.modify i fun e =>
        { e with openUsage := wrap 32 (e.openUsage + 1) } }.move now (.requests i))
  | .requests i => some ({ s with entries := s.entries.modify i useUp }.move now (.hand i))
  | .hand i => some { s with
      uses := s.uses ++ [{ entry := i, since := s.clock }]
      crit := none }
  | .closing [] => some { s with pool := [], crit := none }
  | .closing (i :: todo) => some ({ s with
      entries := s.entries.modify i (·.close .manager) }.move now (.closing todo))

/-- One step of the `release` of use `k`. -/
def releaseStep (s : State) (k : Nat) (u : Use) : Option State :=
  s.entries[u.entry]?.bind fun e => (u.phase.run s.clock e).map fun result =>
    { s with
      entries := s.entries.set u.entry result.2
      uses := s.uses.set k { u with phase := result.1 } }

def next (s : State) : Action → Option State
  | .tick elapsed => some { s with clock := s.clock + elapsed }
  | .call => some { s with waiting := s.waiting ++ [s.clock] }
  | .enter i => s.waiting[i]?.bind fun now =>
    if s.crit = none then
      some { s with
        waiting := s.waiting.eraseIdx i
        crit := some ⟨now, .cleanup s.pool [] .closed⟩ }
    else none
  | .closeManager =>
    if s.crit = none then some { s with crit := some ⟨s.clock, .closing s.pool⟩ } else none
  | .step draw => s.crit.bind fun c => s.critStep c.now draw c.phase
  | .closeUse k => s.uses[k]?.bind fun u =>
    if u.phase = .active then some { s with uses := s.uses.set k { u with phase := .decrement } }
    else none
  | .release k => s.uses[k]?.bind fun u => s.releaseStep k u

end State

def newReuseManager (cfg : Config) : State := { cfg }

end XHttp
