import CheezyCore.Foundation.Table
import CheezyCore.XrayMux.Pool

/-!
# What a step of the pools can do

`Turns` lists the steps of one call by their effect, `Moves` the steps of the whole
system. The invariants of the pools are proved against these two relations; the
executable functions are taken apart only here.
-/

namespace XrayMux

/-- A call that holds no lock, permit or result and leads no flight. -/
def Pc.plain : Pc → Bool
  | .top | .wantGrow | .lock .grow | .dialGroup | .tryReserve _ | .reserve _ _ | .openSession _ _
  | .waitForSlot | .asleep _ | .opened _ _ => true
  | _ => false

/-- A worker over time: it stays as open as it was, or it is closed. -/
def Worker.Ages (w w' : Worker) : Prop :=
  (w'.closed = w.closed ∧ w'.closeOnce = w.closeOnce) ∨ w'.closed = true

namespace System

variable {s s' : System} {c : Nat} {caller : Caller} {pool pool' : Pool} {answer : Answer}

/-- A pool after a critical section that only dropped closed workers or touched the
dial budget. -/
structure Trims (s : System) (pool pool' : Pool) : Prop where
  workers : pool'.workers = pool.workers ∨ pool'.workers = (s.pruneLocked pool).workers
  rest : pool' = { pool with workers := pool'.workers, dialTimes := pool'.dialTimes }

theorem Trims.refl (s : System) (pool : Pool) : Trims s pool pool := ⟨.inl rfl, rfl⟩

theorem trims_pruneLocked (s : System) (pool : Pool) : Trims s pool (s.pruneLocked pool) :=
  ⟨.inr rfl, rfl⟩

theorem Trims.pool_eq (h : Trims s pool pool') :
    pool' = { pool with
      workers := pool'.workers, dialTimes := pool'.dialTimes, dialMu := pool'.dialMu } := by
  obtain ⟨-, hrest⟩ := h
  rw [hrest]

/-- The function in `dialWorker` gets past its look at the workers: the pool is open, and no
worker has regained capacity. -/
def softFull (s : System) (pool : Pool) (packet : Bool) : Bool :=
  !pool.closed && ((s.pruneLocked pool).workers.find? fun w =>
    !s.isClosed w && s.hasCapacity (pool.soft packet) packet w).isNone

/-- A live worker has capacity below the hard limit. -/
def slotFree (s : System) (caller : Caller) (pool : Pool) : Bool :=
  pool.workers.any (s.hasCapacity (pool.hard caller.entry.packet) caller.entry.packet)

/-- A closed worker has no capacity, so pruning does not change the answer of the loop. -/
theorem any_hasCapacity_pruneLocked (s : System) (pool : Pool) (limit : Int) (packet : Bool) :
    (s.pruneLocked pool).workers.any (s.hasCapacity limit packet) =
      pool.workers.any (s.hasCapacity limit packet) := by
  rw [pruneLocked, List.any_filter]
  refine List.any_congr rfl fun w => ?_
  unfold isClosed hasCapacity
  cases s.workers[w]? with
  | none => rfl
  | some m => cases hclosed : m.worker.closed <;> simp [Worker.hasCapacity, hclosed]

/-- What a dial path has established when it asks a permit for a key. Only the grow path
compares the number of workers with the limit. -/
def Keyed (s : System) (pool : Pool) (packet : Bool) (key : String) : Path → Prop
  | .grow => key ≠ "" ∧ ((s.pruneLocked pool).workers.length : Int) < pool.maxConnections
  | .flight f => (∃ fl, s.flights[f]? = some fl ∧ fl.key = key) ∧ s.softFull pool packet = true

/-- Why a call ends without a dial: its own context, or a closed pool. -/
def Ended (c : Nat) (caller : Caller) (pool : Pool) (err : Err) : Prop :=
  (err.context = some c ∧ caller.done = true) ∨ (err = .netClosed ∧ pool.closed = true)

/-- The dial is within the budget and leaves its time stamp. -/
structure Records (now : Int) (pool pool' : Pool) : Prop where
  allowed : pool.dialAllowed now = true
  times : 0 < pool.maxDialsPerMinute → pool'.dialTimes = pool.recentDials now ++ [now]

/-- The steps of the call `c` from a program counter. -/
inductive Turns (s : System) (c : Nat) (caller : Caller) (pool : Pool) (answer : Answer) :
    Pc → Turn → Prop
  | wander {pc pc' pool'} (here : pc.plain = true) (there : pc'.plain = true)
      (trims : Trims s pool pool')
      (ticket : ∀ k, pc' = .asleep k → k = pool.broadcasts ∧ s.slotFree caller pool = false)
      (times : pool'.dialTimes = pool.dialTimes) :
      Turns s c caller pool answer pc { pool := pool', pc := pc' }
  | giveUp {pc pool' err} (here : pc.plain = true)
      (trims : Trims s pool pool') (why : Ended c caller pool err)
      (times : pool'.dialTimes = pool.dialTimes) :
      Turns s c caller pool answer pc { pool := pool', pc := .failed err }
  | reserve {attempt w m id worker}
      (found : s.workers[w]? = some m) (ages : m.worker.Ages worker)
      (reserved : ∃ limit packet ref, m.worker.reserve limit packet = some (ref, worker)) :
      Turns s c caller pool answer (.reserve attempt w)
        { pool, pc := .openSession w id, effect := .worker w worker }
  | abandon {w id m err}
      (found : s.workers[w]? = some m) (immediate : immediate caller pool = true)
      (failed : answer.newFrame = some err) :
      Turns s c caller pool answer (.openSession w id)
        { pool, pc := .failed err, effect := .worker w (m.worker.abandonSession id) }
  | lock {path} (free : pool.dialMu = none) :
      Turns s c caller pool answer (.lock path)
        { pool := { pool with dialMu := some c }, pc := .check path }
  | refuse {path pool' err} (trims : Trims s pool pool')
      (why : err.isLimit = true ∨ (err = .netClosed ∧ pool.closed = true))
      (reason : err.context = none)
      (times : pool'.dialTimes = pool.dialTimes ∨ pool'.dialTimes = pool.recentDials s.now) :
      Turns s c caller pool answer (.check path)
        { pool := pool', pc := .unlock path (.error err) }
  | share {f w pool'} (trims : Trims s pool pool') (times : pool'.dialTimes = pool.dialTimes) :
      Turns s c caller pool answer (.check (.flight f))
        { pool := pool', pc := .unlock (.flight f) (.worker w) }
  | acquire {path key pool' counts}
      (trims : Trims s pool pool') (capped : pool.maxConnections > 0)
      (keyed : Keyed s pool caller.entry.packet key path)
      (granted : Permits.acquire s.counts key pool.maxConnections = some counts)
      (records : Records s.now pool pool') :
      Turns s c caller pool answer (.check path)
        { pool := pool', pc := .dial ⟨path, key, s.now⟩, effect := .permits counts }
  | uncapped {path pool'} (trims : Trims s pool pool')
      (unlimited : pool.maxConnections ≤ 0) (records : Records s.now pool pool') :
      Turns s c caller pool answer (.check path) { pool := pool', pc := .dial ⟨path, "", s.now⟩ }
  | dialed {d} :
      Turns s c caller pool answer (.dial d)
        { pool, pc := .install d s.workers.length, effect := .newWorker d.permitKey }
  | dialError {d err} (failed : answer.dial = some err)
      (may : dialable c caller err = true) :
      Turns s c caller pool answer (.dial d) { pool, pc := .undo d err, effect := .dialError err }
  | undo {d err} (capped : d.permitKey ≠ "") :
      Turns s c caller pool answer (.undo d err)
        { pool, pc := .rollBack d err
          effect := .permits (Permits.release s.counts d.permitKey) }
  | skipUndo {d err} (uncapped : d.permitKey = "") :
      Turns s c caller pool answer (.undo d err) { pool, pc := .rollBack d err }
  | rollBack {d err} :
      Turns s c caller pool answer (.rollBack d err)
        { pool := { pool with dialTimes := pool.dialTimes.dropLast }
          pc := .unlock d.path (.error err) }
  | install {d w} (isOpen : pool.closed = false) :
      Turns s c caller pool answer (.install d w)
        { pool := { pool with workers := pool.workers ++ [w] }, pc := .unlock d.path (.worker w) }
  | late {d w} (closed : pool.closed = true) :
      Turns s c caller pool answer (.install d w) { pool, pc := .discard d w }
  | discard {d w m} (found : s.workers[w]? = some m) :
      Turns s c caller pool answer (.discard d w)
        { pool, pc := .discard d w, effect := .worker w m.worker.shutdown }
  | discarded {d w} :
      Turns s c caller pool answer (.discard d w)
        { pool, pc := .unlock d.path (.error .netClosed) }
  | unlock {result} :
      Turns s c caller pool answer (.unlock .grow result)
        { pool := { pool with dialMu := none }, pc := afterGrow result }
  | leave {f result} :
      Turns s c caller pool answer (.unlock (.flight f) result)
        { pool := { pool with dialMu := none }, pc := .land f result }
  | land {f result} :
      Turns s c caller pool answer (.land f result)
        { pool, pc := afterSoftFull result, effect := .land f result }
  | join {f} (flying : s.flying caller.pool (endpointKey answer.key) = some f) :
      Turns s c caller pool answer .dialGroup { pool, pc := .joined f, effect := .join f }
  | fly :
      Turns s c caller pool answer .dialGroup
        { pool, pc := .lock (.flight s.flights.length), effect := .fly (endpointKey answer.key) }
  | receive {f fl result} (found : s.flights[f]? = some fl)
      (landed : fl.result = some result) :
      Turns s c caller pool answer (.joined f) { pool, pc := afterSoftFull result }

theorem trims_recordDialLocked {p : Pool} (h : Trims s pool p) (now : Int) :
    Trims s pool (p.recordDialLocked now) := by
  obtain ⟨hworkers, hrest⟩ := h
  unfold Pool.recordDialLocked
  split
  · exact ⟨hworkers, by rw [hrest]⟩
  · exact ⟨hworkers, hrest⟩

theorem beginDial_turns {path : Path} {key : String}
    (keyed : pool.maxConnections > 0 → Keyed s pool caller.entry.packet key path) :
    Turns s c caller pool answer (.check path) (s.beginDial (s.pruneLocked pool) path key) := by
  have trims : Trims s pool
      { s.pruneLocked pool with dialTimes := (s.pruneLocked pool).recentDials s.now } :=
    ⟨.inr rfl, rfl⟩
  unfold beginDial
  split
  · exact .refuse trims (.inl rfl) rfl (.inr rfl)
  · next hallowed =>
    have records : Records s.now pool (Pool.recordDialLocked
        { s.pruneLocked pool with dialTimes := (s.pruneLocked pool).recentDials s.now } s.now) :=
      ⟨Bool.of_not_eq_false hallowed, fun hpos => congrArg Pool.dialTimes (if_pos hpos)⟩
    split
    · next hcapped =>
      split
      · exact .refuse trims (.inl rfl) rfl (.inr rfl)
      · next counts hcounts =>
        exact .acquire (trims_recordDialLocked trims s.now) hcapped (keyed hcapped) hcounts records
    · next hcapped =>
      exact .uncapped (trims_recordDialLocked trims s.now) (Int.not_lt.mp hcapped) records

theorem endpointKey_ne_empty (key : String) : endpointKey key ≠ "" := by
  unfold endpointKey
  split
  · assumption
  · decide

theorem dialWorkerNew_turns (key : String) :
    Turns s c caller pool answer (.check .grow) (s.dialWorkerNew pool key) := by
  unfold dialWorkerNew
  split
  · next hclosed => exact .refuse (.refl s pool) (.inr ⟨rfl, hclosed⟩) rfl (.inl rfl)
  · split
    · exact .refuse (trims_pruneLocked s pool) (.inl rfl) rfl (.inl rfl)
    · next hroom =>
      refine beginDial_turns fun hcapped => ⟨endpointKey_ne_empty key, ?_⟩
      exact Int.not_le.mp fun hfull => hroom ⟨hcapped, hfull⟩

theorem dialWorker_turns {f : Nat} {fl : Flight} (found : s.flights[f]? = some fl) :
    Turns s c caller pool answer (.check (.flight f))
      (s.dialWorker pool f fl.key caller.entry.packet) := by
  unfold dialWorker
  split
  · next hclosed => exact .refuse (.refl s pool) (.inr ⟨rfl, hclosed⟩) rfl (.inl rfl)
  · next hopen =>
    split
    · exact .share (trims_pruneLocked s pool) rfl
    · next hnone =>
      refine beginDial_turns fun _ => ⟨⟨fl, found, rfl⟩, ?_⟩
      rw [softFull, hnone, Bool.eq_false_iff.mpr hopen]
      rfl

theorem waitForSlot_turns {pc : Pc} (here : pc.plain = true) :
    Turns s c caller pool answer pc (s.waitForSlot c caller pool) := by
  unfold waitForSlot
  split
  · next hclosed => exact .giveUp here (.refl s pool) (.inr ⟨rfl, hclosed⟩) rfl
  · rw [any_hasCapacity_pruneLocked]
    split
    · exact .wander here rfl (trims_pruneLocked s pool) nofun rfl
    · next hfull =>
      split
      · next hdone => exact .giveUp here (trims_pruneLocked s pool) (.inl ⟨rfl, hdone⟩) rfl
      · refine .wander here rfl (trims_pruneLocked s pool) (fun k hk => ?_) rfl
        cases hk
        exact ⟨rfl, Bool.eq_false_iff.mpr hfull⟩

theorem plain_missed (attempt : Attempt) : (missed attempt).plain = true := by
  cases attempt <;> rfl

theorem missed_ne_asleep (attempt : Attempt) (k : Nat) : missed attempt ≠ .asleep k := by
  cases attempt <;> nofun

/-- After a dial path the call goes on, or it fails with the error of that path. -/
theorem afterDial {P : Pc → Prop} {result : Dialed} (reserve : ∀ attempt w, P (.reserve attempt w))
    (retry : ∀ attempt, P (.tryReserve attempt))
    (failed : ∀ err, result = .error err → err.isLimit = false → P (.failed err)) :
    P (afterGrow result) ∧ P (afterSoftFull result) := by
  cases result with
  | worker w => exact ⟨reserve .grow w, reserve .softFull w⟩
  | error err =>
    cases hlimit : err.isLimit with
    | true =>
      simp only [afterGrow, afterSoftFull, hlimit, if_true]
      exact ⟨retry .packSoft, retry .packHard⟩
    | false =>
      simp only [afterGrow, afterSoftFull, hlimit, Bool.false_eq_true, if_false, and_self]
      exact failed err rfl hlimit

/-- Every step of a call is one of those listed. -/
theorem turn_turns {t : Turn} (h : s.turn c caller pool answer = some t) :
    Turns s c caller pool answer caller.pc t := by
  unfold turn at h
  cases hpc : caller.pc <;> simp only [hpc] at h
  case top =>
    cases h
    cases hdone : caller.done with
    | true => exact .giveUp rfl (.refl s pool) (.inl ⟨rfl, hdone⟩) rfl
    | false => exact .wander rfl rfl (.refl s pool) nofun rfl
  case wantGrow =>
    split at h
    · cases h
      exact .wander rfl rfl (.refl s pool) nofun rfl
    · split at h <;> cases h
      · exact .wander rfl rfl (trims_pruneLocked s pool) nofun rfl
      · exact .wander rfl rfl (trims_pruneLocked s pool) nofun rfl
  case lock path =>
    split at h <;> cases h
    next hfree => exact .lock hfree
  case check path =>
    cases path with
    | grow =>
      cases h
      exact dialWorkerNew_turns answer.key
    | flight f =>
      obtain ⟨fl, hfl, rfl⟩ := Option.map_eq_some_iff.mp h
      exact dialWorker_turns hfl
  case dial d =>
    split at h
    · cases h
      exact .dialed
    · next err herr =>
      split at h <;> cases h
      next hmay => exact .dialError herr hmay
  case undo d err =>
    split at h <;> cases h
    next hkey => exact .undo hkey
    next hkey => exact .skipUndo (not_not.mp hkey)
  case rollBack d err =>
    cases h
    exact .rollBack
  case install d w =>
    split at h <;> cases h
    next hclosed => exact .late hclosed
    next hopen => exact .install (Bool.eq_false_iff.mpr hopen)
  case discard d w =>
    split at h
    · cases h
    · next m hm =>
      split at h <;> cases h
      · exact .discard hm
      · exact .discarded
  case unlock path result =>
    cases path with
    | grow =>
      cases h
      exact .unlock
    | flight f =>
      cases h
      exact .leave
  case land f result =>
    cases h
    exact .land
  case dialGroup =>
    split at h <;> cases h
    next f hflying => exact .join hflying
    · exact .fly
  case joined f =>
    split at h
    · next fl hfl =>
      obtain ⟨result, hresult, rfl⟩ := Option.map_eq_some_iff.mp h
      exact .receive hfl hresult
    · cases h
  case tryReserve attempt =>
    split at h
    · cases h
      exact .wander rfl (plain_missed attempt) (.refl s pool)
        (fun k hk => absurd hk (missed_ne_asleep attempt k)) rfl
    · split at h <;> cases h
      · exact .wander rfl rfl (trims_pruneLocked s pool) nofun rfl
      · exact .wander rfl (plain_missed attempt) (trims_pruneLocked s pool)
          (fun k hk => absurd hk (missed_ne_asleep attempt k)) rfl
  case reserve attempt w =>
    split at h
    · cases h
    · next m hm =>
      split at h <;> cases h
      next ref worker hreserve =>
        obtain ⟨-, -, -, -, rfl⟩ := Worker.reserve_eq_some hreserve
        exact .reserve hm (.inl ⟨rfl, rfl⟩) ⟨_, _, _, hreserve⟩
      · exact .wander rfl (plain_missed attempt) (.refl s pool)
          (fun k hk => absurd hk (missed_ne_asleep attempt k)) rfl
  case openSession w id =>
    split at h
    · next himmediate =>
      split at h <;> cases h
      next err m hfailed hm => exact .abandon hm himmediate hfailed
      · exact .wander rfl rfl (.refl s pool) nofun rfl
    · cases h
      exact .wander rfl rfl (.refl s pool) nofun rfl
  case waitForSlot =>
    cases h
    exact waitForSlot_turns rfl
  case asleep ticket =>
    split at h <;> cases h
    exact waitForSlot_turns rfl
  case opened | failed => cases h

/-- A step of a call changes nothing of its pool but the workers, the dial budget and
the dial lock. -/
theorem Turns.pool_eq {pc : Pc} {t : Turn} (h : Turns s c caller pool answer pc t) :
    t.pool = { pool with
      workers := t.pool.workers, dialTimes := t.pool.dialTimes, dialMu := t.pool.dialMu } := by
  cases h with
  | wander _ _ trims | giveUp _ trims | refuse trims | share trims | acquire trims
  | uncapped trims => exact trims.pool_eq
  | _ => rfl

theorem Turns.closed {pc : Pc} {t : Turn} (h : Turns s c caller pool answer pc t) :
    t.pool.closed = pool.closed := by
  have heq := congrArg Pool.closed h.pool_eq
  exact heq

/-! ## Steps of the system -/

/-- A pool after something outside its calls: woken waiters, or closed. -/
inductive Stirs (pool : Pool) : Pool → Prop
  | signal : Stirs pool pool.signalFree
  | close : Stirs pool pool.close

/-- The steps of the system. -/
inductive Moves (s : System) : Action → System → Prop
  | refuse {p entry metadata} : Moves s (.call p entry metadata) s
  | call {p entry metadata} :
      Moves s (.call p entry metadata) { s with callers := s.callers ++ [{ pool := p, entry }] }
  | turn {c answer caller pool t}
      (call : s.callers[c]? = some caller) (home : s.pools[caller.pool]? = some pool)
      (turns : Turns s c caller pool answer caller.pc t) :
      Moves s (.advance c answer) (s.commit c caller t)
  | cancel {c : Nat} {caller : Caller} (call : s.callers[c]? = some caller) :
      Moves s (.cancel c) { s with callers := s.callers.set c { caller with done := true } }
  | work {a w m worker}
      (found : s.workers[w]? = some m) (ages : m.worker.Ages worker) :
      Moves s a { s with workers := s.workers.set w { m with worker } }
  | release {w m} (found : s.workers[w]? = some m)
      (running : m.worker.closeOnce = .running) (unreleased : m.released = false) :
      Moves s (.release w)
        { s with
          counts := if m.permitKey ≠ "" then Permits.release s.counts m.permitKey else s.counts
          workers := s.workers.set w { m with released := true } }
  | finishClose {w m pool} (found : s.workers[w]? = some m)
      (home : s.pools[m.pool]? = some pool) (running : m.worker.closeOnce = .running) :
      Moves s (.finishClose w)
        { s with
          workers := s.workers.set w { m with worker := { m.worker with closeOnce := .done } }
          pools := s.pools.set m.pool pool.signalFree }
  | stir {a p pool pool'} (home : s.pools[p]? = some pool)
      (stirs : Stirs pool pool') : Moves s a { s with pools := s.pools.set p pool' }
  | tick {elapsed} : Moves s (.tick elapsed) { s with now := s.now + elapsed }

theorem advance_turns (h : s.advance c answer = some s') :
    ∃ caller pool t, s.callers[c]? = some caller ∧ s.pools[caller.pool]? = some pool ∧
      Turns s c caller pool answer caller.pc t ∧ s' = s.commit c caller t := by
  unfold advance at h
  split at h
  · cases h
  · next caller hcall =>
    split at h
    · cases h
    · next pool hhome =>
      obtain ⟨t, ht, rfl⟩ := Option.map_eq_some_iff.mp h
      exact ⟨caller, pool, t, hcall, hhome, turn_turns ht, rfl⟩

theorem next_moves {a : Action} (h : s.next a = some s') : Moves s a s' := by
  cases a with
  | call p entry metadata =>
    simp only [next] at h
    split at h
    · split at h <;> cases h
      · exact .refuse
      · exact .call
    · cases h
  | advance c answer =>
    obtain ⟨caller, pool, t, hcall, hhome, turns, rfl⟩ := advance_turns h
    exact .turn hcall hhome turns
  | cancel c =>
    obtain ⟨caller, hcall, rfl⟩ := Option.map_eq_some_iff.mp h
    exact .cancel hcall
  | removeSession w id =>
    obtain ⟨m, hfound, rfl⟩ := Option.map_eq_some_iff.mp h
    exact .work hfound (.inl ⟨rfl, rfl⟩)
  | closeWorker w =>
    simp only [next, closeWorker] at h
    split at h
    · cases h
    · next m hfound =>
      split at h <;> cases h
      exact .work hfound (.inr rfl)
  | release w =>
    simp only [next, release] at h
    split at h
    · cases h
    · next m hfound =>
      split at h <;> cases h
      next hstate => exact .release hfound hstate.1 hstate.2
  | finishClose w =>
    simp only [next, finishClose] at h
    split at h
    · cases h
    · next m hfound =>
      split at h
      · next hstate =>
        obtain ⟨pool, hhome, rfl⟩ := Option.map_eq_some_iff.mp h
        exact .finishClose hfound hhome hstate.1
      · cases h
  | signalFree p =>
    obtain ⟨pool, hhome, rfl⟩ := Option.map_eq_some_iff.mp h
    exact .stir hhome .signal
  | closePool p =>
    obtain ⟨pool, hhome, rfl⟩ := Option.map_eq_some_iff.mp h
    exact .stir hhome .close
  | tick elapsed =>
    cases h
    exact .tick

theorem commit_callers (s : System) (c : Nat) (caller : Caller) (t : Turn) :
    (s.commit c caller t).callers = s.callers.set c { caller with pc := t.pc } := by
  unfold commit
  cases t.effect <;> rfl

theorem commit_pools (s : System) (c : Nat) (caller : Caller) (t : Turn) :
    (s.commit c caller t).pools = s.pools.set caller.pool t.pool := by
  unfold commit
  cases t.effect <;> rfl

/-- A call and its pool after a turn of the same or of another call. -/
theorem commit_cases {i : Nat} {caller' : Caller}
    (hcall : (s.commit c caller t).callers[i]? = some caller')
    (hhome : (s.commit c caller t).pools[caller'.pool]? = some pool') :
    (c = i ∧ caller' = { caller with pc := t.pc } ∧ pool' = t.pool) ∨
    c ≠ i ∧ s.callers[i]? = some caller' ∧ (s.pools[caller'.pool]? = some pool' ∨
      caller.pool = caller'.pool ∧ pool' = t.pool) := by
  rw [commit_callers] at hcall
  rw [commit_pools] at hhome
  have hpools := Table.getElem?_set_cases hhome
  rcases Table.getElem?_set_cases hcall with ⟨hne, hold⟩ | ⟨rfl, rfl⟩
  · exact .inr ⟨hne, hold, hpools.imp_left And.right⟩
  · exact .inl ⟨rfl, rfl, (hpools.resolve_left fun h => h.1 rfl).2⟩

theorem commit_workers (s : System) (c : Nat) (caller : Caller) (t : Turn) :
    (s.commit c caller t).workers =
      match t.effect with
      | .newWorker permitKey => s.workers ++
          [{ worker := newWorker t.pool.maxWorkerUses, pool := caller.pool, permitKey }]
      | .worker w worker => s.workers.modify w fun m => { m with worker }
      | _ => s.workers := by
  unfold commit
  cases t.effect <;> rfl

/-! ## Steps around the calls -/

/-- Only a worker that is closed has begun `close` or was released. -/
def Retires (m : PoolWorker) : Prop :=
  m.worker.closeOnce ≠ .idle ∨ m.released = true → m.worker.closed = true

/-- A worker after a step. -/
structure Endures (m m' : PoolWorker) : Prop where
  pool : m'.pool = m.pool
  permitKey : m'.permitKey = m.permitKey
  closed : m.worker.closed = true → m'.worker.closed = true
  retires : Retires m → Retires m'

theorem Endures.refl (m : PoolWorker) : Endures m m := ⟨rfl, rfl, id, id⟩

theorem endures_of_ages {m : PoolWorker} {worker : Worker} (h : m.worker.Ages worker) :
    Endures m { m with worker } := by
  rcases h with ⟨hclosed, honce⟩ | hclosed
  · refine ⟨rfl, rfl, hclosed.trans, fun h hretired => ?_⟩
    rw [honce] at hretired
    exact hclosed.trans (h hretired)
  · exact ⟨rfl, rfl, fun _ => hclosed, fun _ _ => hclosed⟩

/-- A step that is not a turn of a call: at most a new call begins, a context ends,
pools are stirred and workers age. -/
structure Passes (s s' : System) : Prop where
  callers : ∀ (c : Nat) (caller' : Caller), s'.callers[c]? = some caller' →
    caller'.pc = .top ∨ ∃ caller, s.callers[c]? = some caller ∧ caller'.pool = caller.pool ∧
      caller'.pc = caller.pc ∧ (caller.done = true → caller'.done = true) ∧
      caller'.entry = caller.entry
  pools : ∀ (p : Nat) (pool' : Pool), s'.pools[p]? = some pool' →
    ∃ pool, s.pools[p]? = some pool ∧ (pool' = pool ∨ Stirs pool pool')
  count : s'.pools.length = s.pools.length
  workers : ∀ (w : Nat) (m' : PoolWorker), s'.workers[w]? = some m' →
    ∃ m, s.workers[w]? = some m ∧ Endures m m'
  length : s'.workers.length = s.workers.length
  flights : s'.flights = s.flights
  dialErrors : s'.dialErrors = s.dialErrors

theorem callers_same (s : System) (c : Nat) (caller : Caller) (h : s.callers[c]? = some caller) :
    caller.pc = .top ∨ ∃ old, s.callers[c]? = some old ∧ caller.pool = old.pool ∧
      caller.pc = old.pc ∧ (old.done = true → caller.done = true) ∧ caller.entry = old.entry :=
  .inr ⟨caller, h, rfl, rfl, id, rfl⟩

theorem workers_set {w : Nat} {m new : PoolWorker} (found : s.workers[w]? = some m)
    (endures : Endures m new) (v : Nat) (m' : PoolWorker)
    (h : (s.workers.set w new)[v]? = some m') : ∃ m, s.workers[v]? = some m ∧ Endures m m' := by
  rcases Table.getElem?_set_cases h with ⟨-, hold⟩ | ⟨rfl, rfl⟩
  · exact ⟨m', hold, .refl m'⟩
  · exact ⟨m, found, endures⟩

theorem pools_set {p : Nat} {new : Pool} (home : s.pools[p]? = some pool)
    (stirs : Stirs pool new) (q : Nat) (pool' : Pool)
    (h : (s.pools.set p new)[q]? = some pool') :
    ∃ pool, s.pools[q]? = some pool ∧ (pool' = pool ∨ Stirs pool pool') := by
  rcases Table.getElem?_set_cases h with ⟨-, hold⟩ | ⟨rfl, rfl⟩
  · exact ⟨pool', hold, .inl rfl⟩
  · exact ⟨pool, home, .inr stirs⟩

/-- A step is a turn of a call, or passes around the calls. -/
theorem Moves.turn_or_passes {a : Action} (h : Moves s a s') :
    (∃ c answer caller pool t, a = .advance c answer ∧ s.callers[c]? = some caller ∧
      s.pools[caller.pool]? = some pool ∧ Turns s c caller pool answer caller.pc t ∧
      s' = s.commit c caller t) ∨ Passes s s' := by
  have pools : ∀ (p : Nat) (pool : Pool), s.pools[p]? = some pool →
      ∃ old, s.pools[p]? = some old ∧ (pool = old ∨ Stirs old pool) :=
    fun p pool hp => ⟨pool, hp, .inl rfl⟩
  have workers : ∀ (w : Nat) (m : PoolWorker), s.workers[w]? = some m →
      ∃ old, s.workers[w]? = some old ∧ Endures old m :=
    fun w m hw => ⟨m, hw, .refl m⟩
  cases h with
  | turn call home turns => exact .inl ⟨_, _, _, _, _, rfl, call, home, turns, rfl⟩
  | refuse | tick => exact .inr ⟨s.callers_same, pools, rfl, workers, rfl, rfl, rfl⟩
  | call =>
    refine .inr ⟨fun c caller' hc => ?_, pools, rfl, workers, rfl, rfl, rfl⟩
    rcases Table.getElem?_concat_cases hc with hold | ⟨-, rfl⟩
    · exact s.callers_same c caller' hold
    · exact .inl rfl
  | @cancel c caller call =>
    refine .inr ⟨fun i caller' hi => ?_, pools, rfl, workers, rfl, rfl, rfl⟩
    rcases Table.getElem?_set_cases hi with ⟨-, hold⟩ | ⟨rfl, rfl⟩
    · exact s.callers_same i caller' hold
    · exact .inr ⟨caller, call, rfl, rfl, fun _ => rfl, rfl⟩
  | work found ages =>
    exact .inr ⟨s.callers_same, pools, rfl, workers_set found (endures_of_ages ages),
      List.length_set, rfl, rfl⟩
  | @release w m found running unreleased =>
    have endures : Endures m { m with released := true } :=
      ⟨rfl, rfl, id, fun hretires _ => hretires (.inl (by rw [running]; nofun))⟩
    exact .inr ⟨s.callers_same, pools, rfl, workers_set found endures, List.length_set, rfl, rfl⟩
  | @finishClose w m pool found home running =>
    have endures : Endures m { m with worker := { m.worker with closeOnce := .done } } :=
      ⟨rfl, rfl, id, fun hretires _ => hretires (.inl (by rw [running]; nofun))⟩
    exact .inr ⟨s.callers_same, pools_set home .signal, List.length_set,
      workers_set found endures, List.length_set, rfl, rfl⟩
  | stir home stirs =>
    exact .inr ⟨s.callers_same, pools_set home stirs, List.length_set, workers, rfl, rfl, rfl⟩

end System

end XrayMux
