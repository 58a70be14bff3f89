import Mathlib.Data.List.Nodup
import CheezyCore.XrayMux.PoolPermits

/-!
# The number of carriers of a pool

`MaxConnections` is enforced in two ways. `dialWorkerNew` compares it with the number
of workers; `dialWorker`, once all workers are soft-full, relies on the permit of the
endpoint's key alone. A permit counts the carriers under its own key, so the second
check bounds the pool only while its live workers were dialled under the key of the
new dial. `sameEndpoint` is that condition on a step that asks for a permit. It is met
when `endpointKey` always returns one key, and may fail once DNS gives another address.

Dials of one pool exclude each other by `dialMu`, so the room seen before a dial is
still there when its worker is installed.
-/

namespace XrayMux

/-- The call holds `dialMu`. -/
def Pc.locks : Pc → Bool
  | .check _ | .dial _ | .undo _ _ | .rollBack _ _ | .install _ _ | .discard _ _
  | .unlock _ _ => true
  | _ => false

/-- The call may still add a worker to its pool. -/
def Pc.installs : Pc → Bool
  | .dial _ | .install _ _ => true
  | _ => false

variable {pc : Pc}

theorem Pc.locks_of_plain (h : pc.plain = true) : pc.locks = false := by
  cases pc <;> first | rfl | cases h

theorem Pc.locks_of_installs (h : pc.installs = true) : pc.locks = true := by
  cases pc <;> first | rfl | cases h

namespace System

theorem locks_afterDial (result : Dialed) :
    (afterGrow result).locks = false ∧ (afterSoftFull result).locks = false :=
  afterDial (P := (·.locks = false)) (fun _ _ => rfl) (fun _ => rfl) fun _ _ _ => rfl

/-- The live workers in `p.workers`. -/
def live (s : System) (pool : Pool) : Nat := pool.workers.countP fun w => !s.isClosed w

/-- A live worker's permit is for this key. -/
def keyedBy (s : System) (key : String) (w : Nat) : Bool :=
  match s.workers[w]? with
  | some m => m.worker.closed || m.permitKey = key
  | none => true

/-- A soft-full dial of a pool with a limit is about to ask for a permit. -/
def asksPermit (s : System) (pool : Pool) (packet : Bool) : Bool :=
  decide (0 < pool.maxConnections) && s.softFull pool packet && pool.dialAllowed s.now

/-- The condition on such a step: there is room for a worker, or the live workers were
dialled under the same key. -/
def sameEndpoint (s : System) : Action → Bool
  | .advance c _ =>
    match s.callers[c]? with
    | some ⟨p, entry, _, .check (.flight f)⟩ =>
      match s.pools[p]?, s.flights[f]? with
      | some pool, some fl =>
        !s.asksPermit pool entry.packet ||
          decide ((s.live pool : Int) < pool.maxConnections) ||
          pool.workers.all (s.keyedBy fl.key)
      | _, _ => true
    | _ => true
  | _ => true

/-- No pool with a limit has more live workers. -/
def WithinLimit (s : System) : Prop :=
  ∀ (p : Nat) (pool : Pool), s.pools[p]? = some pool → 0 < pool.maxConnections →
    (s.live pool : Int) ≤ pool.maxConnections

variable {s s' : System} {c : Nat} {caller : Caller} {pool pool' : Pool} {answer : Answer}
variable {t : Turn} {a : Action} {w : Nat}

/-! ## The dial lock -/

theorem Trims.dialMu (h : Trims s pool pool') : pool'.dialMu = pool.dialMu := by
  have heq := congrArg Pool.dialMu h.rest
  exact heq

/-- A call that comes out of a turn in a dial path holds the lock. -/
theorem Turns.dialMu_self (h : Turns s c caller pool answer pc t)
    (held : pc.locks = true → pool.dialMu = some c) (locks : t.pc.locks = true) :
    t.pool.dialMu = some c := by
  cases h with
  | wander _ there =>
    rw [Pc.locks_of_plain there] at locks
    cases locks
  | lock => rfl
  | refuse trims | share trims | acquire trims
  | uncapped trims => exact trims.dialMu.trans (held rfl)
  | dialed | dialError | undo | skipUndo | rollBack | install | late | discard
  | discarded => exact held rfl
  | unlock =>
    rw [(locks_afterDial _).1] at locks
    cases locks
  | land | receive =>
    rw [(locks_afterDial _).2] at locks
    cases locks
  | _ => cases locks

/-- A turn of a call that does not hold the lock leaves it to its holder. -/
theorem Turns.dialMu_other (h : Turns s c caller pool answer pc t)
    (out : pc.locks = false) {holder : Nat} (taken : pool.dialMu = some holder) :
    t.pool.dialMu = some holder := by
  cases h with
  | wander _ _ trims | giveUp _ trims => exact trims.dialMu.trans taken
  | lock free =>
    rw [free] at taken
    cases taken
  | reserve | abandon | land | join | fly | receive => exact taken
  | _ => cases out

theorem Stirs.dialMu (h : Stirs pool pool') : pool'.dialMu = pool.dialMu := by
  cases h with
  | signal => rfl
  | close =>
    unfold Pool.close
    split <;> rfl

/-- A call in a dial path holds the lock of its pool. -/
def Exclusive (s : System) : Prop :=
  ∀ (c : Nat) (caller : Caller) (pool : Pool), s.callers[c]? = some caller →
    s.pools[caller.pool]? = some pool → caller.pc.locks = true → pool.dialMu = some c

theorem Exclusive.next (h : Exclusive s) (hmoves : Moves s a s') : Exclusive s' := by
  intro i caller' pool' hcall hhome hlocks
  rcases hmoves.turn_or_passes with
    ⟨c, answer, caller, pool, t, -, call, home, turns, rfl⟩ | hpasses
  · rcases commit_cases hcall hhome with
      ⟨rfl, rfl, rfl⟩ | ⟨hne, hold, hhome | ⟨hpool, rfl⟩⟩
    · exact turns.dialMu_self (h c caller pool call home) hlocks
    · exact h i caller' pool' hold hhome hlocks
    · have htaken := h i caller' pool hold (hpool ▸ home) hlocks
      refine turns.dialMu_other (Bool.eq_false_iff.mpr fun hin => hne ?_) htaken
      exact Option.some.inj ((h c caller pool call home hin).symm.trans htaken)
  · rcases hpasses.callers i caller' hcall with htop | ⟨caller, hold, hpool, hpc, -⟩
    · rw [htop] at hlocks
      cases hlocks
    · rw [hpc] at hlocks
      rw [hpool] at hhome
      obtain ⟨pool, home, rfl | hstirs⟩ := hpasses.pools _ _ hhome
      · exact h i caller _ hold home hlocks
      · rw [hstirs.dialMu]
        exact h i caller pool hold home hlocks

/-! ## The workers of a pool -/

/-- The workers after a step: the old ones, aged, and new ones. -/
structure Grows (workers workers' : List PoolWorker) : Prop where
  length : workers.length ≤ workers'.length
  entry : ∀ (w : Nat) (m' : PoolWorker), workers'[w]? = some m' →
    (∃ m, workers[w]? = some m ∧ Endures m m') ∨ (workers.length ≤ w ∧ Retires m')

theorem Grows.refl (workers : List PoolWorker) : Grows workers workers :=
  ⟨Nat.le_refl _, fun _ m' hw => .inl ⟨m', hw, .refl m'⟩⟩

theorem Turns.worker_ages {worker : Worker} (h : Turns s c caller pool answer pc t)
    (effect : t.effect = .worker w worker) :
    ∃ m, s.workers[w]? = some m ∧ m.worker.Ages worker := by
  cases h with
  | reserve found ages =>
    cases effect
    exact ⟨_, found, ages⟩
  | abandon found =>
    cases effect
    exact ⟨_, found, .inl ⟨rfl, rfl⟩⟩
  | discard found =>
    cases effect
    exact ⟨_, found, .inr rfl⟩
  | _ => cases effect

theorem Turns.grows (h : Turns s c caller pool answer pc t) :
    Grows s.workers (s.commit c caller t).workers := by
  rw [commit_workers]
  cases heffect : t.effect with
  | newWorker key =>
    refine ⟨?_, fun w m' hw => ?_⟩
    · simp only [List.length_append, List.length_singleton]
      omega
    · rcases Table.getElem?_concat_cases hw with hold | ⟨rfl, rfl⟩
      · exact .inl ⟨m', hold, .refl m'⟩
      · exact .inr ⟨Nat.le_refl _, fun hretired => by simp [newWorker] at hretired⟩
  | worker w worker =>
    obtain ⟨m, hm, hages⟩ := h.worker_ages heffect
    simp only [Table.modify_of_getElem? hm]
    exact ⟨Nat.le_of_eq List.length_set.symm, fun v m' hv =>
      .inl (workers_set hm (endures_of_ages hages) v m' hv)⟩
  | _ => exact .refl _

theorem Moves.grows (h : Moves s a s') : Grows s.workers s'.workers := by
  rcases h.turn_or_passes with ⟨c, answer, caller, pool, t, -, -, -, turns, rfl⟩ | hpasses
  · exact turns.grows
  · exact ⟨Nat.le_of_eq hpasses.length.symm, fun w m' hw => .inl (hpasses.workers w m' hw)⟩

theorem Grows.isClosed (h : Grows s.workers s'.workers) (hw : w < s.workers.length)
    (hclosed : s.isClosed w = true) : s'.isClosed w = true := by
  unfold System.isClosed at hclosed ⊢
  have hw' : w < s'.workers.length := Nat.lt_of_lt_of_le hw h.length
  rw [List.getElem?_eq_getElem hw']
  rcases h.entry w _ (List.getElem?_eq_getElem hw') with ⟨m, hm, hendures⟩ | ⟨hge, -⟩
  · rw [hm] at hclosed
    exact hendures.closed hclosed
  · omega

/-- What the proof needs to know of the workers: `p.workers` lists carriers, each once;
a worker about to be installed is in no list yet; a released worker is closed. -/
structure Roster (s : System) : Prop where
  exclusive : Exclusive s
  known : ∀ (p : Nat) (pool : Pool), s.pools[p]? = some pool →
    ∀ w ∈ pool.workers, w < s.workers.length
  nodup : ∀ (p : Nat) (pool : Pool), s.pools[p]? = some pool → pool.workers.Nodup
  fresh : ∀ (c : Nat) (caller : Caller) (pool : Pool), s.callers[c]? = some caller →
    s.pools[caller.pool]? = some pool → ∀ d w, caller.pc = .install d w →
      w < s.workers.length ∧ w ∉ pool.workers
  retires : ∀ (w : Nat) (m : PoolWorker), s.workers[w]? = some m → Retires m

theorem Trims.sublist (h : Trims s pool pool') : pool'.workers.Sublist pool.workers := by
  rcases h.workers with heq | heq
  · rw [heq]
  · rw [heq]
    exact List.filter_sublist

theorem Stirs.sublist (h : Stirs pool pool') : pool'.workers.Sublist pool.workers := by
  cases h with
  | signal => exact .refl _
  | close =>
    unfold Pool.close
    split
    · exact .refl _
    · exact List.nil_sublist _

/-- A turn adds a worker to its pool only when it installs one. -/
theorem Turns.workers_cases (h : Turns s c caller pool answer pc t) :
    t.pool.workers.Sublist pool.workers ∨
      ∃ d w, pc = .install d w ∧ t.pool.workers = pool.workers ++ [w] ∧
        t.pc.installs = false := by
  cases h with
  | wander _ _ trims | giveUp _ trims | refuse trims | share trims | acquire trims
  | uncapped trims => exact .inl trims.sublist
  | @install d w => exact .inr ⟨d, w, rfl, rfl, rfl⟩
  | _ => exact .inl (.refl _)

/-- The worker to be installed is the one just dialled. -/
theorem Turns.install_cases (h : Turns s c caller pool answer pc t) {d : Dial}
    (hpc : t.pc = .install d w) :
    w = s.workers.length ∧ t.pool = pool ∧ t.effect = .newWorker d.permitKey := by
  cases h with
  | wander _ there =>
    cases hpc
    cases there
  | dialed =>
    cases hpc
    exact ⟨rfl, rfl, rfl⟩
  | unlock =>
    have hlocks := congrArg Pc.locks hpc
    rw [(locks_afterDial _).1] at hlocks
    cases hlocks
  | land | receive =>
    have hlocks := congrArg Pc.locks hpc
    rw [(locks_afterDial _).2] at hlocks
    cases hlocks
  | _ => cases hpc

section Turn

variable (h : Roster s) (call : s.callers[c]? = some caller)
  (home : s.pools[caller.pool]? = some pool) (turns : Turns s c caller pool answer caller.pc t)
include h call home turns

theorem Roster.known_turn : ∀ w ∈ t.pool.workers, w < s.workers.length := by
  have hknown := h.known _ pool home
  rcases turns.workers_cases with hsub | ⟨d, v, hpc, hworkers, -⟩
  · exact fun w hw => hknown w (hsub.subset hw)
  · rw [hworkers]
    exact Table.forall_concat hknown (h.fresh c caller pool call home d v hpc).1

theorem Roster.nodup_turn : t.pool.workers.Nodup := by
  have hnodup := h.nodup _ pool home
  rcases turns.workers_cases with hsub | ⟨d, v, hpc, hworkers, -⟩
  · exact hsub.nodup hnodup
  · rw [hworkers]
    refine List.nodup_append.mpr ⟨hnodup, List.nodup_singleton v, ?_⟩
    intro w hw v' hv' heq
    rw [List.mem_singleton.mp hv'] at heq
    exact (h.fresh c caller pool call home d v hpc).2 (heq ▸ hw)

/-- While another call is about to install a worker, this turn adds none. -/
theorem Roster.sublist_turn {i : Nat} {other : Caller} (hne : c ≠ i)
    (hother : s.callers[i]? = some other) (hpool : caller.pool = other.pool)
    (hlocks : other.pc.locks = true) : t.pool.workers.Sublist pool.workers := by
  rcases turns.workers_cases with hsub | ⟨d, v, hpc, -⟩
  · exact hsub
  · have hmine := h.exclusive c caller pool call home (by rw [hpc]; rfl)
    have htheirs := h.exclusive i other pool hother (hpool ▸ home) hlocks
    exact absurd (Option.some.inj (hmine.symm.trans htheirs)) hne

end Turn

theorem Roster.fresh_turn (h : Roster s) (home : s.pools[caller.pool]? = some pool)
    (turns : Turns s c caller pool answer pc t) {d : Dial} (hpc : t.pc = .install d w) :
    w < (s.commit c caller t).workers.length ∧ w ∉ t.pool.workers := by
  obtain ⟨rfl, hpool, heffect⟩ := turns.install_cases hpc
  refine ⟨?_, fun hmem => ?_⟩
  · rw [commit_workers, heffect]
    simp
  · rw [hpool] at hmem
    exact Nat.lt_irrefl _ (h.known _ pool home _ hmem)

theorem Roster.turn (h : Roster s) (call : s.callers[c]? = some caller)
    (home : s.pools[caller.pool]? = some pool) (turns : Turns s c caller pool answer caller.pc t) :
    Roster (s.commit c caller t) where
  exclusive := h.exclusive.next (.turn call home turns)
  known p pool' hp w hw := by
    rw [commit_pools] at hp
    refine Nat.lt_of_lt_of_le ?_ turns.grows.length
    rcases Table.getElem?_set_cases hp with ⟨-, hold⟩ | ⟨-, rfl⟩
    · exact h.known p pool' hold w hw
    · exact h.known_turn call home turns w hw
  nodup p pool' hp := by
    rw [commit_pools] at hp
    rcases Table.getElem?_set_cases hp with ⟨-, hold⟩ | ⟨-, rfl⟩
    · exact h.nodup p pool' hold
    · exact h.nodup_turn call home turns
  fresh i caller' pool' hcall hhome d w hpc := by
    rcases commit_cases hcall hhome with ⟨rfl, rfl, rfl⟩ | ⟨hne, hold, hhome | ⟨hpool, rfl⟩⟩
    · exact h.fresh_turn home turns hpc
    · obtain ⟨hlt, hnew⟩ := h.fresh i caller' pool' hold hhome d w hpc
      exact ⟨Nat.lt_of_lt_of_le hlt turns.grows.length, hnew⟩
    · obtain ⟨hlt, hnew⟩ := h.fresh i caller' pool hold (hpool ▸ home) d w hpc
      have hsub := h.sublist_turn call home turns hne hold hpool (by rw [hpc]; rfl)
      exact ⟨Nat.lt_of_lt_of_le hlt turns.grows.length, fun hmem => hnew (hsub.subset hmem)⟩
  retires w m' hw := by
    rcases turns.grows.entry w m' hw with ⟨m, hm, hendures⟩ | ⟨-, hretires⟩
    · exact hendures.retires (h.retires w m hm)
    · exact hretires

/-- The pools after a step around the calls have lost workers at most. -/
theorem Passes.sublist (h : Passes s s') {p : Nat} (hp : s'.pools[p]? = some pool') :
    ∃ pool, s.pools[p]? = some pool ∧ pool'.workers.Sublist pool.workers ∧
      pool'.maxConnections = pool.maxConnections := by
  obtain ⟨pool, hpool, rfl | hstirs⟩ := h.pools p pool' hp
  · exact ⟨pool', hpool, .refl _, rfl⟩
  · exact ⟨pool, hpool, hstirs.sublist, hstirs.maxConnections⟩

theorem Roster.passes (h : Roster s) (hmoves : Moves s a s') (hpasses : Passes s s') :
    Roster s' where
  exclusive := h.exclusive.next hmoves
  known p pool' hp w hw := by
    obtain ⟨pool, hpool, hsub, -⟩ := hpasses.sublist hp
    rw [hpasses.length]
    exact h.known p pool hpool w (hsub.subset hw)
  nodup p pool' hp := by
    obtain ⟨pool, hpool, hsub, -⟩ := hpasses.sublist hp
    exact hsub.nodup (h.nodup p pool hpool)
  fresh c caller' pool' hcall hhome d w hpc := by
    rcases hpasses.callers c caller' hcall with htop | ⟨caller, hold, hpool, hsame, -⟩
    · rw [htop] at hpc
      cases hpc
    · rw [hpool] at hhome
      obtain ⟨pool, home, hsub, -⟩ := hpasses.sublist hhome
      obtain ⟨hlt, hnew⟩ := h.fresh c caller pool hold home d w (hsame ▸ hpc)
      rw [hpasses.length]
      exact ⟨hlt, fun hmem => hnew (hsub.subset hmem)⟩
  retires w m' hw := by
    obtain ⟨m, hm, hendures⟩ := hpasses.workers w m' hw
    exact hendures.retires (h.retires w m hm)

theorem Roster.next (h : Roster s) (hmoves : Moves s a s') : Roster s' := by
  rcases hmoves.turn_or_passes with
    ⟨c, answer, caller, pool, t, -, call, home, turns, rfl⟩ | hpasses
  · exact h.turn call home turns
  · exact h.passes hmoves hpasses

theorem roster_start (options : List Options) : Roster (start options) where
  exclusive c caller pool h := by simp [start] at h
  known p pool hp w hw := by
    obtain ⟨opts, -, rfl⟩ := List.mem_map.mp (List.mem_of_getElem? hp)
    exact absurd hw List.not_mem_nil
  nodup p pool hp := by
    obtain ⟨opts, -, rfl⟩ := List.mem_map.mp (List.mem_of_getElem? hp)
    exact List.nodup_nil
  fresh c caller pool h := by simp [start] at h
  retires w m h := by simp [start] at h

/-! ## The limit -/

/-- Fewer workers, and none revived, are not more live workers. -/
theorem Grows.live_le (h : Grows s.workers s'.workers) (hsub : pool'.workers.Sublist pool.workers)
    (known : ∀ w ∈ pool.workers, w < s.workers.length) : s'.live pool' ≤ s.live pool := by
  refine Nat.le_trans hsub.countP_le (List.countP_mono_left fun w hw hlive => ?_)
  cases hclosed : s.isClosed w with
  | false => rfl
  | true =>
    rw [h.isClosed (known w hw) hclosed] at hlive
    cases hlive

/-- While all live workers of a pool hold permits of one key, they are among its
holders. -/
theorem Roster.live_le_held (h : Roster s) (hpermits : PermitsConserved s) {p : Nat}
    (home : s.pools[p]? = some pool) {key : String} (hkey : key ≠ "")
    (keyed : ∀ w ∈ pool.workers, s.keyedBy key w = true) :
    s.live pool ≤ Permits.held s.counts key := by
  have hle : s.live pool ≤ s.unreleased key := by
    rw [live, List.countP_eq_length_filter]
    refine Table.length_le_countP ((h.nodup p pool home).filter _) fun w hw => ?_
    obtain ⟨hmem, hlive⟩ := List.mem_filter.mp hw
    have hkeyed := keyed w hmem
    unfold keyedBy at hkeyed
    unfold System.isClosed at hlive
    cases hm : s.workers[w]? with
    | none =>
      rw [hm] at hlive
      cases hlive
    | some m =>
      rw [hm] at hlive hkeyed
      have hopen : m.worker.closed = false := by simpa using hlive
      have hreleased : m.released = false := by
        cases hrel : m.released with
        | false => rfl
        | true =>
          rw [h.retires w m hm (.inr hrel)] at hopen
          cases hopen
      have hpermitKey : m.permitKey = key := by simpa [hopen] using hkeyed
      refine ⟨m, rfl, ?_⟩
      simp [PoolWorker.permit, hreleased, hpermitKey, permitOf_of_ne hkey]
  rw [hpermits.count]
  omega

/-- No pool is over its limit, and a dial that may add a worker has room for it. -/
structure Capped (s : System) : Prop where
  within : WithinLimit s
  room : ∀ (c : Nat) (caller : Caller) (pool : Pool), s.callers[c]? = some caller →
    s.pools[caller.pool]? = some pool → caller.pc.installs = true → 0 < pool.maxConnections →
    (s.live pool : Int) < pool.maxConnections

/-- How a call comes to the point where it may add a worker. -/
theorem Turns.installs_cases (h : Turns s c caller pool answer pc t)
    (hinstalls : t.pc.installs = true) :
    (pc.installs = true ∧ t.pool = pool) ∨ pool.maxConnections ≤ 0 ∨
      ∃ path key counts, pc = .check path ∧ Keyed s pool caller.entry.packet key path ∧
        pool.dialAllowed s.now = true ∧
        Permits.acquire s.counts key pool.maxConnections = some counts := by
  have hlocks := Pc.locks_of_installs hinstalls
  cases h with
  | wander _ there =>
    rw [Pc.locks_of_plain there] at hlocks
    cases hlocks
  | acquire _ _ keyed granted records =>
    exact .inr (.inr ⟨_, _, _, rfl, keyed, records.allowed, granted⟩)
  | uncapped _ unlimited => exact .inr (.inl unlimited)
  | dialed => exact .inl ⟨rfl, rfl⟩
  | unlock =>
    rw [(locks_afterDial _).1] at hlocks
    cases hlocks
  | land | receive =>
    rw [(locks_afterDial _).2] at hlocks
    cases hlocks
  | _ => cases hinstalls

/-- The condition on a soft-full dial, for the call that takes the step. -/
theorem sameEndpoint_flight (h : s.sameEndpoint (.advance c answer) = true)
    (call : s.callers[c]? = some caller) (home : s.pools[caller.pool]? = some pool) {f : Nat}
    (hpc : caller.pc = .check (.flight f)) {fl : Flight} (hfl : s.flights[f]? = some fl)
    (hasks : s.asksPermit pool caller.entry.packet = true) :
    (s.live pool : Int) < pool.maxConnections ∨
      ∀ w ∈ pool.workers, s.keyedBy fl.key w = true := by
  obtain ⟨p, entry, done, pc⟩ := caller
  obtain rfl : pc = .check (.flight f) := hpc
  have hhome : s.pools[p]? = some pool := home
  have hasks : s.asksPermit pool entry.packet = true := hasks
  simp only [sameEndpoint, call, hhome, hfl, hasks, Bool.not_true, Bool.false_or, Bool.or_eq_true,
    decide_eq_true_eq, List.all_eq_true] at h
  exact h

/-- A dial that is granted its permit has room for its worker. -/
theorem Roster.room_of_acquire (h : Roster s) (hpermits : PermitsConserved s)
    (call : s.callers[c]? = some caller) (home : s.pools[caller.pool]? = some pool)
    (hsame : s.sameEndpoint (.advance c answer) = true) {path : Path} {key : String}
    {counts : String → Option Nat} (hpc : caller.pc = .check path) (hpos : 0 < pool.maxConnections)
    (keyed : Keyed s pool caller.entry.packet key path) (allowed : pool.dialAllowed s.now = true)
    (hkey : key ≠ "") (granted : Permits.acquire s.counts key pool.maxConnections = some counts) :
    (s.live pool : Int) < pool.maxConnections := by
  cases path with
  | grow =>
    have hlt := keyed.2
    have hlive : (s.pruneLocked pool).workers.length = s.live pool :=
      List.countP_eq_length_filter.symm
    rwa [hlive] at hlt
  | flight f =>
    obtain ⟨⟨fl, hfl, rfl⟩, hfull⟩ := keyed
    have hasks : s.asksPermit pool caller.entry.packet = true := by
      simp [asksPermit, hpos, hfull, allowed]
    rcases sameEndpoint_flight hsame call home hpc hfl hasks with hroom | hkeyed
    · exact hroom
    · have hle := h.live_le_held hpermits home hkey hkeyed
      have hlt := Permits.held_lt_of_acquire granted
      omega

theorem Capped.within_turn (h : Capped s) (hroster : Roster s)
    (call : s.callers[c]? = some caller) (home : s.pools[caller.pool]? = some pool)
    (turns : Turns s c caller pool answer caller.pc t) : WithinLimit (s.commit c caller t) := by
  intro p pool' hp hpos
  rw [commit_pools] at hp
  rcases Table.getElem?_set_cases hp with ⟨-, hold⟩ | ⟨-, rfl⟩
  · have hle := turns.grows.live_le (.refl pool'.workers) (hroster.known p pool' hold)
    have hwithin := h.within p pool' hold hpos
    omega
  · have hmax : t.pool.maxConnections = pool.maxConnections := turns.maxConnections
    rw [hmax] at hpos ⊢
    have hknown := hroster.known _ pool home
    rcases turns.workers_cases with hsub | ⟨d, w, hpc, hworkers, -⟩
    · have hle := turns.grows.live_le hsub hknown
      have hwithin := h.within _ pool home hpos
      omega
    · -- The new worker counts at most once; its room was kept since the dial began.
      have hroom := h.room c caller pool call home (by rw [hpc]; rfl) hpos
      have hle := turns.grows.live_le (.refl pool.workers) hknown
      have hadd : (s.commit c caller t).live t.pool ≤ (s.commit c caller t).live pool + 1 := by
        unfold live
        rw [hworkers, List.countP_append]
        exact Nat.add_le_add_left List.countP_le_length _
      omega

section

variable (h : Capped s) (hroster : Roster s) (hpermits : PermitsConserved s)
variable (hkeys : ∀ (f : Nat) (fl : Flight), s.flights[f]? = some fl → fl.key ≠ "")
variable (call : s.callers[c]? = some caller) (home : s.pools[caller.pool]? = some pool)
variable (hsame : s.sameEndpoint (.advance c answer) = true)
variable (turns : Turns s c caller pool answer caller.pc t)
include h hroster hpermits hkeys call home hsame turns

theorem Capped.room_turn (hinstalls : t.pc.installs = true) (hpos : 0 < pool.maxConnections) :
    (s.live pool : Int) < pool.maxConnections := by
  rcases turns.installs_cases hinstalls with
    ⟨hpc, -⟩ | hunlimited | ⟨path, key, counts, hpc, keyed, allowed, granted⟩
  · exact h.room c caller pool call home hpc hpos
  · omega
  · exact hroster.room_of_acquire hpermits call home hsame hpc hpos keyed allowed
      (keyed.ne_empty hkeys) granted

theorem Capped.turn : Capped (s.commit c caller t) where
  within := h.within_turn hroster call home turns
  room i caller' pool' hcall hhome hinstalls hpos := by
    rcases commit_cases hcall hhome with ⟨rfl, rfl, rfl⟩ | ⟨hne, hold, hhome | ⟨hpool, rfl⟩⟩
    · rw [turns.maxConnections] at hpos ⊢
      have hroom := h.room_turn hroster hpermits hkeys call home hsame turns hinstalls hpos
      have hsub : t.pool.workers.Sublist pool.workers := by
        rcases turns.workers_cases with hsub | ⟨d, w, -, -, hout⟩
        · exact hsub
        · exact absurd hinstalls (Bool.eq_false_iff.mp hout)
      have hle := turns.grows.live_le hsub (hroster.known _ pool home)
      omega
    · have hle := turns.grows.live_le (.refl pool'.workers) (hroster.known _ pool' hhome)
      have hroom := h.room i caller' pool' hold hhome hinstalls hpos
      omega
    · rw [turns.maxConnections] at hpos ⊢
      have hsub := hroster.sublist_turn call home turns hne hold hpool
        (Pc.locks_of_installs hinstalls)
      have hle := turns.grows.live_le hsub (hroster.known _ pool home)
      have hroom := h.room i caller' pool hold (hpool ▸ home) hinstalls hpos
      omega

end

theorem Capped.passes (h : Capped s) (hroster : Roster s) (hpasses : Passes s s')
    (hgrows : Grows s.workers s'.workers) : Capped s' where
  within p pool' hp hpos := by
    obtain ⟨pool, home, hsub, hmax⟩ := hpasses.sublist hp
    rw [hmax] at hpos ⊢
    have hle := hgrows.live_le hsub (hroster.known p pool home)
    have hwithin := h.within p pool home hpos
    omega
  room c caller' pool' hcall hhome hinstalls hpos := by
    rcases hpasses.callers c caller' hcall with htop | ⟨caller, hold, hpool, hpc, -⟩
    · rw [htop] at hinstalls
      cases hinstalls
    · rw [hpool] at hhome
      obtain ⟨pool, home, hsub, hmax⟩ := hpasses.sublist hhome
      rw [hmax] at hpos ⊢
      have hle := hgrows.live_le hsub (hroster.known _ pool home)
      have hroom := h.room c caller pool hold home (hpc ▸ hinstalls) hpos
      omega

/-- The invariant of runs in which soft-full dials keep to one endpoint. -/
structure Bounded (limit : Nat → Int) (s : System) : Prop where
  ledger : Ledger limit s
  roster : Roster s
  capped : Capped s

theorem Bounded.next {limit : Nat → Int} (h : Bounded limit s) (hsame : s.sameEndpoint a = true)
    (hstep : s.next a = some s') : Bounded limit s' := by
  have hmoves := next_moves hstep
  refine ⟨h.ledger.next hstep, h.roster.next hmoves, ?_⟩
  rcases hmoves.turn_or_passes with
    ⟨c, answer, caller, pool, t, rfl, call, home, turns, rfl⟩ | hpasses
  · exact h.capped.turn h.roster h.ledger.permitsConserved h.ledger.keyed call home hsame turns
  · exact h.capped.passes h.roster hpasses hmoves.grows

theorem capped_start (options : List Options) : Capped (start options) where
  within p pool hp hpos := by
    obtain ⟨opts, -, rfl⟩ := List.mem_map.mp (List.mem_of_getElem? hp)
    exact Int.le_of_lt hpos
  room c caller pool h := by simp [start] at h

/-- In every run whose soft-full dials find room or keep to the key of the live workers,
no pool ever has more live workers than its `MaxConnections`. -/
theorem withinLimit_of_sameEndpoint (options : List Options) (actions : List Action)
    (same : Transition.Guarded next (fun s a => s.sameEndpoint a = true) (start options) actions)
    (h : Transition.run next (start options) actions = some s) : WithinLimit s :=
  (Transition.guarded_invariant (P := Bounded (start options).maxConnections)
    (fun _ _ _ hbounded hsame hstep => hbounded.next hsame hstep)
    ⟨ledger_start options, roster_start options, capped_start options⟩ same h).capped.within

/-- A pool of one carrier with room for one session below the soft limit: the second
call finds it soft-full and dials under the key `second`. -/
def dialTwice (second : String) : List Action :=
  [Action.call 0 .dialContext (some .TCP)] ++
  List.replicate 9 (Action.advance 0 { key := "203.0.113.1:443" }) ++
  [Action.call 0 .dialContext (some .TCP)] ++ List.replicate 8 (Action.advance 1 { key := second })

def oneCarrier : List Options := [{ concurrency := 1, maxConnections := 1 }]

theorem withinLimit_dialTwice :
    ∃ s, Transition.run next (start oneCarrier) (dialTwice "203.0.113.1:443") = some s ∧
      s.workers.length = 1 ∧ WithinLimit s := by
  refine Transition.exists_of_map (f := fun s => s.workers.length) rfl fun s hrun hworkers => ?_
  exact ⟨hworkers, withinLimit_of_sameEndpoint oneCarrier _ (by decide) hrun⟩

/-- When the endpoint's name resolves to another address, the soft-full dial gets a
permit of the new key and the pool has two carriers. -/
theorem not_withinLimit_dialTwice :
    ∃ s, Transition.run next (start oneCarrier) (dialTwice "203.0.113.2:443") = some s ∧
      ¬ WithinLimit s := by
  refine Transition.exists_of_map (b := some (1, 2))
    (f := fun s => (s.pools[0]?).map fun pool => (pool.maxConnections, s.live pool))
    rfl fun s hrun hpools hwithin => ?_
  obtain ⟨pool, hpool, hcounts⟩ := Option.map_eq_some_iff.mp hpools
  obtain ⟨hmax, hlive⟩ := Prod.mk.inj hcounts
  have hle := hwithin 0 pool hpool (by omega)
  omega

end System

end XrayMux
