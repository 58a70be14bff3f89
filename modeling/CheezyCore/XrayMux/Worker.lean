import CheezyCore.Foundation.Transition
import CheezyCore.XrayMux.Frame

/-!
# One carrier and its sessions

The part of `worker` that its mutex `w.mu` protects: the session map, the use
counter, the closed flag and the idle timer. Each function here is one critical
section, so it is atomic for every other goroutine.

`total` is the 16-bit use counter, and its new value is the session's wire id.
`maxUses` is an unbounded `int`. The last section follows all ids handed out over
a carrier's life and shows how the two meet.
-/

namespace XrayMux

/-- `sync.Once`: not started, body executing, body finished. -/
inductive Once where
  | idle
  | running
  | done
  deriving DecidableEq, Repr

/-- An entry of `w.sessions`: the map key, a fixed field of the session, and the
session's identity, its number in the order of creation. -/
structure SessionRef where
  id : UInt16
  packet : Bool
  ref : Nat
  deriving DecidableEq, Repr

/-- `opened` counts the sessions created so far; it only names new ones. -/
structure Worker where
  sessions : List SessionRef := []
  maxUses : Int
  total : UInt16 := 0
  closed : Bool := false
  idleTimer : Bool := false
  closeOnce : Once := .idle
  opened : Nat := 0
  deriving DecidableEq, Repr

def defaultMaxUses : Int := 128

/-- The `MaxWorkerUses` default of `NewPool`. -/
def poolMaxUses (maxWorkerUses : Int) : Int :=
  if maxWorkerUses ≤ 0 then defaultMaxUses else maxWorkerUses

theorem poolMaxUses_le {maxWorkerUses : Int} (h : maxWorkerUses ≤ 65535) :
    poolMaxUses maxWorkerUses ≤ 65535 := by
  unfold poolMaxUses defaultMaxUses
  split <;> omega

def newWorker (maxUses : Int) : Worker := { maxUses }

variable {w : Worker} {s : SessionRef} {packet : Bool} {limit : Int}

namespace Worker

def activeSessionsLocked (w : Worker) (packet : Bool) : Int :=
  (w.sessions.filter fun s => s.packet == packet).length

def hasCapacity (w : Worker) (limit : Int) (packet : Bool) : Bool :=
  !w.closed && w.activeSessionsLocked packet < limit && w.total.toNat < w.maxUses

/-- The session map after `delete(w.sessions, id)`. -/
def without (sessions : List SessionRef) (id : UInt16) : List SessionRef :=
  sessions.filter fun s => s.id != id

def reserve (w : Worker) (limit : Int) (packet : Bool) : Option (SessionRef × Worker) :=
  if w.closed ∨ w.activeSessionsLocked packet ≥ limit ∨ (w.total.toNat : Int) ≥ w.maxUses then none
  else
    let s : SessionRef := { id := w.total + 1, packet, ref := w.opened }
    some (s, { w with
      idleTimer := false
      total := w.total + 1
      sessions := without w.sessions s.id ++ [s]
      opened := w.opened + 1 })

/-- The critical section of `removeSession`, with its `shouldClose`. -/
def removeSession (w : Worker) (id : UInt16) : Worker × Bool :=
  let sessions := without w.sessions id
  let shouldClose := decide ((w.total.toNat : Int) ≥ w.maxUses) && sessions.isEmpty
  let arm := !shouldClose && sessions.isEmpty && !w.closed
  ({ w with sessions, idleTimer := w.idleTimer || arm }, shouldClose)

/-- The critical section of `abandonSession`. -/
def abandonSession (w : Worker) (id : UInt16) : Worker :=
  { w with sessions := without w.sessions id }

/-- The critical section at the start of the `closeOnce` body. -/
def shutdown (w : Worker) : Worker :=
  { w with closed := true, idleTimer := false, sessions := [], closeOnce := .running }

theorem hasCapacity_iff : w.hasCapacity limit packet = true ↔
      w.closed = false ∧ w.activeSessionsLocked packet < limit ∧
        (w.total.toNat : Int) < w.maxUses := by
  simp [hasCapacity, and_assoc]

/-- `reserve` succeeds exactly where `hasCapacity` says so. -/
theorem reserve_isSome : (w.reserve limit packet).isSome = w.hasCapacity limit packet := by
  rw [Bool.eq_iff_iff, hasCapacity_iff]
  unfold reserve
  split
  · next h =>
    simp only [Option.isSome_none, Bool.false_eq_true, false_iff]
    rintro ⟨hc, ha, ht⟩
    rcases h with h | h | h
    · rw [hc] at h
      cases h
    · omega
    · omega
  · next h =>
    simp only [not_or, Bool.not_eq_true] at h
    simp only [Option.isSome_some, true_iff]
    exact ⟨h.1, by omega, by omega⟩

/-- Everything a successful `reserve` does. -/
theorem reserve_eq_some {w' : Worker} (h : w.reserve limit packet = some (s, w')) :
    w.closed = false ∧ w.activeSessionsLocked packet < limit ∧ (w.total.toNat : Int) < w.maxUses ∧
      s = { id := w.total + 1, packet, ref := w.opened } ∧
      w' = { w with
        idleTimer := false, total := w.total + 1, opened := w.opened + 1
        sessions := without w.sessions (w.total + 1) ++ [s] } := by
  have hcap : w.hasCapacity limit packet = true := by
    rw [← reserve_isSome, h]
    rfl
  obtain ⟨hc, ha, ht⟩ := hasCapacity_iff.mp hcap
  unfold reserve at h
  split at h
  · cases h
  · obtain ⟨rfl, rfl⟩ := h
    exact ⟨hc, ha, ht, rfl, rfl⟩

/-- A session under an id that no session has takes up capacity. -/
theorem hasCapacity_of_reserve {w' : Worker} {packet' : Bool} {limit' : Int}
    (h : w.reserve limit packet = some (s, w')) (fresh : ∀ r ∈ w.sessions, r.id ≠ w.total + 1)
    (hcap : w'.hasCapacity limit' packet' = true) : w.hasCapacity limit' packet' = true := by
  obtain ⟨hopen, -, hleft, -, rfl⟩ := reserve_eq_some h
  obtain ⟨-, hactive, -⟩ := hasCapacity_iff.mp hcap
  refine hasCapacity_iff.mpr ⟨hopen, Int.lt_of_le_of_lt ?_ hactive, hleft⟩
  have hkept : without w.sessions (w.total + 1) = w.sessions :=
    List.filter_eq_self.mpr fun r hr => by simpa using fresh r hr
  unfold activeSessionsLocked
  rw [hkept, List.filter_append, List.length_append]
  omega

theorem mem_without {sessions : List SessionRef} {id : UInt16} :
    s ∈ without sessions id ↔ s ∈ sessions ∧ s.id ≠ id := by
  simp [without]

/-- `w.sessions[id]`, the lookup by which `readLoop` picks a frame's session. -/
def lookup (w : Worker) (id : UInt16) : Option SessionRef :=
  w.sessions.find? fun s => s.id == id

theorem lookup_eq_some {id : UInt16} (h : w.lookup id = some s) : s ∈ w.sessions ∧ s.id = id := by
  refine ⟨List.mem_of_find?_eq_some h, ?_⟩
  simpa using List.find?_some h

end Worker

/-! ## The ids of one carrier's life -/

/-- A worker with every session it ever reserved, oldest first. -/
structure Lifetime where
  worker : Worker
  issued : List SessionRef := []

/-- The critical sections of `w.mu` that change the worker. -/
inductive WorkerOp where
  | reserve (limit : Int) (packet : Bool)
  | removeSession (id : UInt16)
  | abandonSession (id : UInt16)
  | close
  deriving DecidableEq, Repr

namespace Lifetime

def start (maxWorkerUses : Int) : Lifetime := { worker := newWorker (poolMaxUses maxWorkerUses) }

def next (l : Lifetime) : WorkerOp → Option Lifetime
  | .reserve limit packet =>
    match l.worker.reserve limit packet with
    | none => some l
    | some (s, w) => some { worker := w, issued := l.issued ++ [s] }
  | .removeSession id => some { l with worker := (l.worker.removeSession id).1 }
  | .abandonSession id => some { l with worker := l.worker.abandonSession id }
  | .close => some { l with worker := l.worker.shutdown }

/-- The ids handed out are pairwise distinct and not zero, and the lookup for a
session's id finds no other session. -/
structure IdsDistinct (l : Lifetime) : Prop where
  nodup : (l.issued.map SessionRef.id).Nodup
  nonzero : ∀ s ∈ l.issued, s.id ≠ 0
  demux : ∀ s ∈ l.issued, ∀ found, l.worker.lookup s.id = some found → found = s

/-- While the counter has not wrapped, the ids in order of issue are 1, 2, 3, … and
the last one is the counter. -/
structure Counting (maxUses : Int) (l : Lifetime) : Prop where
  bound : l.worker.maxUses = maxUses
  length : l.issued.length = l.worker.total.toNat
  ids : ∀ k s, l.issued[k]? = some s → s.id.toNat = k + 1
  live : ∀ s ∈ l.worker.sessions, s ∈ l.issued

variable {l l' : Lifetime} {maxUses : Int}

theorem Counting.of_sessions (h : Counting maxUses l) (hbound : w.maxUses = l.worker.maxUses)
    (htotal : w.total = l.worker.total) (hlive : ∀ s ∈ w.sessions, s ∈ l.worker.sessions) :
    Counting maxUses { l with worker := w } where
  bound := hbound.trans h.bound
  length := by
    rw [htotal]
    exact h.length
  ids := h.ids
  live s hs := h.live s (hlive s hs)

theorem toNat_succ {total : UInt16} (h : total.toNat < 65535) :
    (total + 1).toNat = total.toNat + 1 := by
  change (total.toNat + 1) % 65536 = total.toNat + 1
  exact Nat.mod_eq_of_lt (by omega)

section

variable (h : Counting maxUses l)
include h

theorem Counting.reserve (hmax : maxUses ≤ 65535)
    (hr : l.worker.reserve limit packet = some (s, w)) :
    Counting maxUses { worker := w, issued := l.issued ++ [s] } := by
  obtain ⟨-, -, hlt, rfl, rfl⟩ := Worker.reserve_eq_some hr
  rw [h.bound] at hlt
  have hsucc := toNat_succ (show l.worker.total.toNat < 65535 by omega)
  refine ⟨h.bound, ?_, ?_, ?_⟩
  · rw [List.length_append, List.length_singleton, hsucc, h.length]
  · intro k found hk
    rcases Nat.lt_or_ge k l.issued.length with hlt' | hge
    · rw [List.getElem?_append_left hlt'] at hk
      exact h.ids k found hk
    · rw [List.getElem?_append_right hge] at hk
      obtain ⟨hk0, rfl⟩ : k - l.issued.length = 0 ∧ _ := by
        simpa [List.getElem?_singleton] using hk
      rw [hsucc, ← h.length]
      omega
  · intro found hfound
    rcases List.mem_append.mp hfound with hold | hnew
    · exact List.mem_append_left _ (h.live found (Worker.mem_without.mp hold).1)
    · exact List.mem_append_right _ hnew

theorem Counting.next (hmax : maxUses ≤ 65535) {op : WorkerOp} (hstep : l.next op = some l') :
    Counting maxUses l' := by
  cases op with
  | reserve limit packet =>
    simp only [Lifetime.next] at hstep
    cases hr : l.worker.reserve limit packet with
    | none =>
      rw [hr] at hstep
      cases hstep
      exact h
    | some result =>
      rw [hr] at hstep
      cases hstep
      exact h.reserve hmax hr
  | removeSession id | abandonSession id =>
    cases hstep
    exact h.of_sessions rfl rfl fun s hs => (Worker.mem_without.mp hs).1
  | close =>
    cases hstep
    exact h.of_sessions rfl rfl fun s hs => absurd hs List.not_mem_nil

theorem Counting.idsDistinct : IdsDistinct l := by
  -- Two issued sessions with one id stand at one position.
  have inj : ∀ s ∈ l.issued, ∀ t ∈ l.issued, t.id = s.id → t = s := by
    intro s hs t ht hid
    obtain ⟨i, hi⟩ := List.mem_iff_getElem?.mp hs
    obtain ⟨j, hj⟩ := List.mem_iff_getElem?.mp ht
    have hposition : j = i := by
      have hids := h.ids i s hi
      have hjds := h.ids j t hj
      rw [hid] at hjds
      omega
    rw [hposition, hi] at hj
    exact (Option.some.inj hj).symm
  refine ⟨?_, ?_, ?_⟩
  · refine List.pairwise_iff_getElem.mpr fun i j hi hj hlt heq => ?_
    simp only [List.getElem_map] at heq
    have hids := h.ids i _ (List.getElem?_eq_getElem (by simpa using hi))
    have hjds := h.ids j _ (List.getElem?_eq_getElem (by simpa using hj))
    rw [heq] at hids
    omega
  · intro s hs hzero
    obtain ⟨i, hi⟩ := List.mem_iff_getElem?.mp hs
    have hids := h.ids i s hi
    rw [hzero] at hids
    simp at hids
  · intro s hs found hfound
    obtain ⟨hmem, hid⟩ := Worker.lookup_eq_some hfound
    exact inj s hs found (h.live found hmem) hid

end

theorem counting_start (maxWorkerUses : Int) :
    Counting (poolMaxUses maxWorkerUses) (start maxWorkerUses) where
  bound := rfl
  length := rfl
  ids k s h := by simp [start] at h
  live s h := absurd h List.not_mem_nil

/-- Open one session and end it, `n` times. -/
def cycles : Nat → List WorkerOp
  | 0 => []
  | n + 1 => cycles n ++ [.reserve 1 false, .removeSession (UInt16.ofNat (n + 1))]

/-- A carrier that is never idle long enough to be closed can serve any number of
sessions up to its use limit, one at a time. -/
theorem run_cycles (maxWorkerUses : Int) (n : Nat) (hmax : (n : Int) ≤ poolMaxUses maxWorkerUses)
    (hn : n ≤ 65535) :
    ∃ l, Transition.run next (start maxWorkerUses) (cycles n) = some l ∧
      l.worker.sessions = [] ∧ l.worker.closed = false ∧ l.worker.total.toNat = n ∧
      l.worker.maxUses = poolMaxUses maxWorkerUses := by
  induction n with
  | zero => exact ⟨start maxWorkerUses, rfl, rfl, rfl, rfl, rfl⟩
  | succ n ih =>
    obtain ⟨l, hrun, hsessions, hclosed, htotal, hbound⟩ := ih (by omega) (by omega)
    have hsucc := toNat_succ (show l.worker.total.toNat < 65535 by omega)
    have hid : l.worker.total + 1 = UInt16.ofNat (n + 1) := by
      apply UInt16.toNat_inj.mp
      rw [hsucc, htotal, UInt16.toNat_ofNat', Nat.mod_eq_of_lt (by omega)]
    have hopen : ¬ (l.worker.closed = true ∨ l.worker.activeSessionsLocked false ≥ 1 ∨
        (l.worker.total.toNat : Int) ≥ l.worker.maxUses) := by
      rw [hclosed, hbound]
      simp only [Worker.activeSessionsLocked, hsessions, Bool.false_eq_true, List.filter_nil,
        List.length_nil, false_or, not_or]
      omega
    let s : SessionRef := { id := l.worker.total + 1, packet := false, ref := l.worker.opened }
    let w : Worker := { l.worker with
      idleTimer := false, total := l.worker.total + 1, opened := l.worker.opened + 1
      sessions := Worker.without l.worker.sessions s.id ++ [s] }
    have hreserve : l.worker.reserve 1 false = some (s, w) := if_neg hopen
    refine ⟨{ worker := (w.removeSession (UInt16.ofNat (n + 1))).1, issued := l.issued ++ [s] },
      ?_, ?_, hclosed, ?_, hbound⟩
    · rw [cycles, Transition.run_append_some hrun]
      simp only [Transition.run, next, hreserve, Option.bind_some]
    · simp [w, s, Worker.removeSession, Worker.without, hsessions, hid]
    · change (l.worker.total + 1).toNat = n + 1
      rw [hsucc, htotal]

/-- Past 65535 uses the counter wraps and the id 0 is handed out. -/
theorem exists_zero_id (maxWorkerUses : Int) (h : 65535 < maxWorkerUses) :
    ∃ ops l, Transition.run next (start maxWorkerUses) ops = some l ∧ ∃ s ∈ l.issued, s.id = 0 := by
  have hpool : poolMaxUses maxWorkerUses = maxWorkerUses := if_neg (by omega)
  obtain ⟨l, hrun, hsessions, hclosed, htotal, hbound⟩ :=
    run_cycles maxWorkerUses 65535 (by omega) (by omega)
  have hcap : l.worker.hasCapacity 1 false = true := by
    rw [Worker.hasCapacity_iff, hbound, hpool]
    refine ⟨hclosed, ?_, by omega⟩
    simp [Worker.activeSessionsLocked, hsessions]
  rw [← Worker.reserve_isSome] at hcap
  obtain ⟨⟨s, w⟩, hreserve⟩ := Option.isSome_iff_exists.mp hcap
  obtain ⟨-, -, -, hs, -⟩ := Worker.reserve_eq_some hreserve
  refine ⟨cycles 65535 ++ [.reserve 1 false], { worker := w, issued := l.issued ++ [s] }, ?_,
    s, List.mem_concat_self, ?_⟩
  · rw [Transition.run_append_some hrun]
    simp [Transition.run, next, hreserve]
  · rw [hs]
    apply UInt16.toNat_inj.mp
    rw [UInt16.toNat_add, htotal]
    rfl

/-- Over every run of one carrier the session ids are distinct, non-zero and
demultiplexed to their own session exactly when the configured use limit fits
the 16-bit id (0 means the default limit). -/
theorem idsDistinct_iff_maxWorkerUses_le (maxWorkerUses : Nat) :
    (∀ ops l, Transition.run next (start maxWorkerUses) ops = some l → IdsDistinct l) ↔
      maxWorkerUses ≤ 65535 := by
  constructor
  · intro h
    by_contra hgt
    obtain ⟨ops, l, hrun, s, hs, hzero⟩ :=
      exists_zero_id maxWorkerUses (by omega)
    exact (h ops l hrun).nonzero s hs hzero
  · intro hle ops l hrun
    have hmax := poolMaxUses_le (Int.ofNat_le.mpr hle)
    exact (Transition.run_invariant
      (fun _ _ _ h hstep => h.next hmax hstep) (counting_start maxWorkerUses) hrun).idsDistinct

/-- With a limit of 65536 uses, the 65536th session gets the id 0. -/
theorem not_idsDistinct_65536 :
    ¬ ∀ ops l, Transition.run next (start 65536) ops = some l → IdsDistinct l := by
  intro h
  obtain ⟨ops, l, hrun, s, hs, hzero⟩ := exists_zero_id 65536 (by decide)
  exact (h ops l hrun).nonzero s hs hzero

end Lifetime

end XrayMux
