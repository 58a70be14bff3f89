import CheezyCore.XrayMux.Capacity

/-!
# Waiting for a slot

A call that found every carrier full sleeps in `waitForSlot` until it is woken, and
then looks for a carrier with capacity. It goes back to sleep when there is none, even
when the attempts it would make after returning could dial a new carrier: the loop of
`dialSession` is entered again only through a free slot. A carrier that dies or retires
takes its slots away and gives its permit back, so the wake-up of its `release` finds
no slot and is lost.

A session that ends makes a slot and then wakes the pool. `Signalled` keeps the wake-ups
that are due in between, so that a slot without one can be told: a carrier that another
call installs comes with slots and wakes nobody.
-/

namespace XrayMux

namespace System

/-- The pool may dial a carrier under this key: it is unlimited, or it has fewer live
workers than its limit and a permit is free; and the dial budget allows it. -/
def canDial (s : System) (pool : Pool) (key : String) : Bool :=
  (pool.maxConnections ≤ 0 ||
      (s.live pool < pool.maxConnections && Permits.held s.counts key < pool.maxConnections)) &&
    pool.dialAllowed s.now

/-- The attempts of `dialSession` would give the call a session. -/
def sessionPossible (s : System) (caller : Caller) (pool : Pool) (key : String) : Bool :=
  s.slotFree caller pool || s.canDial pool key

/-- The pool that `w.onFree` wakes. -/
def onFree (s : System) (w : Nat) : List Nat := ((s.workers[w]?).map PoolWorker.pool).toList

/-- The wake-ups that a step to `s'` leaves due: `removeSession` and `abandonSession` call
`w.onFree` once they have left `w.mu`, and the end of the context of a call in
`waitForSlot` runs its `AfterFunc`. -/
def owes (s s' : System) : Action → List Nat
  | .removeSession w _ => s.onFree w
  | .advance c _ =>
    match s.callers[c]?, s'.callers[c]? with
    | some ⟨_, _, _, .openSession w _⟩, some ⟨_, _, _, .failed _⟩ => s.onFree w
    | _, _ => []
  | .cancel c =>
    match s.callers[c]? with
    | some ⟨p, _, _, .asleep _⟩ => [p]
    | _ => []
  | _ => []

end System

/-- The pools with the wake-ups that are due. -/
structure Signalled where
  system : System
  owed : List Nat := []

namespace Signalled

/-- A wake-up on its own is one that was due; `release` and `Close` send theirs within
their steps. -/
def next (n : Signalled) : System.Action → Option Signalled
  | .signalFree p =>
    if p ∈ n.owed then
      (n.system.next (.signalFree p)).map fun s => { system := s, owed := n.owed.erase p }
    else none
  | a => (n.system.next a).map fun s => { system := s, owed := n.owed ++ n.system.owes s a }

def start (options : List Options) : Signalled := { system := System.start options }

/-- The call leaves `waitForSlot` without an error and tries again, in its next step or
after a wake-up that is due. -/
def Resumes (n : Signalled) (c p : Nat) : Prop :=
  ∃ wake, (wake = [] ∨ wake = [System.Action.signalFree p]) ∧
    ∃ n', Transition.run next n (wake ++ [.advance c {}]) = some n' ∧
      (n'.system.callers[c]?).map Caller.pc = some .top

/-- A wake-up has come or is due for this call, if it sleeps in the pool `p`. -/
def heard (n : Signalled) (p : Nat) : Caller → Bool
  | ⟨q, _, _, .asleep ticket⟩ =>
    q ≠ p || n.owed.contains p || (n.system.pools[p]?).all fun pool => ticket < pool.broadcasts
  | _ => true

/-- The condition on a step: no carrier is installed while a call of its pool sleeps and no
wake-up is on its way, and no session takes the place of another in the session map. -/
def considerate (n : Signalled) : System.Action → Bool
  | .advance c _ =>
    match n.system.callers[c]? with
    | some ⟨p, _, _, .install _ _⟩ => n.system.callers.all (n.heard p)
    | some ⟨_, _, _, .reserve _ w⟩ =>
      (n.system.workers[w]?).all fun m =>
        m.worker.sessions.all fun r => r.id ≠ m.worker.total + 1
    | _ => true
  | _ => true

end Signalled

namespace System

variable {s s' : System} {c : Nat} {caller : Caller} {pool pool' : Pool} {answer : Answer}
variable {t : Turn} {a : Action} {ticket w : Nat} {pc : Pc} {limit : Int} {packet : Bool}

/-! ## Tickets -/

/-- A sleeping call took its ticket from the broadcasts so far. -/
def Ticketed (s : System) : Prop :=
  ∀ (c : Nat) (caller : Caller) (pool : Pool) (ticket : Nat), s.callers[c]? = some caller →
    s.pools[caller.pool]? = some pool → caller.pc = .asleep ticket → ticket ≤ pool.broadcasts

theorem Turns.broadcasts (h : Turns s c caller pool answer pc t) :
    t.pool.broadcasts = pool.broadcasts := by
  have heq := congrArg Pool.broadcasts h.pool_eq
  exact heq

theorem Stirs.broadcasts (h : Stirs pool pool') : pool.broadcasts ≤ pool'.broadcasts := by
  cases h with
  | signal => exact Nat.le_succ _
  | close =>
    unfold Pool.close
    split
    · exact Nat.le_refl _
    · exact Nat.le_succ _

theorem afterDial_ne_asleep (result : Dialed) :
    afterGrow result ≠ .asleep ticket ∧ afterSoftFull result ≠ .asleep ticket :=
  afterDial (P := (· ≠ .asleep ticket)) nofun nofun nofun

theorem Turns.asleep (h : Turns s c caller pool answer pc t) (hpc : t.pc = .asleep ticket) :
    ticket = pool.broadcasts ∧ s.slotFree caller pool = false := by
  cases h with
  | wander _ _ _ hticket => exact hticket ticket hpc
  | unlock => exact absurd hpc (afterDial_ne_asleep _).1
  | land | receive => exact absurd hpc (afterDial_ne_asleep _).2
  | _ => cases hpc

theorem Ticketed.next (h : Ticketed s) (hstep : s.next a = some s') : Ticketed s' := by
  intro i caller' pool' ticket hcall hhome hpc
  rcases (next_moves hstep).turn_or_passes with
    ⟨c, answer, caller, pool, t, -, call, home, turns, rfl⟩ | hpasses
  · rcases commit_cases hcall hhome with ⟨rfl, rfl, rfl⟩ | ⟨-, hold, hhome | ⟨hpool, rfl⟩⟩
    · rw [turns.broadcasts]
      exact Nat.le_of_eq (turns.asleep hpc).1
    · exact h i caller' pool' ticket hold hhome hpc
    · rw [turns.broadcasts]
      exact h i caller' pool ticket hold (hpool ▸ home) hpc
  · rcases hpasses.callers i caller' hcall with htop | ⟨caller, hold, hpool, hsame, -⟩
    · rw [htop] at hpc
      cases hpc
    · rw [hpool] at hhome
      obtain ⟨pool, home, rfl | hstirs⟩ := hpasses.pools _ _ hhome
      · exact h i caller _ ticket hold home (hsame ▸ hpc)
      · exact Nat.le_trans (h i caller pool ticket hold home (hsame ▸ hpc)) hstirs.broadcasts

/-! ## One round of `waitForSlot` -/

theorem waitForSlot_top_iff (isOpen : pool.closed = false) :
    (s.waitForSlot c caller pool).pc = .top ↔ s.slotFree caller pool = true := by
  unfold waitForSlot slotFree
  rw [any_hasCapacity_pruneLocked, isOpen, if_neg Bool.false_ne_true]
  split
  · next hfree => exact iff_of_true rfl hfree
  · next hfull =>
    split
    · exact iff_of_false nofun hfull
    · exact iff_of_false nofun hfull

theorem next_asleep (call : s.callers[c]? = some caller) (home : s.pools[caller.pool]? = some pool)
    (waiting : caller.pc = .asleep ticket) :
    s.next (.advance c {}) =
      if ticket < pool.broadcasts then some (s.commit c caller (s.waitForSlot c caller pool))
      else none := by
  simp only [next, advance, call, home, turn, waiting]
  split <;> rfl

theorem commit_waitForSlot_top_iff (call : s.callers[c]? = some caller)
    (isOpen : pool.closed = false) :
    ((s.commit c caller (s.waitForSlot c caller pool)).callers[c]?).map Caller.pc = some .top ↔
      s.slotFree caller pool = true := by
  rw [commit_callers, List.getElem?_set_self (Table.lt_length call), ← waitForSlot_top_iff isOpen]
  exact Option.some_inj

/-! ## Where slots come from -/

/-- The pool of every worker in `p.workers`, and of one about to be installed there. -/
structure Owned (s : System) : Prop where
  installed : ∀ (p : Nat) (pool : Pool), s.pools[p]? = some pool →
    ∀ w ∈ pool.workers, s.onFree w = [p]
  dialled : ∀ (c : Nat) (caller : Caller), s.callers[c]? = some caller →
    ∀ d w, caller.pc = .install d w → s.onFree w = [caller.pool]

theorem onFree_of_grows (h : Grows s.workers s'.workers) {p : Nat} (hw : s.onFree w = [p]) :
    s'.onFree w = [p] := by
  unfold onFree at hw ⊢
  cases hm : s.workers[w]? with
  | none =>
    rw [hm] at hw
    cases hw
  | some m =>
    have hlt := Table.lt_length hm
    have hlt' := Nat.lt_of_lt_of_le hlt h.length
    rcases h.entry w _ (List.getElem?_eq_getElem hlt') with ⟨old, hold, hendures⟩ | ⟨hge, -⟩
    · rw [hold] at hw
      rw [List.getElem?_eq_getElem hlt', Option.map_some, hendures.pool]
      exact hw
    · omega

theorem Owned.next (h : Owned s) (hmoves : Moves s a s') : Owned s' := by
  have hgrows := hmoves.grows
  rcases hmoves.turn_or_passes with
    ⟨c, answer, caller, pool, t, -, call, home, turns, rfl⟩ | hpasses
  · refine ⟨fun p pool' hp w hw => ?_, fun i caller' hi d w hpc => ?_⟩
    · rw [commit_pools] at hp
      rcases Table.getElem?_set_cases hp with ⟨-, hold⟩ | ⟨rfl, rfl⟩
      · exact onFree_of_grows hgrows (h.installed p pool' hold w hw)
      · rcases turns.workers_cases with hsub | ⟨d, v, hpc, hworkers, -⟩
        · exact onFree_of_grows hgrows (h.installed _ pool home w (hsub.subset hw))
        · rw [hworkers] at hw
          rcases List.mem_append.mp hw with hw | hw
          · exact onFree_of_grows hgrows (h.installed _ pool home w hw)
          · rw [List.mem_singleton.mp hw]
            exact onFree_of_grows hgrows (h.dialled c caller call d v hpc)
    · rw [commit_callers] at hi
      rcases Table.getElem?_set_cases hi with ⟨-, hold⟩ | ⟨rfl, rfl⟩
      · exact onFree_of_grows hgrows (h.dialled i caller' hold d w hpc)
      · obtain ⟨rfl, -, heffect⟩ := turns.install_cases hpc
        unfold onFree
        rw [commit_workers, heffect]
        simp
  · refine ⟨fun p pool' hp w hw => ?_, fun i caller' hi d w hpc => ?_⟩
    · obtain ⟨pool, home, hsub, -⟩ := hpasses.sublist hp
      exact onFree_of_grows hgrows (h.installed p pool home w (hsub.subset hw))
    · rcases hpasses.callers i caller' hi with htop | ⟨caller, hold, hpool, hsame, -⟩
      · rw [htop] at hpc
        cases hpc
      · rw [hpool]
        exact onFree_of_grows hgrows (h.dialled i caller hold d w (hsame ▸ hpc))

theorem hasCapacity_of_set {m new : PoolWorker} (found : s.workers[w]? = some m)
    (hcaps : new.worker.hasCapacity limit packet = true → m.worker.hasCapacity limit packet = true)
    (hworkers : s'.workers = s.workers.set w new) {v : Nat}
    (h : s'.hasCapacity limit packet v = true) : s.hasCapacity limit packet v = true := by
  unfold hasCapacity at h ⊢
  rw [hworkers] at h
  by_cases hv : w = v
  · subst hv
    rw [List.getElem?_set_self (Table.lt_length found)] at h
    rw [found]
    exact hcaps h
  · rwa [List.getElem?_set_ne hv] at h

theorem hasCapacity_shutdown (worker : Worker) :
    worker.shutdown.hasCapacity limit packet = false := rfl

/-- A call's step gives capacity to no old worker, unless it abandons a session. -/
theorem Turns.hasCapacity (h : Turns s c caller pool answer pc t)
    (fresh : ∀ attempt v m, pc = .reserve attempt v → s.workers[v]? = some m →
      ∀ r ∈ m.worker.sessions, r.id ≠ m.worker.total + 1)
    (hw : w < s.workers.length)
    (hcap : (s.commit c caller t).hasCapacity limit packet w = true) :
    s.hasCapacity limit packet w = true ∨
      ∃ id err, pc = .openSession w id ∧ t.pc = .failed err := by
  have hworkers := commit_workers s c caller t
  have hsame : (s.commit c caller t).workers = s.workers → s.hasCapacity limit packet w = true := by
    intro heq
    unfold System.hasCapacity at hcap ⊢
    rwa [heq] at hcap
  cases h with
  | reserve found _ reserved =>
    obtain ⟨limit', packet', ref, hreserve⟩ := reserved
    refine .inl (hasCapacity_of_set found (fun hnew => ?_)
      (hworkers.trans (Table.modify_of_getElem? found _)) hcap)
    exact Worker.hasCapacity_of_reserve hreserve (fresh _ _ _ rfl found) hnew
  | @abandon v id m err found =>
    by_cases hv : v = w
    · subst hv
      exact .inr ⟨id, err, rfl, rfl⟩
    · refine .inl ?_
      have hset := hworkers.trans (Table.modify_of_getElem? found _)
      unfold System.hasCapacity at hcap ⊢
      rwa [hset, List.getElem?_set_ne hv] at hcap
  | discard found =>
    refine .inl (hasCapacity_of_set found (fun hnew => ?_)
      (hworkers.trans (Table.modify_of_getElem? found _)) hcap)
    rw [hasCapacity_shutdown] at hnew
    cases hnew
  | dialed =>
    refine .inl ?_
    unfold System.hasCapacity at hcap ⊢
    rw [hworkers] at hcap
    simp only at hcap
    rwa [List.getElem?_append_left hw] at hcap
  | _ => exact .inl (hsame hworkers)

/-- Around the calls, only an ended session gives capacity to a worker. -/
theorem hasCapacity_next (hstep : s.next a = some s') (around : ∀ c answer, a ≠ .advance c answer)
    (hcap : s'.hasCapacity limit packet w = true) :
    s.hasCapacity limit packet w = true ∨ ∃ id, a = .removeSession w id := by
  have hsame : s'.workers = s.workers → s.hasCapacity limit packet w = true := by
    intro heq
    unfold System.hasCapacity at hcap ⊢
    rwa [heq] at hcap
  cases a with
  | advance c answer => exact absurd rfl (around c answer)
  | call p entry metadata =>
    simp only [next] at hstep
    split at hstep
    · split at hstep <;> cases hstep <;> exact .inl (hsame rfl)
    · cases hstep
  | tick elapsed =>
    cases hstep
    exact .inl (hsame rfl)
  | cancel c | signalFree p | closePool p =>
    obtain ⟨x, -, rfl⟩ := Option.map_eq_some_iff.mp hstep
    exact .inl (hsame rfl)
  | removeSession v id =>
    obtain ⟨m, found, rfl⟩ := Option.map_eq_some_iff.mp hstep
    by_cases hv : v = w
    · subst hv
      exact .inr ⟨id, rfl⟩
    · refine .inl ?_
      unfold System.hasCapacity at hcap ⊢
      rwa [List.getElem?_set_ne hv] at hcap
  | closeWorker v =>
    simp only [next, closeWorker] at hstep
    split at hstep
    · cases hstep
    · next m found =>
      obtain ⟨-, rfl⟩ := Transition.of_guard hstep
      refine .inl (hasCapacity_of_set found (fun hnew => ?_) rfl hcap)
      rw [hasCapacity_shutdown] at hnew
      cases hnew
  | release v =>
    simp only [next, release] at hstep
    split at hstep
    · cases hstep
    · next m found =>
      obtain ⟨-, rfl⟩ := Transition.of_guard hstep
      refine .inl (hasCapacity_of_set found ?_ rfl hcap)
      exact id
  | finishClose v =>
    simp only [next, finishClose] at hstep
    split at hstep
    · cases hstep
    · next m found =>
      obtain ⟨-, hsignal⟩ := Transition.of_guard_bind hstep
      obtain ⟨pool, -, rfl⟩ := Option.map_eq_some_iff.mp hsignal
      refine .inl (hasCapacity_of_set found ?_ rfl hcap)
      exact id

theorem exists_of_slotFree (h : s.slotFree caller pool = true) : ∃ w ∈ pool.workers,
    s.hasCapacity (pool.hard caller.entry.packet) caller.entry.packet w = true :=
  List.any_eq_true.mp h

theorem Turns.hard (h : Turns s c caller pool answer pc t) (packet : Bool) :
    t.pool.hard packet = pool.hard packet := by
  have heq := congrArg (Pool.hard · packet) h.pool_eq
  exact heq

end System

/-! ## Wake-ups -/

namespace Signalled

open XrayMux.System

variable {n n' : Signalled} {c : Nat} {caller : Caller} {pool : Pool} {ticket : Nat}
variable {a : System.Action}

/-- A step is a wake-up that was due, or a step of the pools that may leave some due. -/
theorem next_cases (h : n.next a = some n') : n.system.next a = some n'.system ∧
    ((∃ p, a = .signalFree p ∧ n'.owed = n.owed.erase p) ∨
      n'.owed = n.owed ++ n.system.owes n'.system a) := by
  cases a with
  | signalFree p =>
    obtain ⟨s, hs, rfl⟩ := Option.map_eq_some_iff.mp (Transition.of_guard_bind h).2
    exact ⟨hs, .inl ⟨p, rfl, rfl⟩⟩
  | tick elapsed =>
    cases h
    exact ⟨rfl, .inr rfl⟩
  | _ =>
    obtain ⟨s, hs, rfl⟩ := Option.map_eq_some_iff.mp h
    exact ⟨hs, .inr rfl⟩

/-- A sleeping call of an open pool with a free slot has been woken, or a wake-up of its
pool is due. -/
def Heard (n : Signalled) : Prop :=
  ∀ (c : Nat) (caller : Caller) (pool : Pool) (ticket : Nat),
    n.system.callers[c]? = some caller → n.system.pools[caller.pool]? = some pool →
    pool.closed = false → caller.pc = .asleep ticket → n.system.slotFree caller pool = true →
    ticket < pool.broadcasts ∨ caller.pool ∈ n.owed

theorem considerate_install (h : n.considerate (.advance c answer) = true)
    (call : n.system.callers[c]? = some caller) {d : Dial} {w : Nat}
    (hpc : caller.pc = .install d w) {i : Nat} {other : Caller}
    (hother : n.system.callers[i]? = some other) (hpool : other.pool = caller.pool)
    (home : n.system.pools[caller.pool]? = some pool) (waiting : other.pc = .asleep ticket) :
    ticket < pool.broadcasts ∨ caller.pool ∈ n.owed := by
  obtain ⟨p, entry, done, pc⟩ := caller
  obtain ⟨q, entry', done', pc'⟩ := other
  obtain rfl : pc = .install d w := hpc
  obtain rfl : pc' = .asleep ticket := waiting
  obtain rfl : q = p := hpool
  have hhome : n.system.pools[q]? = some pool := home
  simp only [considerate, call, List.all_eq_true] at h
  have hheard := h _ (List.mem_of_getElem? hother)
  simpa [heard, hhome, or_comm] using hheard

theorem considerate_reserve (h : n.considerate (.advance c answer) = true)
    (call : n.system.callers[c]? = some caller) {attempt : Attempt} {w : Nat} {m : PoolWorker}
    (hpc : caller.pc = .reserve attempt w) (found : n.system.workers[w]? = some m) :
    ∀ r ∈ m.worker.sessions, r.id ≠ m.worker.total + 1 := by
  obtain ⟨p, entry, done, pc⟩ := caller
  obtain rfl : pc = .reserve attempt w := hpc
  simpa [considerate, call, found] using h

theorem Heard.signal (h : Heard n) (ticketed : Ticketed n.system) {p : Nat}
    (hstep : n.system.next (.signalFree p) = some n'.system)
    (howed : n'.owed = n.owed.erase p) : Heard n' := by
  intro i caller pool' ticket hcall hhome hopen hwaiting hfree
  obtain ⟨pool, home, hs'⟩ := Option.map_eq_some_iff.mp hstep
  rw [← hs'] at hcall hhome hfree
  rcases Table.getElem?_set_cases hhome with ⟨hne, hold⟩ | ⟨rfl, rfl⟩
  · rw [howed, List.mem_erase_of_ne (Ne.symm hne)]
    exact h i caller pool' ticket hcall hold hopen hwaiting hfree
  · exact .inl (Nat.lt_succ_of_le (ticketed i caller pool ticket hcall home hwaiting))

section

variable (h : Heard n) (owned : Owned n.system)
include h owned

theorem Heard.turn (roster : Roster n.system) {answer : Answer}
    (ok : n.considerate (.advance c answer) = true)
    (hstep : n.system.next (.advance c answer) = some n'.system)
    (howed : n'.owed = n.owed ++ n.system.owes n'.system (.advance c answer)) : Heard n' := by
  intro i caller' pool' ticket hcall hhome hopen hwaiting hfree
  obtain ⟨caller, pool, t, call, home, turns, hcommit⟩ := advance_turns hstep
  obtain ⟨v, hv, hcap⟩ := exists_of_slotFree hfree
  have hfresh := fun attempt v m (hpc : caller.pc = .reserve attempt v) =>
    considerate_reserve ok call hpc (m := m)
  rw [hcommit] at hcall hhome hcap
  rcases commit_cases hcall hhome with ⟨rfl, rfl, rfl⟩ | ⟨hne, hold, hpools⟩
  · -- The call that moved went to sleep because it found no slot.
    have hnone := (turns.asleep hwaiting).2
    rcases turns.workers_cases with hsub | ⟨d, w, hpc, -, -⟩
    · have hmem := hsub.subset hv
      rcases turns.hasCapacity hfresh (roster.known _ pool home v hmem) hcap with
        hhad | ⟨id, err, -, hfailed⟩
      · rw [turns.hard] at hhad
        have hfree : n.system.slotFree caller pool = true := List.any_eq_true.mpr ⟨v, hmem, hhad⟩
        rw [hnone] at hfree
        cases hfree
      · rw [show t.pc = .asleep ticket from hwaiting] at hfailed
        cases hfailed
    · rw [hpc] at turns
      cases turns with
      | install | late => cases hwaiting
      | wander here | giveUp here => cases here
  · -- Another call than the one that moved.
    have hbefore : ∀ {pool : Pool}, n.system.pools[caller'.pool]? = some pool →
        pool.closed = false → pool.hard caller'.entry.packet = pool'.hard caller'.entry.packet →
        v ∈ pool.workers → ticket < pool.broadcasts ∨ caller'.pool ∈ n'.owed := by
      intro pool home' hopen' hhard hmem
      have hlt := roster.known _ pool home' v hmem
      rw [howed]
      rcases turns.hasCapacity hfresh hlt hcap with hhad | ⟨id, err, hpc, hfailed⟩
      · refine (h i caller' pool ticket hold home' hopen' hwaiting ?_).imp_right
          (List.mem_append_left _)
        exact List.any_eq_true.mpr ⟨v, hmem, by rw [hhard]; exact hhad⟩
      · -- The abandoned session's worker is in this pool, which is owed its wake-up.
        refine .inr (List.mem_append_right _ ?_)
        have hself : n'.system.callers[c]? = some { caller with pc := t.pc } := by
          rw [hcommit, commit_callers, List.getElem?_set_self (Table.lt_length call)]
        obtain ⟨p, entry, done, pc⟩ := caller
        obtain rfl : pc = .openSession v id := hpc
        rw [hfailed] at hself
        simp [owes, call, hself, owned.installed _ pool home' v hmem]
    rcases hpools with hhome | ⟨hpool, rfl⟩
    · exact hbefore hhome hopen rfl hv
    · rw [turns.closed] at hopen
      rw [hpool] at home
      rw [turns.broadcasts]
      rcases turns.workers_cases with hsub | ⟨d, w, hpc, -, -⟩
      · exact hbefore home hopen (turns.hard _).symm (hsub.subset hv)
      · rw [howed, ← hpool]
        exact (considerate_install ok call hpc hold hpool.symm (hpool ▸ home) hwaiting).imp_right
          (List.mem_append_left _)

theorem Heard.around (ticketed : Ticketed n.system) (hstep : n.system.next a = some n'.system)
    (around : ∀ c answer, a ≠ .advance c answer)
    (howed : n'.owed = n.owed ++ n.system.owes n'.system a) : Heard n' := by
  intro i caller' pool' ticket hcall hhome hopen hwaiting hfree
  obtain ⟨v, hv, hcap⟩ := exists_of_slotFree hfree
  rcases (next_moves hstep).turn_or_passes with ⟨c, answer, -, -, -, hact, -⟩ | hpasses
  · exact absurd hact (around c answer)
  · rcases hpasses.callers i caller' hcall with htop | ⟨caller, hold, hpool, hsame, -, hentry⟩
    · rw [htop] at hwaiting
      cases hwaiting
    · rw [hsame] at hwaiting
      rw [hpool] at hhome ⊢
      obtain ⟨pool, home, rfl | hstirs⟩ := hpasses.pools _ _ hhome
      · rw [howed]
        rcases hasCapacity_next hstep around hcap with hhad | ⟨id, rfl⟩
        · refine (h i caller _ ticket hold home hopen hwaiting ?_).imp_right
            (List.mem_append_left _)
          rw [hentry] at hhad
          exact List.any_eq_true.mpr ⟨v, hv, hhad⟩
        · refine .inr (List.mem_append_right _ ?_)
          rw [owes, owned.installed _ _ home v hv]
          exact List.mem_singleton_self _
      · cases hstirs with
        | signal =>
          have hle := ticketed i caller pool ticket hold home hwaiting
          exact .inl (Nat.lt_succ_of_le hle)
        | close =>
          unfold Pool.close at hopen
          split at hopen
          · next hclosed =>
            rw [hclosed] at hopen
            cases hopen
          · cases hopen

end

/-- What every run of considerate steps keeps. -/
structure Attended (n : Signalled) : Prop where
  ticketed : Ticketed n.system
  roster : Roster n.system
  owned : Owned n.system
  heard : Heard n

theorem Attended.next (h : Attended n) (ok : n.considerate a = true)
    (hstep : n.next a = some n') : Attended n' := by
  obtain ⟨hsystem, howed⟩ := next_cases hstep
  have hmoves := next_moves hsystem
  refine ⟨h.ticketed.next hsystem, h.roster.next hmoves, h.owned.next hmoves, ?_⟩
  rcases howed with ⟨p, rfl, howed⟩ | howed
  · exact h.heard.signal h.ticketed hsystem howed
  · cases a with
    | advance c answer => exact h.heard.turn h.owned h.roster ok hsystem howed
    | _ => exact h.heard.around h.owned h.ticketed hsystem nofun howed

theorem attended_start (options : List Options) : Attended (start options) where
  ticketed c caller pool ticket h := by simp [start, System.start] at h
  roster := roster_start options
  owned := by
    refine ⟨fun p pool hp w hw => ?_, fun c caller h => by simp [start, System.start] at h⟩
    obtain ⟨opts, -, rfl⟩ := List.mem_map.mp (List.mem_of_getElem? hp)
    exact absurd hw List.not_mem_nil
  heard c caller pool ticket h := by simp [start, System.start] at h

section

variable (call : n.system.callers[c]? = some caller)
  (home : n.system.pools[caller.pool]? = some pool) (isOpen : pool.closed = false)
  (waiting : caller.pc = .asleep ticket)
include call home isOpen waiting

/-- A call that resumes finds a slot. -/
theorem slotFree_of_resumes (h : n.Resumes c caller.pool) :
    n.system.slotFree caller pool = true := by
  have hround : ∀ {s : System} {pool : Pool}, s.callers[c]? = some caller →
      s.pools[caller.pool]? = some pool → pool.closed = false → ∀ {n' : Signalled},
      s.next (.advance c {}) = some n'.system →
      (n'.system.callers[c]?).map Caller.pc = some .top → s.slotFree caller pool = true := by
    intro s pool hcall hhome hopen n' hstep htop
    rw [next_asleep hcall hhome waiting] at hstep
    obtain ⟨-, hs⟩ := Transition.of_guard hstep
    rw [← hs, commit_waitForSlot_top_iff hcall hopen] at htop
    exact htop
  obtain ⟨wake, rfl | rfl, n', hrun, htop⟩ := h
  · obtain ⟨after, hstep, ⟨⟩⟩ := Option.bind_eq_some_iff.mp hrun
    exact hround call home isOpen (next_cases hstep).1 htop
  · obtain ⟨woken, hsignal, hrun⟩ := Option.bind_eq_some_iff.mp hrun
    obtain ⟨after, hstep, ⟨⟩⟩ := Option.bind_eq_some_iff.mp hrun
    obtain ⟨old, hold, hwoken⟩ := Option.map_eq_some_iff.mp (next_cases hsignal).1
    rw [home] at hold
    cases hold
    have hslot : woken.system.slotFree caller pool.signalFree = true := by
      refine hround ?_ ?_ isOpen (next_cases hstep).1 htop
      · rw [← hwoken]
        exact call
      · rw [← hwoken]
        exact List.getElem?_set_self (Table.lt_length home)
    rw [← hwoken] at hslot
    exact hslot

/-- Where a slot is free, the wake-up has come or is due, and the call resumes. -/
theorem Attended.resumes (h : Attended n) (hfree : n.system.slotFree caller pool = true) :
    n.Resumes c caller.pool := by
  have hround : ∀ {m : Signalled} {pool : Pool}, m.system.callers[c]? = some caller →
      m.system.pools[caller.pool]? = some pool → pool.closed = false →
      m.system.slotFree caller pool = true → ticket < pool.broadcasts →
      ∃ n', Transition.run Signalled.next m [.advance c {}] = some n' ∧
        (n'.system.callers[c]?).map Caller.pc = some .top := by
    intro m pool hcall hhome hopen hfree hlt
    have hstep := next_asleep hcall hhome waiting
    rw [if_pos hlt] at hstep
    simp only [Transition.run, Signalled.next, hstep, Option.map_some, Option.bind_some]
    exact ⟨_, rfl, (commit_waitForSlot_top_iff hcall hopen).mpr hfree⟩
  rcases h.heard c caller pool ticket call home isOpen waiting hfree with hlt | hdue
  · exact ⟨[], .inl rfl, hround call home isOpen hfree hlt⟩
  · have hsignal : n.system.next (.signalFree caller.pool) =
        some { n.system with pools := n.system.pools.set caller.pool pool.signalFree } := by
      simp [System.next, signalFree, home]
    refine ⟨[.signalFree caller.pool], .inr rfl, ?_⟩
    rw [List.singleton_append, Transition.run_cons]
    simp only [Signalled.next, if_pos hdue, hsignal, Option.map_some, Option.bind_some]
    refine hround call (List.getElem?_set_self (Table.lt_length home)) isOpen hfree ?_
    exact Nat.lt_succ_of_le (h.ticketed c caller pool ticket call home waiting)

end

/-- In every state that considerate steps reach, a call that sleeps in `waitForSlot` of an
open pool and could get a session resumes by the wake-up of the event that made this
possible, if and only if a slot is free or no carrier can be dialled. -/
theorem resumes_iff_slotFree_or_not_canDial (options : List Options) (actions : List System.Action)
    (considerate : Transition.Guarded next (fun n a => n.considerate a = true) (start options)
      actions)
    (h : Transition.run next (start options) actions = some n)
    (call : n.system.callers[c]? = some caller) (home : n.system.pools[caller.pool]? = some pool)
    (isOpen : pool.closed = false) (waiting : caller.pc = .asleep ticket) (key : String) :
    (n.system.sessionPossible caller pool key = true → n.Resumes c caller.pool) ↔
      (n.system.slotFree caller pool = true ∨ n.system.canDial pool key = false) := by
  have hattended : Attended n := Transition.guarded_invariant
    (fun _ _ _ h hok hstep => h.next hok hstep) (attended_start options) considerate h
  constructor
  · intro hresumes
    cases hdial : n.system.canDial pool key with
    | false => exact .inr rfl
    | true =>
      refine .inl (slotFree_of_resumes call home isOpen waiting (hresumes ?_))
      rw [sessionPossible, hdial, Bool.or_true]
  · rintro (hfree | hno) hpossible
    · exact hattended.resumes call home isOpen waiting hfree
    · rw [sessionPossible, hno, Bool.or_false] at hpossible
      exact hattended.resumes call home isOpen waiting hpossible

/-! ## A lost wake-up -/

/-- One carrier with as many sessions as its hard limit, and a fifth call asleep. -/
def fullRun : List System.Action :=
  List.replicate 5 (System.Action.call 0 .dialContext (some .TCP)) ++
  List.replicate 9 (System.Action.advance 0 { key := "203.0.113.9:443" }) ++
  List.replicate 11 (System.Action.advance 1 { key := "203.0.113.9:443" }) ++
  List.replicate 11 (System.Action.advance 2 { key := "203.0.113.9:443" }) ++
  List.replicate 11 (System.Action.advance 3 { key := "203.0.113.9:443" }) ++
  List.replicate 10 (System.Action.advance 4 { key := "203.0.113.9:443" })

/-- Where the call `c` is, how far its pool is, and what the call could do. -/
def prospects (s : System) (c : Nat) (key : String) : Option (Pc × Bool × Nat × Bool × Bool) :=
  (s.callers[c]?).bind fun caller => (s.pools[caller.pool]?).map fun pool =>
    (caller.pc, pool.closed, pool.broadcasts, s.slotFree caller pool, s.canDial pool key)

/-- Where the call `c` gets to in `n` steps of its own, from the top of the loop. -/
def retry (s : System) (c : Nat) (key : String) (n : Nat) : Option Pc :=
  (s.callers[c]?).bind fun caller =>
    (Transition.run System.next { s with callers := s.callers.set c { caller with pc := .top } }
      (List.replicate n (.advance c { key }))).bind fun s' => (s'.callers[c]?).map Caller.pc

theorem prospects_eq_some {s : System} {key : String} {pc : Pc} {closed slot dial : Bool}
    {broadcasts : Nat} (h : prospects s c key = some (pc, closed, broadcasts, slot, dial)) :
    ∃ caller pool, s.callers[c]? = some caller ∧ s.pools[caller.pool]? = some pool ∧
      caller.pc = pc ∧ pool.closed = closed ∧ pool.broadcasts = broadcasts ∧
      s.slotFree caller pool = slot ∧ s.canDial pool key = dial := by
  obtain ⟨caller, hcall, hrest⟩ := Option.bind_eq_some_iff.mp h
  obtain ⟨pool, home, ⟨⟩⟩ := Option.map_eq_some_iff.mp hrest
  exact ⟨caller, pool, hcall, home, rfl, rfl, rfl, rfl, rfl⟩

/-- A session ends and the sleeping call resumes by the wake-up that is then due. -/
theorem resumes_fullRun :
    ∃ n, Transition.run next (start oneCarrier) (fullRun ++ [System.Action.removeSession 0 1]) =
        some n ∧ n.Resumes 4 0 := by
  refine Transition.exists_of_map
    (f := fun n => (prospects n.system 4 "203.0.113.9:443",
      (n.system.callers[4]?).map Caller.pool))
    (b := (some (.asleep 0, false, 0, true, false), some 0)) rfl fun n hrun hstate => ?_
  obtain ⟨hprospects, hpool⟩ := Prod.mk.inj hstate
  obtain ⟨caller, pool, call, home, hwaiting, hopen, -, hslot, -⟩ := prospects_eq_some hprospects
  rw [call] at hpool
  rw [← show caller.pool = 0 from Option.some.inj hpool]
  refine (resumes_iff_slotFree_or_not_canDial oneCarrier _ (by decide) hrun call home hopen
    hwaiting "203.0.113.9:443").mpr (.inl hslot) ?_
  rw [sessionPossible, hslot]
  rfl

/-- The carrier dies, its permit is back and the pool is woken: the attempts of the sleeping
call would dial a new carrier and open a session, but the wake-up sends it back to sleep. -/
theorem not_resumes_fullRun :
    ∃ n caller pool, Transition.run next (start oneCarrier)
        (fullRun ++ [System.Action.closeWorker 0, .release 0, .finishClose 0]) = some n ∧
      n.system.callers[4]? = some caller ∧ n.system.pools[caller.pool]? = some pool ∧
      caller.pc = .asleep 0 ∧ pool.closed = false ∧ pool.broadcasts = 1 ∧
      n.system.sessionPossible caller pool "203.0.113.9:443" = true ∧
      retry n.system 4 "203.0.113.9:443" 9 = some (.opened 1 1) ∧ ¬ n.Resumes 4 caller.pool := by
  have hview : (Transition.run next (start oneCarrier)
      (fullRun ++ [System.Action.closeWorker 0, .release 0, .finishClose 0])).map
      (fun n => (prospects n.system 4 "203.0.113.9:443",
        retry n.system 4 "203.0.113.9:443" 9)) =
        some (some (.asleep 0, false, 1, false, true), some (.opened 1 1)) := rfl
  obtain ⟨n, hrun, hstate⟩ := Option.map_eq_some_iff.mp hview
  obtain ⟨hprospects, hretry⟩ := Prod.mk.inj hstate
  obtain ⟨caller, pool, call, home, hwaiting, hopen, hwoken, hslot, hdial⟩ :=
    prospects_eq_some hprospects
  refine ⟨n, caller, pool, hrun, call, home, hwaiting, hopen, hwoken, ?_, hretry,
    fun hresumes => ?_⟩
  · rw [sessionPossible, hslot, hdial]
    rfl
  · have hfree := slotFree_of_resumes call home hopen hwaiting hresumes
    rw [hslot] at hfree
    cases hfree

end Signalled

end XrayMux
