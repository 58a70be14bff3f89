import CheezyCore.XrayMux.PoolSteps

/-!
# Permit conservation

A permit taken by one of the dial paths is given back on the error exit of that path,
or goes to the new worker and is given back by its `release` closure, however the
worker ends and also when the pool was closed during the dial. Over all pools and all
interleavings the registry therefore counts, for each key, exactly the capped dials in
flight and the workers not yet released.

The holders are read off the state: the program counters of the calls and the workers.
A step exchanges permits between them and the registry in one of four ways
(`Exchange`), and each is a rule of `Permits.Holds`.
-/

namespace XrayMux

open PoolWorker

/-- The permit of a dial path or a worker; an uncapped pool has none. -/
def permitOf (key : String) : Option String := if key = "" then none else some key

/-- The permit of a dial in flight: until it has failed and given it back, or the
connection is a worker. -/
def Pc.permit : Pc → Option String
  | .dial d => permitOf d.permitKey
  | .undo d _ => permitOf d.permitKey
  | _ => none

/-- The permit of a worker whose `release` has not run. -/
def PoolWorker.permit (m : PoolWorker) : Option String :=
  if m.released then none else permitOf m.permitKey

theorem permitOf_of_ne {key : String} (h : key ≠ "") : permitOf key = some key := if_neg h

/-- The holder of a permit, with the limit of its pool. -/
def Caller.holder (limit : Nat → Int) (caller : Caller) : Option (String × Int) :=
  caller.pc.permit.map fun key => (key, limit caller.pool)

def PoolWorker.holder (limit : Nat → Int) (m : PoolWorker) : Option (String × Int) :=
  m.permit.map fun key => (key, limit m.pool)

variable {pc : Pc}

theorem Pc.permit_of_plain (h : pc.plain = true) : pc.permit = none := by
  cases pc <;> first | rfl | cases h

namespace System

theorem permit_afterDial (result : Dialed) :
    (afterGrow result).permit = none ∧ (afterSoftFull result).permit = none :=
  afterDial (P := (·.permit = none)) (fun _ _ => rfl) (fun _ => rfl) fun _ _ _ => rfl

/-- `MaxConnections` of a pool. -/
def maxConnections (s : System) (p : Nat) : Int := ((s.pools[p]?).map Pool.maxConnections).getD 0

def dialsInFlight (s : System) (key : String) : Nat :=
  s.callers.countP fun caller => caller.pc.permit = some key

def unreleased (s : System) (key : String) : Nat :=
  s.workers.countP fun m => m.permit = some key

/-- The pool has a dial in flight or an unreleased worker under the key. -/
def Uses (s : System) (p : Nat) (key : String) : Prop :=
  (∃ caller ∈ s.callers, caller.pool = p ∧ caller.pc.permit = some key) ∨
    ∃ m ∈ s.workers, m.pool = p ∧ m.permit = some key

/-- The registry counts the capped dials in flight and the unreleased workers, within
the limit of a pool that uses the key, and forgets a key that nobody holds. -/
structure PermitsConserved (s : System) : Prop where
  count : ∀ key, Permits.held s.counts key = s.dialsInFlight key + s.unreleased key
  bound : ∀ key, 0 < Permits.held s.counts key →
    ∃ p pool, s.pools[p]? = some pool ∧ s.Uses p key ∧
      (Permits.held s.counts key : Int) ≤ pool.maxConnections
  absent : ∀ key, s.dialsInFlight key + s.unreleased key = 0 → s.counts key = none

/-- Everyone who holds a permit. -/
def holders (limit : Nat → Int) (s : System) : List (String × Int) :=
  s.callers.filterMap (Caller.holder limit) ++ s.workers.filterMap (holder limit)

/-- The invariant behind conservation. Flights have a key, so a permit of a soft-full
dial is never mistaken for the absence of one. -/
structure Ledger (limit : Nat → Int) (s : System) : Prop where
  limits : s.maxConnections = limit
  keyed : ∀ (f : Nat) (fl : Flight), s.flights[f]? = some fl → fl.key ≠ ""
  holds : Permits.Holds s.counts (holders limit s)

variable {s s' : System} {c : Nat} {caller : Caller} {pool : Pool} {answer : Answer}
variable {limit : Nat → Int} {t : Turn} {a : Action}

/-! ## One turn -/

/-- The effects that leave the registry and the permits of workers alone. -/
def quiet : Effect → Bool
  | .permits _ => false
  | .newWorker _ => false
  | _ => true

/-- What a turn does with permits: nothing, take one, give one back, or pass one to a
new worker. -/
inductive Exchange (s : System) (pool : Pool) (pc : Pc) (t : Turn) : Prop
  | keep (same : t.pc.permit = pc.permit) (effect : quiet t.effect = true)
  | take {key counts} (before : pc.permit = none)
      (after : t.pc.permit = some key) (effect : t.effect = .permits counts)
      (granted : Permits.acquire s.counts key pool.maxConnections = some counts)
  | give {key} (before : pc.permit = some key) (after : t.pc.permit = none)
      (effect : t.effect = .permits (Permits.release s.counts key))
  | pass {key} (before : pc.permit = permitOf key) (after : t.pc.permit = none)
      (effect : t.effect = .newWorker key)

section

variable (keyed : ∀ (f : Nat) (fl : Flight), s.flights[f]? = some fl → fl.key ≠ "")
include keyed

theorem Keyed.ne_empty {packet : Bool} {key : String} {path : Path}
    (h : Keyed s pool packet key path) : key ≠ "" := by
  cases path with
  | grow => exact h.1
  | flight f =>
    obtain ⟨⟨fl, hfl, rfl⟩, -⟩ := h
    exact keyed f fl hfl

theorem Turns.exchange (h : Turns s c caller pool answer pc t) : Exchange s pool pc t := by
  cases h with
  | wander here there =>
    exact .keep ((Pc.permit_of_plain there).trans (Pc.permit_of_plain here).symm) rfl
  | giveUp here => exact .keep (Pc.permit_of_plain here).symm rfl
  | acquire _ _ hkeyed granted =>
    exact .take rfl (permitOf_of_ne (hkeyed.ne_empty keyed)) rfl granted
  | dialed => exact .pass rfl rfl rfl
  | undo capped => exact .give (permitOf_of_ne capped) rfl rfl
  | @skipUndo d err uncapped =>
    refine .keep ?_ rfl
    change none = permitOf d.permitKey
    rw [uncapped]
    rfl
  | unlock => exact .keep (permit_afterDial _).1 rfl
  | land | receive => exact .keep (permit_afterDial _).2 rfl
  | _ => exact .keep rfl rfl

end

/-! ## The registry and the holders -/

theorem Caller.holder_eq (limit : Nat → Int) (caller : Caller) {permit : Option String}
    (h : caller.pc.permit = permit) :
    caller.holder limit = permit.map fun key => (key, limit caller.pool) := by
  rw [Caller.holder, h]

theorem commit_counts_of_quiet (h : quiet t.effect = true) :
    (s.commit c caller t).counts = s.counts := by
  unfold commit
  cases heffect : t.effect with
  | permits counts =>
    rw [heffect] at h
    cases h
  | _ => rfl

theorem commit_workers_of_quiet (h : quiet t.effect = true) :
    ((s.commit c caller t).workers.filterMap (holder limit)).Perm
      (s.workers.filterMap (holder limit)) := by
  unfold commit
  cases heffect : t.effect with
  | newWorker key =>
    rw [heffect] at h
    cases h
  | worker w worker =>
    change ((s.workers.modify w _).filterMap _).Perm _
    cases hw : s.workers[w]? with
    | none => rw [List.modify_eq_self (List.getElem?_eq_none_iff.mp hw)]
    | some m =>
      rw [Table.modify_of_getElem? hw]
      exact Table.filterMap_set_same hw rfl
  | _ => exact .refl _

section Exchanges

variable (h : Ledger limit s) (call : s.callers[c]? = some caller)
include h call

theorem Ledger.holds_take (home : s.pools[caller.pool]? = some pool) {key : String}
    {counts : String → Option Nat} (before : caller.pc.permit = none) (after : pc.permit = some key)
    (granted : Permits.acquire s.counts key pool.maxConnections = some counts) :
    Permits.Holds counts
      ((s.callers.set c { caller with pc }).filterMap (Caller.holder limit) ++
        s.workers.filterMap (holder limit)) := by
  have htaken := Table.filterMap_set_take call (Caller.holder_eq limit caller before)
    (Caller.holder_eq limit { caller with pc } after)
  have hlimit : limit caller.pool = pool.maxConnections := by
    rw [← h.limits, maxConnections, home]
    rfl
  rw [hlimit] at htaken
  exact (h.holds.acquire granted).perm (htaken.symm.append_right _)

theorem Ledger.holds_give {key : String} (before : caller.pc.permit = some key)
    (after : pc.permit = none) : Permits.Holds (Permits.release s.counts key)
      ((s.callers.set c { caller with pc }).filterMap (Caller.holder limit) ++
        s.workers.filterMap (holder limit)) := by
  have hgiven := Table.filterMap_set_give call (Caller.holder_eq limit caller before)
    (Caller.holder_eq limit { caller with pc } after)
  exact Permits.Holds.release (h.holds.perm (hgiven.append_right _))

theorem Ledger.holds_pass {key : String} (before : caller.pc.permit = permitOf key)
    (after : pc.permit = none) (worker : Worker) : Permits.Holds s.counts
      ((s.callers.set c { caller with pc }).filterMap (Caller.holder limit) ++
        (s.workers ++ [(⟨worker, caller.pool, key, false⟩ : PoolWorker)]).filterMap
          (holder limit)) := by
  have hholder : holder limit ⟨worker, caller.pool, key, false⟩ =
      caller.holder limit := by
    rw [Caller.holder_eq limit caller before]
    rfl
  have hpassed := @Table.filterMap_set_perm _ _ _ _ _ { caller with pc } (Caller.holder limit) call
  rw [Caller.holder_eq limit { caller with pc } after] at hpassed
  refine h.holds.perm ((hpassed.symm.append_right _).trans ?_)
  rw [List.filterMap_append, Table.filterMap_cons_eq, hholder, List.filterMap_nil,
    List.append_nil, List.append_assoc]
  exact (List.perm_append_comm_assoc _ _ _).trans (List.perm_append_comm.append_left _)

end Exchanges

/-- The registry stays in agreement with the holders over a turn. -/
theorem Ledger.holds_turn (h : Ledger limit s) (call : s.callers[c]? = some caller)
    (home : s.pools[caller.pool]? = some pool) (turns : Turns s c caller pool answer caller.pc t) :
    Permits.Holds (s.commit c caller t).counts (holders limit (s.commit c caller t)) := by
  unfold holders
  rw [commit_callers]
  cases turns.exchange h.keyed with
  | keep same effect =>
    rw [commit_counts_of_quiet effect]
    refine h.holds.perm (List.Perm.append ?_ (commit_workers_of_quiet effect)).symm
    refine Table.filterMap_set_same call ?_
    rw [Caller.holder_eq limit { caller with pc := t.pc } same]
    rfl
  | take before after effect granted =>
    rw [commit, effect]
    exact h.holds_take call home before after granted
  | give before after effect =>
    rw [commit, effect]
    exact h.holds_give call before after
  | pass before after effect =>
    rw [commit, effect]
    exact h.holds_pass call before after _

/-! ## One step of the system -/

theorem maxConnections_set {p : Nat} {pool' : Pool} (home : s.pools[p]? = some pool)
    (hpools : s'.pools = s.pools.set p pool') (same : pool'.maxConnections = pool.maxConnections) :
    s'.maxConnections = s.maxConnections := by
  funext q
  unfold maxConnections
  rw [hpools]
  by_cases hq : p = q
  · subst hq
    rw [List.getElem?_set_self (Table.lt_length home), home, Option.map_some,
      Option.map_some, same]
  · rw [List.getElem?_set_ne hq]

theorem Stirs.maxConnections {pool' : Pool} (h : Stirs pool pool') :
    pool'.maxConnections = pool.maxConnections := by
  cases h with
  | signal => rfl
  | close =>
    unfold Pool.close
    split <;> rfl

theorem Turns.maxConnections (h : Turns s c caller pool answer pc t) :
    t.pool.maxConnections = pool.maxConnections := by
  have heq := congrArg Pool.maxConnections h.pool_eq
  exact heq

theorem Moves.maxConnections (h : Moves s a s') : s'.maxConnections = s.maxConnections := by
  cases h with
  | turn call home turns =>
    exact maxConnections_set home (commit_pools _ _ _ _) turns.maxConnections
  | finishClose found home => exact maxConnections_set home rfl rfl
  | stir home stirs => exact maxConnections_set home rfl stirs.maxConnections
  | _ => rfl

/-- A flight of the new state is an old one, perhaps with another joiner or its result,
or it was started by this turn. -/
theorem commit_flight {f : Nat} {fl : Flight}
    (h : (s.commit c caller t).flights[f]? = some fl) :
    (∃ old, s.flights[f]? = some old ∧ fl.key = old.key) ∨ t.effect = .fly fl.key := by
  unfold commit at h
  cases heffect : t.effect with
  | fly key =>
    rw [heffect] at h
    rcases Table.getElem?_concat_cases h with hold | ⟨-, rfl⟩
    · exact .inl ⟨fl, hold, rfl⟩
    · exact .inr rfl
  | join g | land g result =>
    rw [heffect] at h
    obtain ⟨old, hold, hcases⟩ := Table.getElem?_modify_cases h
    rcases hcases with ⟨-, rfl⟩ | ⟨-, rfl⟩
    · exact .inl ⟨_, hold, rfl⟩
    · exact .inl ⟨old, hold, rfl⟩
  | _ =>
    rw [heffect] at h
    exact .inl ⟨fl, h, rfl⟩

theorem Turns.fly_ne_empty {key : String} (h : Turns s c caller pool answer pc t)
    (effect : t.effect = .fly key) : key ≠ "" := by
  cases h with
  | fly =>
    cases effect
    exact endpointKey_ne_empty answer.key
  | _ => cases effect

theorem Moves.keyed (h : Moves s a s')
    (keyed : ∀ (f : Nat) (fl : Flight), s.flights[f]? = some fl → fl.key ≠ "") :
    ∀ (f : Nat) (fl : Flight), s'.flights[f]? = some fl → fl.key ≠ "" := by
  cases h with
  | turn call home turns =>
    intro f fl hfl
    rcases commit_flight hfl with ⟨old, hold, hkey⟩ | heffect
    · rw [hkey]
      exact keyed f old hold
    · exact turns.fly_ne_empty heffect
  | _ => exact keyed

theorem Ledger.holds_release (h : Ledger limit s) {w : Nat} {m : PoolWorker}
    (found : s.workers[w]? = some m) (unreleased : m.released = false) :
    Permits.Holds
      (if m.permitKey ≠ "" then Permits.release s.counts m.permitKey else s.counts)
      (s.callers.filterMap (Caller.holder limit) ++
        (s.workers.set w { m with released := true }).filterMap (holder limit)) := by
  split
  · next hkey =>
    have hholder : m.holder limit = some (m.permitKey, limit m.pool) := by
      rw [holder, permit, unreleased, permitOf_of_ne hkey]
      rfl
    have hgiven := Table.filterMap_set_give found hholder
      (show holder limit { m with released := true } = none from rfl)
    exact Permits.Holds.release (h.holds.perm ((hgiven.append_left _).trans List.perm_middle))
  · next hkey =>
    have hholder : m.holder limit = none := by
      rw [holder, permit, unreleased, not_not.mp hkey]
      rfl
    refine h.holds.perm (List.Perm.append_left _ ?_).symm
    exact Table.filterMap_set_same found hholder.symm

theorem Ledger.next (h : Ledger limit s) (hstep : s.next a = some s') : Ledger limit s' := by
  have hmoves := next_moves hstep
  refine ⟨hmoves.maxConnections.trans h.limits, hmoves.keyed h.keyed, ?_⟩
  cases hmoves with
  | refuse | stir | tick => exact h.holds
  | call =>
    refine h.holds.perm (List.Perm.append_right _ ?_)
    rw [List.filterMap_append]
    exact .of_eq (List.append_nil _).symm
  | turn call home turns => exact h.holds_turn call home turns
  | cancel call =>
    refine h.holds.perm (List.Perm.append_right _ ?_).symm
    exact Table.filterMap_set_same call rfl
  | work found | finishClose found =>
    refine h.holds.perm (List.Perm.append_left _ ?_).symm
    exact Table.filterMap_set_same found rfl
  | release found running unreleased => exact h.holds_release found unreleased

theorem ledger_start (options : List Options) :
    Ledger (start options).maxConnections (start options) where
  limits := rfl
  keyed f fl h := by simp [start] at h
  holds := Permits.Holds.start

/-! ## Conservation -/

theorem tally_filterMap {α : Type*} (table : List α) (permit : α → Option String)
    (limitOf : α → Int) (key : String) :
    Permits.tally (table.filterMap fun a => (permit a).map fun k => (k, limitOf a)) key =
      table.countP fun a => permit a = some key := by
  induction table with
  | nil => rfl
  | cons a rest ih =>
    rw [Table.filterMap_cons_eq, List.countP_cons, ← ih]
    cases hpermit : permit a with
    | none => simp
    | some k => simp [Permits.tally_cons]

theorem Ledger.tally_eq (key : String) :
    Permits.tally (holders limit s) key = s.dialsInFlight key + s.unreleased key := by
  have happend : Permits.tally (holders limit s) key =
      Permits.tally (s.callers.filterMap (Caller.holder limit)) key +
        Permits.tally (s.workers.filterMap (holder limit)) key := by
    simp [Permits.tally, holders]
  rw [happend]
  exact congrArg₂ (· + ·) (tally_filterMap s.callers _ _ key) (tally_filterMap s.workers _ _ key)

theorem uses_of_mem_holders {key : String} {n : Int} (h : (key, n) ∈ holders limit s) :
    ∃ p, s.Uses p key ∧ limit p = n := by
  rcases List.mem_append.mp h with hcaller | hworker
  · obtain ⟨caller, hmem, hholder⟩ := List.mem_filterMap.mp hcaller
    obtain ⟨k, hpermit, ⟨⟩⟩ := Option.map_eq_some_iff.mp hholder
    exact ⟨caller.pool, .inl ⟨caller, hmem, rfl, hpermit⟩, rfl⟩
  · obtain ⟨m, hmem, hholder⟩ := List.mem_filterMap.mp hworker
    obtain ⟨k, hpermit, ⟨⟩⟩ := Option.map_eq_some_iff.mp hholder
    exact ⟨m.pool, .inr ⟨m, hmem, rfl, hpermit⟩, rfl⟩

theorem Ledger.permitsConserved (h : Ledger limit s) : PermitsConserved s where
  count key := (h.holds.held_eq key).trans (Ledger.tally_eq key)
  bound key hpos := by
    obtain ⟨n, hmem, hle⟩ := h.holds.exists_limit hpos
    obtain ⟨p, huses, rfl⟩ := uses_of_mem_holders hmem
    rw [← h.limits, maxConnections] at hle
    cases hpool : s.pools[p]? with
    | none =>
      rw [hpool] at hle
      change (Permits.held s.counts key : Int) ≤ 0 at hle
      omega
    | some pool =>
      rw [hpool] at hle
      exact ⟨p, pool, hpool, huses, hle⟩
  absent key hzero := by
    rw [h.holds.entry, Ledger.tally_eq, if_pos hzero]

/-- In every run of any number of pools the permits are conserved. -/
theorem permitsConserved_of_run (options : List Options) (actions : List Action)
    (h : Transition.run next (start options) actions = some s) : PermitsConserved s :=
  (Transition.run_invariant
    (fun _ _ _ hledger hstep => hledger.next hstep) (ledger_start options) h).permitsConserved

/-- Two pools share an endpoint: the first has a worker, the second is dialling, and a
further call of the first, at its limit, is about to wait. -/
def sharedRun : List Action :=
  [Action.call 0 .dialContext (some .TCP), .call 1 .listenPacketContext (some .UDP),
    .call 0 .dialContext (some .TCP)] ++
  List.replicate 9 (Action.advance 0 { key := "203.0.113.2:443" }) ++
  List.replicate 4 (Action.advance 1 { key := "203.0.113.2:443" }) ++
  List.replicate 8 (Action.advance 2 { key := "203.0.113.2:443" })

def sharedOptions : List Options :=
  [{ concurrency := 1, maxConnections := 1 }, { maxConnections := 2 }]

theorem permitsConserved_sharedRun :
    ∃ s, Transition.run next (start sharedOptions) sharedRun = some s ∧
      Permits.held s.counts "203.0.113.2:443" = 2 ∧ PermitsConserved s := by
  have hheld : (Transition.run next (start sharedOptions) sharedRun).map
      (fun s => Permits.held s.counts "203.0.113.2:443") = some 2 := rfl
  obtain ⟨s, hrun, hcount⟩ := Option.map_eq_some_iff.mp hheld
  exact ⟨s, hrun, hcount, permitsConserved_of_run sharedOptions sharedRun hrun⟩

end System

end XrayMux
