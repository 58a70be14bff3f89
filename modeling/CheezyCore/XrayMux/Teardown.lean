import Mathlib.Data.List.Nodup
import CheezyCore.Foundation.Table
import CheezyCore.XrayMux.Worker

/-!
# Tearing a carrier down

`worker.close`, `session.finishWithCause` and `worker.removeSession` call each
other: closing a worker finishes its sessions, finishing a session removes it from
the worker, and removing the last session of a used-up worker closes the worker.
Both `close` and `finishWithCause` run inside a `sync.Once`, and a call of `Do`
from inside its own body never returns.

The functions here return `Except Stuck`: an error is a goroutine that blocks for
ever. `finishWithCause` is split where its body writes the End frame, because that
write can take long: a session may be found with its body in progress. Waiting for
such a body is running the rest of it.
-/

namespace XrayMux

/-- The part of a session that ending it reads and writes. `pending` is the cause
with which the `once` body in progress will end. -/
structure Session where
  id : UInt16
  once : Once := .idle
  pending : Option Err := none
  newClosed : Bool := false
  done : Bool := false
  cause : Option Err := none
  deriving DecidableEq, Repr

/-- A session after `finishWithCause`: a body in progress keeps its own cause. -/
def Session.finished (cause : Option Err) (s : Session) : Session :=
  if s.once = .idle then
    { s with once := .done, pending := cause, newClosed := true, done := true, cause }
  else { s with once := .done, done := true, cause := s.pending }

/-- A worker with its session objects, the End frames it wrote (id and option),
and the number of times `onFree` and `release` ran. -/
structure Carrier where
  worker : Worker
  objects : List Session := []
  ends : List (UInt16 × UInt8) := []
  connClosed : Bool := false
  woken : Nat := 0
  released : Nat := 0
  deriving DecidableEq, Repr

/-- Why a call never returns. `fuel` is an artefact of the recursion bound. -/
inductive Stuck where
  | nestedDo
  | fuel
  deriving DecidableEq, Repr

/-- An iteration order of a Go map, which is any order. -/
structure MapOrder where
  visit : List SessionRef → List SessionRef
  perm : ∀ sessions, (visit sessions).Perm sessions

namespace Carrier

/-- Replace the session object `ref`. -/
def update (c : Carrier) (ref : Nat) (f : Session → Session) : Carrier :=
  { c with objects := c.objects.modify ref f }

/-- `removeSession`, given the `close` that it calls. -/
def removeSession (close : Carrier → Option Err → Except Stuck Carrier) (c : Carrier)
    (id : UInt16) : Except Stuck Carrier :=
  let r := c.worker.removeSession id
  let c := { c with worker := r.1, woken := c.woken + 1 }
  if r.2 then close c (some .netClosed) else .ok c

/-- The `once` body of `finishWithCause` up to and including the End frame. -/
def beginFinish (c : Carrier) (ref : Nat) (sendEnd withError : Bool) (cause : Option Err) :
    Carrier :=
  let option := if withError then optionError else 0
  let ends :=
    match c.objects[ref]? with
    | some s => if sendEnd && !c.worker.closed then c.ends ++ [(s.id, option)] else c.ends
    | none => c.ends
  { c.update ref fun s => { s with once := .running, pending := cause, newClosed := true } with
    ends }

/-- The rest of the `once` body of `finishWithCause` for a session with this id. -/
def endFinish (close : Carrier → Option Err → Except Stuck Carrier) (c : Carrier) (ref : Nat)
    (id : UInt16) : Except Stuck Carrier := do
  let c := c.update ref fun s => { s with cause := s.pending, done := true }
  let c ← removeSession close c id
  return c.update ref fun s => { s with once := .done }

def finishWithCause (close : Carrier → Option Err → Except Stuck Carrier) (c : Carrier)
    (ref : Nat) (sendEnd withError : Bool) (cause : Option Err) : Except Stuck Carrier :=
  match c.objects[ref]? with
  | none => .ok c
  | some s =>
    match s.once with
    | .done => .ok c
    | .running => endFinish close c ref s.id
    | .idle => endFinish close (c.beginFinish ref sendEnd withError cause) ref s.id

/-- The `closeOnce` body of `worker.close`. -/
def closeBody (order : MapOrder) (close : Carrier → Option Err → Except Stuck Carrier)
    (c : Carrier) (cause : Option Err) : Except Stuck Carrier := do
  let cause := cause.getD .netClosed
  let sessions := order.visit c.worker.sessions
  let c := { c with worker := c.worker.shutdown, connClosed := true }
  let c ← sessions.foldlM (fun c s => finishWithCause close c s.ref false false (some cause)) c
  return { c with worker := { c.worker with closeOnce := .done }, released := c.released + 1 }

/-- `worker.close`. The fuel bounds how often it is entered. -/
def close (order : MapOrder) : Nat → Carrier → Option Err → Except Stuck Carrier
  | 0, _, _ => .error .fuel
  | fuel + 1, c, cause =>
    match c.worker.closeOnce with
    | .done => .ok c
    | .running => .error .nestedDo
    | .idle => closeBody order (close order fuel) c cause

def abandonSession (close : Carrier → Option Err → Except Stuck Carrier) (c : Carrier)
    (ref : Nat) (cause : Err) : Except Stuck Carrier :=
  match c.objects[ref]? with
  | none => .ok c
  | some s => do
      let c := { c with worker := c.worker.abandonSession s.id }
      let c ← match s.once with
        | .done => .ok c
        | .running => endFinish close c ref s.id
        | .idle => .ok <| c.update ref fun s =>
          { s with once := .done, newClosed := true, done := true, cause := some cause }
      return { c with woken := c.woken + 1 }

def reserve (c : Carrier) (limit : Int) (packet : Bool) : Carrier :=
  match c.worker.reserve limit packet with
  | none => c
  | some (s, w) => { c with worker := w, objects := c.objects ++ [{ id := s.id }] }

/-- What goroutines do to a carrier: open a session, start to end one, go on with
ending one, give one up, close the carrier. -/
inductive Op where
  | reserve (limit : Int) (packet : Bool)
  | beginFinish (ref : Nat) (sendEnd withError : Bool) (cause : Option Err)
  | endFinish (ref : Nat)
  | abandonSession (ref : Nat) (cause : Err)
  | close (cause : Option Err)
  deriving DecidableEq, Repr

/-- A call that is stuck has no next state. -/
def next (order : MapOrder) (c : Carrier) : Op → Option Carrier
  | .reserve limit packet => some (c.reserve limit packet)
  | .beginFinish ref sendEnd withError cause =>
    match c.objects[ref]? with
    | some s => if s.once = .idle then some (c.beginFinish ref sendEnd withError cause) else none
    | none => none
  | .endFinish ref =>
    match c.objects[ref]? with
    | some s =>
      if s.once = .running then (endFinish (close order 2) c ref s.id).toOption else none
    | none => none
  | .abandonSession ref cause => (c.abandonSession (close order 2) ref cause).toOption
  | .close cause => (c.close order 2 cause).toOption

def start (maxWorkerUses : Int) : Carrier := { worker := newWorker (poolMaxUses maxWorkerUses) }

/-! ## The closing loop -/

variable {order : MapOrder} {c c' : Carrier} {fuel ref : Nat} {s : Session}

/-- The worker is inside its `closeOnce` body and has uses left. -/
structure Closing (w : Worker) : Prop where
  sessions : w.sessions = []
  closed : w.closed = true
  uses : (w.total.toNat : Int) < w.maxUses

theorem Closing.removeSession {w : Worker} (h : Closing w) (id : UInt16) :
    w.removeSession id = (w, false) := by
  have huses := h.uses
  cases w with
  | mk sessions maxUses total closed idleTimer closeOnce opened =>
    obtain rfl : sessions = [] := h.sessions
    obtain rfl : closed = true := h.closed
    simpa [Worker.removeSession, Worker.without] using huses

section Finish

variable {close : Carrier → Option Err → Except Stuck Carrier} {ref : Nat} {s : Session}
variable {sendEnd withError : Bool} {cause : Option Err}

theorem finishWithCause_running (hs : c.objects[ref]? = some s) (honce : s.once = .running) :
    finishWithCause close c ref sendEnd withError cause = endFinish close c ref s.id := by
  simp [finishWithCause, hs, honce]

theorem finishWithCause_idle (hs : c.objects[ref]? = some s) (honce : s.once = .idle) :
    finishWithCause close c ref sendEnd withError cause =
      endFinish close (c.beginFinish ref sendEnd withError cause) ref s.id := by
  simp [finishWithCause, hs, honce]

end Finish

/-- While the worker closes with uses left, finishing a session touches nothing but
that session. -/
theorem finishWithCause_closing (close : Carrier → Option Err → Except Stuck Carrier)
    (hw : Closing c.worker) (hs : c.objects[ref]? = some s) (hlive : s.once ≠ .done)
    (cause : Option Err) :
    ∃ c', finishWithCause close c ref false false cause = .ok c' ∧ c'.worker = c.worker ∧
      c'.released = c.released ∧ c'.objects.length = c.objects.length ∧
      ∀ k, c'.objects[k]? =
        (c.objects[k]?).map fun t => if ref = k then Session.finished cause t else t := by
  have hend : ∀ {b : Carrier}, b.worker = c.worker →
      endFinish close b ref s.id = .ok
        { (b.update ref fun s => { s with cause := s.pending, done := true }).update ref
            fun s => { s with once := .done } with
          worker := c.worker, woken := b.woken + 1 } := by
    intro b hb
    simp [endFinish, Carrier.removeSession, update, hb, hw.removeSession, Bind.bind, Except.bind,
      Pure.pure, Except.pure]
  cases honce : s.once with
  | done => exact absurd honce hlive
  | running | idle =>
    first
    | rw [finishWithCause_running hs honce]
    | rw [finishWithCause_idle hs honce]
    refine ⟨_, hend rfl, rfl, rfl, by simp [beginFinish, update], fun k => ?_⟩
    simp only [beginFinish, update, List.getElem?_modify, Option.map_eq_map, Option.map_map]
    by_cases hk : ref = k
    · subst hk
      simp [hs, Session.finished, honce]
    · simp [hk, Function.comp_def]

/-- The loop of `close`: every session of the list is finished, nothing else changes. -/
theorem foldlM_finishWithCause (close : Carrier → Option Err → Except Stuck Carrier)
    (cause : Option Err) (sessions : List SessionRef) (hw : Closing c.worker)
    (hrefs : (sessions.map SessionRef.ref).Nodup)
    (hlive : ∀ e ∈ sessions, ∃ s, c.objects[e.ref]? = some s ∧ s.once ≠ .done) :
    ∃ c', sessions.foldlM (fun c e => finishWithCause close c e.ref false false cause) c = .ok c' ∧
      c'.worker = c.worker ∧ c'.released = c.released ∧ c'.objects.length = c.objects.length ∧
      ∀ k, c'.objects[k]? = (c.objects[k]?).map fun t =>
        if k ∈ sessions.map SessionRef.ref then Session.finished cause t else t := by
  induction sessions generalizing c with
  | nil => exact ⟨c, rfl, rfl, rfl, rfl, fun k => by simp⟩
  | cons e rest ih =>
    rw [List.map_cons, List.nodup_cons] at hrefs
    obtain ⟨s, hs, honce⟩ := hlive e List.mem_cons_self
    obtain ⟨b, hstep, hworker, hreleased, hlength, hobjects⟩ :=
      finishWithCause_closing close hw hs honce cause
    have hne : ∀ r ∈ rest, e.ref ≠ r.ref := fun r hr heq =>
      hrefs.1 (heq ▸ List.mem_map_of_mem hr)
    obtain ⟨c', hrun, hworker', hreleased', hlength', hobjects'⟩ :=
      ih (by rw [hworker]; exact hw) hrefs.2 fun r hr => by
        obtain ⟨t, ht, hto⟩ := hlive r (List.mem_cons_of_mem _ hr)
        refine ⟨t, ?_, hto⟩
        rw [hobjects, ht, Option.map_some, if_neg (hne r hr)]
    refine ⟨c', ?_, hworker'.trans hworker, hreleased'.trans hreleased,
      hlength'.trans hlength, fun k => ?_⟩
    · rw [List.foldlM_cons, hstep]
      exact hrun
    · rw [hobjects', hobjects, Option.map_map]
      congr 1
      funext t
      by_cases hk : e.ref = k
      · subst hk
        simp [hrefs.1]
      · simp [hk, Ne.symm hk]

/-! ## Reachable carriers -/

/-- Between two operations a worker is either open, or closed, empty and released
once. The sessions in its map are objects whose end is not over. -/
structure Consistent (c : Carrier) : Prop where
  live : ∀ e ∈ c.worker.sessions, ∃ s, c.objects[e.ref]? = some s ∧ s.id = e.id ∧ s.once ≠ .done
  refs : (c.worker.sessions.map SessionRef.ref).Nodup
  count : c.objects.length = c.worker.opened
  phase : (c.worker.closeOnce = .idle ∧ c.worker.closed = false ∧ c.released = 0) ∨
    (c.worker.closeOnce = .done ∧ c.worker.closed = true ∧ c.released = 1 ∧ c.worker.sessions = [])

theorem consistent_start (maxWorkerUses : Int) : Consistent (start maxWorkerUses) where
  live _ he := absurd he List.not_mem_nil
  refs := List.nodup_nil
  count := rfl
  phase := .inl ⟨rfl, rfl, rfl⟩

section

variable (h : Consistent c)
include h

/-- A change of one object that keeps its id and does not end a session of the map. -/
theorem Consistent.update (ref : Nat) {f : Session → Session} (hid : ∀ s, (f s).id = s.id)
    (hf : (∀ s, s.once ≠ .done → (f s).once ≠ .done) ∨ ∀ e ∈ c.worker.sessions, e.ref ≠ ref) :
    Consistent (c.update ref f) where
  __ := h
  live e he := by
    obtain ⟨s, hs, hsid, honce⟩ := h.live e he
    refine ⟨if ref = e.ref then f s else s, ?_, ?_, ?_⟩
    · simp [Carrier.update, List.getElem?_modify, hs]
    · split
      · exact (hid s).trans hsid
      · exact hsid
    · split
      · next heq =>
        rcases hf with hf | hf
        · exact hf s honce
        · exact absurd heq.symm (hf e he)
      · exact honce
  count := by simpa [Carrier.update] using h.count

/-- Entries leave the map; the wake-up counter and the timer are free. -/
theorem Consistent.shrink (woken : Nat) {w : Worker}
    (hsessions : w.sessions.Sublist c.worker.sessions) (hopened : w.opened = c.worker.opened)
    (honce : w.closeOnce = c.worker.closeOnce) (hclosed : w.closed = c.worker.closed) :
    Consistent { c with worker := w, woken } where
  live e he := h.live e (hsessions.mem he)
  refs := h.refs.sublist (hsessions.map _)
  count := h.count.trans hopened.symm
  phase := by
    rcases h.phase with ⟨ho, hc, hr⟩ | ⟨ho, hc, hr, hs⟩
    · exact .inl ⟨honce.trans ho, hclosed.trans hc, hr⟩
    · rw [hs] at hsessions
      exact .inr ⟨honce.trans ho, hclosed.trans hc, hr, List.sublist_nil.mp hsessions⟩

/-- A session whose id was deleted from the map has no entry in it. -/
theorem Consistent.not_mem_without (hs : c.objects[ref]? = some s) :
    ∀ e ∈ Worker.without c.worker.sessions s.id, e.ref ≠ ref := by
  intro e he heq
  obtain ⟨hmem, hne⟩ := Worker.mem_without.mp he
  obtain ⟨t, ht, htid, -⟩ := h.live e hmem
  rw [heq, hs] at ht
  cases ht
  exact hne htid.symm

theorem Consistent.reserve (limit : Int) (packet : Bool) : Consistent (c.reserve limit packet) := by
  unfold Carrier.reserve
  cases hr : c.worker.reserve limit packet with
  | none => exact h
  | some result =>
    obtain ⟨e, w⟩ := result
    obtain ⟨hclosed, -, -, rfl, rfl⟩ := Worker.reserve_eq_some hr
    have hbound : ∀ e ∈ c.worker.sessions, e.ref < c.worker.opened := by
      intro e he
      obtain ⟨s, hs, -⟩ := h.live e he
      rw [← h.count]
      exact Table.lt_length hs
    have hsub : (Worker.without c.worker.sessions (c.worker.total + 1)).Sublist
        c.worker.sessions := List.filter_sublist
    refine ⟨?_, ?_, ?_, ?_⟩
    · intro e he
      rcases Table.mem_concat he with hold | rfl
      · obtain ⟨s, hs, hid, honce⟩ := h.live e (hsub.mem hold)
        refine ⟨s, ?_, hid, honce⟩
        exact Table.getElem?_append hs _
      · refine ⟨{ id := c.worker.total + 1 }, ?_, rfl, nofun⟩
        simp [← h.count]
    · simp only [List.map_append, List.map_cons, List.map_nil]
      refine List.nodup_append.mpr ⟨h.refs.sublist (hsub.map _), List.nodup_singleton _, ?_⟩
      intro k hk m hm heq
      obtain ⟨e, he, rfl⟩ := List.mem_map.mp hk
      have hlt := hbound e (hsub.mem he)
      rw [List.mem_singleton.mp hm] at heq
      omega
    · simp [h.count]
    · rcases h.phase with ⟨ho, hc, hz⟩ | ⟨-, hc, -⟩
      · exact .inl ⟨ho, hc, hz⟩
      · rw [hc] at hclosed
        cases hclosed

end

/-! ## When `close` returns -/

/-- What a `close` that returned has done. -/
structure TornDown (c : Carrier) (cause : Err) (c' : Carrier) : Prop where
  once : c'.worker.closeOnce = .done
  closed : c'.worker.closed = true
  sessions : c'.worker.sessions = []
  opened : c'.worker.opened = c.worker.opened
  length : c'.objects.length = c.objects.length
  released : c'.released = c.released + 1
  objects : ∀ k, c'.objects[k]? = (c.objects[k]?).map fun s =>
    if k ∈ c.worker.sessions.map SessionRef.ref then Session.finished (some cause) s else s

section Close

variable (order) (close' : Carrier → Option Err → Except Stuck Carrier) (cause : Option Err)

/-- The state in which the loop of `close` starts. -/
def emptied (c : Carrier) : Carrier :=
  { c with worker := c.worker.shutdown, connClosed := true }

theorem closeBody_of_loop {b : Carrier}
    (hloop : (order.visit c.worker.sessions).foldlM
      (fun c s => finishWithCause close' c s.ref false false (some (cause.getD .netClosed)))
      (emptied c) = .ok b)
    (hworker : b.worker = c.worker.shutdown) (hreleased : b.released = c.released)
    (hlength : b.objects.length = c.objects.length)
    (hobjects : ∀ k, b.objects[k]? = (c.objects[k]?).map fun s =>
      if k ∈ (order.visit c.worker.sessions).map SessionRef.ref then
        Session.finished (some (cause.getD .netClosed)) s else s) :
    ∃ c', closeBody order close' c cause = .ok c' ∧ TornDown c (cause.getD .netClosed) c' := by
  refine ⟨{ b with worker := { b.worker with closeOnce := .done }, released := b.released + 1 },
    ?_, rfl, ?_, ?_, ?_, hlength, congrArg (· + 1) hreleased, fun k => ?_⟩
  · change (List.foldlM _ (emptied c) _ >>= _) = _
    rw [hloop]
    rfl
  · simp [hworker, Worker.shutdown]
  · simp [hworker, Worker.shutdown]
  · simp [hworker, Worker.shutdown]
  · simp only [hobjects, ((order.perm _).map _).mem_iff]

theorem closeBody_of_empty (h : c.worker.sessions = []) :
    ∃ c', closeBody order close' c cause = .ok c' ∧ TornDown c (cause.getD .netClosed) c' := by
  have hvisit : order.visit c.worker.sessions = [] := by
    rw [h]
    exact (order.perm []).eq_nil
  refine closeBody_of_loop order close' cause (b := emptied c) ?_ rfl rfl rfl fun k => ?_
  · rw [hvisit]
    rfl
  · simp [hvisit, emptied]

theorem closeBody_of_uses (h : Consistent c)
    (huses : (c.worker.total.toNat : Int) < c.worker.maxUses) :
    ∃ c', closeBody order close' c cause = .ok c' ∧ TornDown c (cause.getD .netClosed) c' := by
  have hperm := order.perm c.worker.sessions
  obtain ⟨b, hloop, hworker, hreleased, hlength, hobjects⟩ :=
    foldlM_finishWithCause (c := emptied c) close' (some (cause.getD .netClosed))
      (order.visit c.worker.sessions) ⟨rfl, rfl, huses⟩
      ((hperm.map _).nodup_iff.mpr h.refs) fun e he => by
        obtain ⟨s, hs, -, honce⟩ := h.live e (hperm.mem_iff.mp he)
        exact ⟨s, hs, honce⟩
  exact closeBody_of_loop order close' cause hloop hworker hreleased hlength hobjects

/-- Inside the `closeOnce` body of a used-up worker, removing a session closes the
worker again and blocks. -/
theorem endFinish_stuck {b : Carrier} (honce : b.worker.closeOnce = .running)
    (hsessions : b.worker.sessions = []) (huses : (b.worker.total.toNat : Int) ≥ b.worker.maxUses)
    (fuel ref : Nat) (id : UInt16) :
    ∃ why, endFinish (close order fuel) b ref id = .error why := by
  have hshould : (b.worker.removeSession id).2 = true := by
    simpa [Worker.removeSession, Worker.without, hsessions] using huses
  cases fuel with
  | zero =>
    refine ⟨.fuel, ?_⟩
    simp [endFinish, Carrier.removeSession, update, hshould, close, Bind.bind, Except.bind]
  | succ fuel =>
    have hrunning : (b.worker.removeSession id).1.closeOnce = .running := honce
    refine ⟨.nestedDo, ?_⟩
    simp [endFinish, Carrier.removeSession, update, hshould, close, hrunning, Bind.bind,
      Except.bind]

section

variable (h : Consistent c) (honce : c.worker.closeOnce = .idle)
include h honce

theorem close_stuck (hsessions : c.worker.sessions ≠ [])
    (huses : (c.worker.total.toNat : Int) ≥ c.worker.maxUses) (fuel : Nat) (cause : Option Err) :
    ∃ why, close order fuel c cause = .error why := by
  cases fuel with
  | zero => exact ⟨.fuel, rfl⟩
  | succ fuel =>
    have hperm := order.perm c.worker.sessions
    obtain ⟨e, rest, hvisit⟩ : ∃ e rest, order.visit c.worker.sessions = e :: rest := by
      refine List.exists_cons_of_ne_nil fun hnil => hsessions ?_
      rw [hnil] at hperm
      exact hperm.symm.eq_nil
    obtain ⟨s, hs, -, hlive⟩ := h.live e (hperm.mem_iff.mp (hvisit ▸ List.mem_cons_self))
    -- The first session of the loop already gets stuck, begun by another goroutine or not.
    obtain ⟨why, hfirst⟩ : ∃ why, finishWithCause (close order fuel) (emptied c) e.ref false false
        (some (cause.getD .netClosed)) = .error why := by
      cases hso : s.once with
      | done => exact absurd hso hlive
      | running =>
        rw [finishWithCause_running (c := emptied c) hs hso]
        exact endFinish_stuck order (b := emptied c) rfl rfl huses fuel _ _
      | idle =>
        rw [finishWithCause_idle (c := emptied c) hs hso]
        exact endFinish_stuck order (b := (emptied c).beginFinish _ _ _ _) rfl rfl huses
          fuel _ _
    refine ⟨why, ?_⟩
    rw [close, honce]
    change (List.foldlM _ (emptied c) _ >>= _) = _
    rw [hvisit, List.foldlM_cons, hfirst]
    rfl

theorem TornDown.consistent {cause : Err} (t : TornDown c cause c') : Consistent c' := by
  obtain ⟨-, -, hreleased⟩ : _ ∧ _ ∧ c.released = 0 := by
    rcases h.phase with hopen | ⟨hdone, -⟩
    · exact hopen
    · rw [honce] at hdone
      cases hdone
  refine ⟨?_, ?_, ?_, .inr ⟨t.once, t.closed, ?_, t.sessions⟩⟩
  · rw [t.sessions]
    exact fun e he => absurd he List.not_mem_nil
  · rw [t.sessions]
    exact List.nodup_nil
  · rw [t.length, t.opened, h.count]
  · rw [t.released, hreleased]

end

/-- A worker can be torn down unless it is used up and has sessions. -/
theorem Consistent.closeBody (h : Consistent c)
    (hcond : c.worker.sessions = [] ∨ (c.worker.total.toNat : Int) < c.worker.maxUses) :
    ∃ c', closeBody order close' c cause = .ok c' ∧ TornDown c (cause.getD .netClosed) c' := by
  rcases hcond with hempty | huses
  · exact closeBody_of_empty order close' cause hempty
  · exact closeBody_of_uses order close' cause h huses

variable {order cause}

theorem Consistent.close (h : Consistent c) (hclose : close order (fuel + 1) c cause = .ok c') :
    Consistent c' ∧ c'.worker.sessions = [] := by
  rcases h.phase with ⟨honce, -⟩ | ⟨hdone, -, -, hsessions⟩
  · by_cases hcond : c.worker.sessions = [] ∨ (c.worker.total.toNat : Int) < c.worker.maxUses
    · obtain ⟨d, hbody, torn⟩ := h.closeBody order (Carrier.close order fuel) cause hcond
      rw [Carrier.close, honce] at hclose
      cases hbody.symm.trans hclose
      exact ⟨torn.consistent h honce, torn.sessions⟩
    · rw [not_or, Int.not_lt] at hcond
      obtain ⟨why, hstuck⟩ := close_stuck order h honce hcond.1 hcond.2 (fuel + 1) cause
      rw [hstuck] at hclose
      cases hclose
  · rw [Carrier.close, hdone] at hclose
    cases hclose
    exact ⟨h, hsessions⟩

theorem Consistent.endFinish (h : Consistent c) (hs : c.objects[ref]? = some s)
    (hend : endFinish (Carrier.close order (fuel + 1)) c ref s.id = .ok c') : Consistent c' := by
  have hb : Consistent (c.update ref fun s => { s with cause := s.pending, done := true }) :=
    h.update ref (fun _ => rfl) (.inl fun _ hlive => hlive)
  have hgone : ∀ e ∈ Worker.without c.worker.sessions s.id, e.ref ≠ ref := h.not_mem_without hs
  have hshrunk := hb.shrink (c.woken + 1) (w := (c.worker.removeSession s.id).1)
    List.filter_sublist rfl rfl rfl
  obtain ⟨d, hremove, rfl⟩ :
      ∃ d, Carrier.removeSession (Carrier.close order (fuel + 1))
        (c.update ref fun s => { s with cause := s.pending, done := true }) s.id = .ok d ∧
        d.update ref (fun s => { s with once := .done }) = c' := by
    simp only [Carrier.endFinish] at hend
    cases hd : Carrier.removeSession (Carrier.close order (fuel + 1))
        (c.update ref fun s => { s with cause := s.pending, done := true }) s.id with
    | error why =>
      rw [hd] at hend
      cases hend
    | ok d =>
      rw [hd] at hend
      exact ⟨d, rfl, Except.ok.inj hend⟩
  simp only [Carrier.removeSession] at hremove
  split at hremove
  · obtain ⟨hd, hempty⟩ := hshrunk.close hremove
    refine hd.update ref (fun _ => rfl) (.inr fun e he => ?_)
    rw [hempty] at he
    exact absurd he List.not_mem_nil
  · cases hremove
    exact hshrunk.update ref (fun _ => rfl) (.inr hgone)

theorem Consistent.abandonSession (h : Consistent c) {cause : Err}
    (habandon : c.abandonSession (Carrier.close order (fuel + 1)) ref cause = .ok c') :
    Consistent c' := by
  unfold Carrier.abandonSession at habandon
  cases hs : c.objects[ref]? with
  | none =>
    rw [hs] at habandon
    cases habandon
    exact h
  | some s =>
    rw [hs] at habandon
    have hb := h.shrink c.woken (w := c.worker.abandonSession s.id)
      List.filter_sublist rfl rfl rfl
    cases honce : s.once with
    | done =>
      simp only [honce] at habandon
      cases habandon
      exact hb.shrink _ (List.Sublist.refl _) rfl rfl rfl
    | running =>
      simp only [honce] at habandon
      cases hd : Carrier.endFinish (Carrier.close order (fuel + 1))
          { c with worker := c.worker.abandonSession s.id } ref s.id with
      | error why =>
        rw [hd] at habandon
        cases habandon
      | ok d =>
        rw [hd] at habandon
        cases habandon
        exact (hb.endFinish hs hd).shrink _ (List.Sublist.refl _) rfl rfl rfl
    | idle =>
      simp only [honce] at habandon
      cases habandon
      have hd := hb.update ref (f := fun s =>
        { s with once := .done, newClosed := true, done := true, cause := some cause })
        (fun _ => rfl) (.inr (h.not_mem_without hs))
      exact hd.shrink _ (List.Sublist.refl _) rfl rfl rfl

end Close

theorem Consistent.beginFinish (h : Consistent c) (ref : Nat) (sendEnd withError : Bool)
    (cause : Option Err) : Consistent (c.beginFinish ref sendEnd withError cause) := by
  have hb := h.update ref (f := fun s =>
    { s with once := .running, pending := cause, newClosed := true })
    (fun _ => rfl) (.inl fun _ _ => nofun)
  exact { hb with }

theorem toOption_eq_some {result : Except Stuck Carrier} (h : result.toOption = some c) :
    result = .ok c := by
  cases result with
  | error why => cases h
  | ok d =>
    cases h
    rfl

theorem Consistent.next (h : Consistent c) {op : Op} (hstep : c.next order op = some c') :
    Consistent c' := by
  cases op with
  | reserve limit packet =>
    cases hstep
    exact h.reserve limit packet
  | beginFinish ref sendEnd withError cause =>
    simp only [Carrier.next] at hstep
    split at hstep
    · split at hstep <;> cases hstep
      exact h.beginFinish ref sendEnd withError cause
    · cases hstep
  | endFinish ref =>
    simp only [Carrier.next] at hstep
    split at hstep
    · next s hs =>
      split at hstep
      · exact h.endFinish hs (toOption_eq_some hstep)
      · cases hstep
    · cases hstep
  | abandonSession ref cause => exact h.abandonSession (toOption_eq_some hstep)
  | close cause => exact (h.close (toOption_eq_some hstep)).1

/-- `close` returns; then the worker is closed for good, `release` has run exactly
once, and every session that was not over is, with this cause unless it was already
ending with another one. -/
def Completes (order : MapOrder) (c : Carrier) (cause : Option Err) : Prop :=
  ∃ fuel c', close order fuel c cause = .ok c' ∧ c'.worker.closeOnce = .done ∧ c'.released = 1 ∧
    ∀ (k : Nat) (s : Session), c.objects[k]? = some s → s.once ≠ .done →
      ∃ s', c'.objects[k]? = some s' ∧ s'.once = .done ∧ s'.done = true ∧
      (s.once = .idle → s'.cause = some (cause.getD .netClosed))

/-- Every session that is not over is in the session map. It may not be once its id was
given out again. -/
def Mapped (c : Carrier) : Prop :=
  ∀ (k : Nat) (s : Session), c.objects[k]? = some s → s.once ≠ .done →
    k ∈ c.worker.sessions.map SessionRef.ref

/-- A `close` that finished every session found it in the map. -/
theorem Consistent.mapped (h : Consistent c) {cause : Option Err}
    (hcond : c.worker.sessions = [] ∨ (c.worker.total.toNat : Int) < c.worker.maxUses)
    (hclose : Carrier.close order (fuel + 1) c cause = .ok c')
    (hover : ∀ (k : Nat) (s : Session), c.objects[k]? = some s → s.once ≠ .done →
      ∃ s', c'.objects[k]? = some s' ∧ s'.once = .done) : Mapped c := by
  intro k s hs hlive
  by_contra hout
  obtain ⟨s', hs', hdone⟩ := hover k s hs hlive
  have hsame : c'.objects[k]? = c.objects[k]? := by
    rcases h.phase with ⟨honce, -⟩ | ⟨hdone, -⟩
    · obtain ⟨d, hbody, torn⟩ := h.closeBody order (Carrier.close order fuel) cause hcond
      rw [Carrier.close, honce] at hclose
      cases hbody.symm.trans hclose
      simp [torn.objects k, hout]
    · rw [Carrier.close, hdone] at hclose
      cases hclose
      rfl
  rw [hsame, hs] at hs'
  cases hs'
  exact hlive hdone

/-- In every state reached without a stuck call, `close` runs to completion exactly when
the worker has no session in its map or has uses left, and its unfinished sessions are in
the map. -/
theorem close_completes_iff (order : MapOrder) (maxWorkerUses : Int) (ops : List Op) {c : Carrier}
    (hrun : Transition.run (next order) (start maxWorkerUses) ops = some c) (cause : Option Err) :
    Completes order c cause ↔
      (c.worker.sessions = [] ∨ (c.worker.total.toNat : Int) < c.worker.maxUses) ∧ Mapped c := by
  have h : Consistent c := Transition.run_invariant
    (fun _ _ _ hc hstep => hc.next hstep) (consistent_start maxWorkerUses) hrun
  constructor
  · rintro ⟨fuel, c', hclose, -, -, hover⟩
    have hcond : c.worker.sessions = [] ∨ (c.worker.total.toNat : Int) < c.worker.maxUses := by
      by_contra hcond
      rw [not_or, Int.not_lt] at hcond
      rcases h.phase with ⟨honce, -⟩ | ⟨-, -, -, hsessions⟩
      · obtain ⟨why, hstuck⟩ := close_stuck order h honce hcond.1 hcond.2 fuel cause
        rw [hstuck] at hclose
        cases hclose
      · exact hcond.1 hsessions
    cases fuel with
    | zero => cases hclose
    | succ fuel =>
      refine ⟨hcond, h.mapped hcond hclose fun k s hs hlive => ?_⟩
      obtain ⟨s', hs', hdone, -⟩ := hover k s hs hlive
      exact ⟨s', hs', hdone⟩
  · rintro ⟨hcond, hmapped⟩
    rcases h.phase with ⟨honce, -, hreleased⟩ | ⟨hdone, -, hreleased, hsessions⟩
    · obtain ⟨c', hbody, torn⟩ := h.closeBody order (close order 0) cause hcond
      refine ⟨1, c', ?_, torn.once, ?_, fun k s hs hlive => ?_⟩
      · rw [close, honce]
        exact hbody
      · rw [torn.released, hreleased]
      · refine ⟨Session.finished (some (cause.getD .netClosed)) s, ?_, ?_⟩
        · rw [torn.objects k, hs, Option.map_some, if_pos (hmapped k s hs hlive)]
        · by_cases hidle : s.once = .idle
          · simp [Session.finished, hidle]
          · simp [Session.finished, hidle]
    · refine ⟨1, c, ?_, hdone, hreleased, fun k s hs hlive => ?_⟩
      · rw [close, hdone]
      · have hmem := hmapped k s hs hlive
        rw [hsessions] at hmem
        exact absurd hmem List.not_mem_nil

/-- Sessions visited in the order of their creation. -/
def creationOrder : MapOrder := ⟨id, List.Perm.refl⟩

/-- A carrier with one session of two possible uses is torn down by its death. -/
theorem close_completes_one_of_two :
    ∃ c, Transition.run (next creationOrder) (start 2) [.reserve 8 false] = some c ∧
      c.worker.sessions ≠ [] ∧ Completes creationOrder c (some .eof) := by
  refine ⟨_, rfl, by decide, (close_completes_iff creationOrder 2 [.reserve 8 false] rfl
    (some .eof)).mpr ⟨.inr (by decide), fun k s hs hlive => ?_⟩⟩
  cases k with
  | zero => exact List.mem_singleton_self 0
  | succ k => cases hs

/-- A carrier whose only permitted session is active when it dies: `close` enters
itself through `finishWithCause` and `removeSession` and never returns. -/
theorem close_never_returns_used_up :
    ∃ c, Transition.run (next creationOrder) (start 1) [.reserve 8 false] = some c ∧
      ¬ Completes creationOrder c (some .eof) := by
  refine ⟨_, rfl, ?_⟩
  rintro ⟨fuel, c', hclose, -⟩
  obtain ⟨why, hstuck⟩ := close_stuck creationOrder
    ((consistent_start 1).reserve 8 false) rfl (by decide) (by decide) fuel (some .eof)
  rw [hstuck] at hclose
  cases hclose

end Carrier

end XrayMux
