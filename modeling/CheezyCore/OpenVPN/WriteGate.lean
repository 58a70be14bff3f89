import Mathlib.Data.List.Nodup
import CheezyCore.Foundation.Transition
import CheezyCore.Foundation.Table

/-!
# The write gate of a packet mux

One writer at a time may use the transport. A writer that finds the gate taken waits in a
queue, control writers in one and data writers in another, until it is granted the gate or
its context or the mux ends. A grant and a cancellation may both be ready: `abandon` then
finds the waiter granted and passes the gate on.

Every critical section of `priorityWriteGate` is one step. A waiter is named by its writer,
since a writer waits at most once. `arrived` and `granted` are history: who came to the gate
and who was given it, each with its class.
-/

namespace OpenVPN.WriteGate

abbrev WriterId := Nat

/-- `writeWaiterState`. -/
inductive WaiterState where
  | queued
  | granted
  | released
  deriving DecidableEq, Repr

/-- Where a writer is in `acquire` and in what follows it. -/
inductive Phase where
  | arriving
  /-- In the `select`. -/
  | waiting
  /-- The `select` took the end of the context or of the mux. -/
  | abandoning
  | holding
  | returned
  deriving DecidableEq, Repr

structure Writer where
  control : Bool
  /-- `nil` until the writer is queued. -/
  waiter : Option WaiterState
  phase : Phase
  deriving DecidableEq, Repr

/-- `priorityWriteGate` with its writers. -/
structure State where
  active : Bool
  control : List WriterId
  data : List WriterId
  writers : List Writer
  arrived : List (Bool × WriterId)
  granted : List (Bool × WriterId)
  deriving DecidableEq, Repr

inductive Action where
  /-- `write` is called. -/
  | arrive (control : Bool)
  /-- The critical section of `acquire`. -/
  | acquire (i : WriterId)
  /-- `<-w.ready`. -/
  | wake (i : WriterId)
  /-- `<-ctx.Done()` or `<-done`. -/
  | cancel (i : WriterId)
  | abandon (i : WriterId)
  | release (i : WriterId)
  deriving DecidableEq, Repr

namespace State

def start : State := ⟨false, [], [], [], [], []⟩

def put (s : State) (i : WriterId) (w : Writer) : State := { s with writers := s.writers.set i w }

/-- `w.state = writeWaiterGranted` and `close(w.ready)`. -/
def grant (s : State) (i : WriterId) : State :=
  { s with writers := s.writers.modify i fun w => { w with waiter := some .granted } }

def grantNextLocked (s : State) : State :=
  match s.control, s.data with
  | i :: rest, _ => { s with control := rest, granted := s.granted ++ [(true, i)] }.grant i
  | [], i :: rest => { s with data := rest, granted := s.granted ++ [(false, i)] }.grant i
  | [], [] => { s with active := false }

/-- The critical section of `acquire`. -/
def acquire (s : State) (i : WriterId) (control : Bool) : State :=
  if s.active = false then
    { s with
        active := true
        arrived := s.arrived ++ [(control, i)]
        granted := s.granted ++ [(control, i)] }.put i ⟨control, none, .holding⟩
  else
    { s with
        control := if control then s.control ++ [i] else s.control
        data := if control then s.data else s.data ++ [i]
        arrived := s.arrived ++ [(control, i)] }.put i ⟨control, some .queued, .waiting⟩

/-- `abandon`, after which `acquire` returns. -/
def abandon (s : State) (i : WriterId) (control : Bool) : WaiterState → State
  | .queued =>
    { s with control := s.control.erase i, data := s.data.erase i }.put i
      ⟨control, some .released, .returned⟩
  | .granted => (s.put i ⟨control, some .released, .returned⟩).grantNextLocked
  | .released => s.put i ⟨control, some .released, .returned⟩

/-- `release`, after which `write` returns. -/
def release (s : State) (i : WriterId) (control : Bool) : Option WaiterState → State
  | none => (s.put i ⟨control, none, .returned⟩).grantNextLocked
  | some .granted => (s.put i ⟨control, some .released, .returned⟩).grantNextLocked
  | some state => s.put i ⟨control, some state, .returned⟩

def next (s : State) : Action → Option State
  | .arrive control => some { s with writers := s.writers ++ [⟨control, none, .arriving⟩] }
  | .acquire i =>
    match s.writers[i]? with
    | some ⟨control, none, .arriving⟩ => some (s.acquire i control)
    | _ => none
  | .wake i =>
    match s.writers[i]? with
    | some ⟨control, some .granted, .waiting⟩ =>
      some (s.put i ⟨control, some .granted, .holding⟩)
    | _ => none
  | .cancel i =>
    match s.writers[i]? with
    | some ⟨control, waiter, .waiting⟩ => some (s.put i ⟨control, waiter, .abandoning⟩)
    | _ => none
  | .abandon i =>
    match s.writers[i]? with
    | some ⟨control, some state, .abandoning⟩ => some (s.abandon i control state)
    | _ => none
  | .release i =>
    match s.writers[i]? with
    | some ⟨control, waiter, .holding⟩ => some (s.release i control waiter)
    | _ => none

/-- The queue of a class. -/
def queue (s : State) : Bool → List WriterId
  | true => s.control
  | false => s.data

end State

/-- The writers of a class in a history. -/
def ofClass (control : Bool) (log : List (Bool × WriterId)) : List WriterId :=
  (log.filter (·.1 == control)).map Prod.snd

/-- The writer has the gate, or was granted it and does not know yet. -/
def Writer.permit (w : Writer) : Bool :=
  match w.waiter, w.phase with
  | none, .holding => true
  | some .granted, _ => true
  | _, _ => false

/-- The states of the waiter that go with a phase. -/
def Writer.fits (w : Writer) : Bool :=
  match w.waiter, w.phase with
  | none, .arriving | none, .holding | none, .returned => true
  | some .queued, .waiting | some .queued, .abandoning => true
  | some .granted, .waiting | some .granted, .abandoning | some .granted, .holding => true
  | some .released, .returned => true
  | _, _ => false

/-! ## What the actions do -/

namespace State

inductive Moves (s : State) : Action → State → Prop where
  | arrive {control} :
      Moves s (.arrive control) { s with writers := s.writers ++ [⟨control, none, .arriving⟩] }
  | enter {i control}
      (at' : s.writers[i]? = some ⟨control, none, .arriving⟩) (free : s.active = false) :
      Moves s (.acquire i)
        ({ s with
            active := true
            arrived := s.arrived ++ [(control, i)]
            granted := s.granted ++ [(control, i)] }.put i ⟨control, none, .holding⟩)
  | queue {i control}
      (at' : s.writers[i]? = some ⟨control, none, .arriving⟩) (taken : s.active = true) :
      Moves s (.acquire i)
        ({ s with
            control := if control then s.control ++ [i] else s.control
            data := if control then s.data else s.data ++ [i]
            arrived := s.arrived ++ [(control, i)] }.put i ⟨control, some .queued, .waiting⟩)
  | wake {i control} (at' : s.writers[i]? = some ⟨control, some .granted, .waiting⟩) :
      Moves s (.wake i) (s.put i ⟨control, some .granted, .holding⟩)
  | cancel {i control waiter} (at' : s.writers[i]? = some ⟨control, waiter, .waiting⟩) :
      Moves s (.cancel i) (s.put i ⟨control, waiter, .abandoning⟩)
  | leave {i control}
      (at' : s.writers[i]? = some ⟨control, some .queued, .abandoning⟩) :
      Moves s (.abandon i)
        ({ s with control := s.control.erase i, data := s.data.erase i }.put i
          ⟨control, some .released, .returned⟩)
  | pass {i control} (at' : s.writers[i]? = some ⟨control, some .granted, .abandoning⟩) :
      Moves s (.abandon i) (s.put i ⟨control, some .released, .returned⟩).grantNextLocked
  | abandoned {i control} (at' : s.writers[i]? = some ⟨control, some .released, .abandoning⟩) :
      Moves s (.abandon i) (s.put i ⟨control, some .released, .returned⟩)
  | releaseFirst {i control} (at' : s.writers[i]? = some ⟨control, none, .holding⟩) :
      Moves s (.release i) (s.put i ⟨control, none, .returned⟩).grantNextLocked
  | release {i control} (at' : s.writers[i]? = some ⟨control, some .granted, .holding⟩) :
      Moves s (.release i) (s.put i ⟨control, some .released, .returned⟩).grantNextLocked
  | released {i control state} (other : state ≠ .granted)
      (at' : s.writers[i]? = some ⟨control, some state, .holding⟩) :
      Moves s (.release i) (s.put i ⟨control, some state, .returned⟩)

variable {s s' : State} {i j : WriterId} {w w' : Writer} {a : Action}

theorem next_inv (h : s.next a = some s') : s.Moves a s' := by
  unfold next at h
  split at h
  · cases h
    exact .arrive
  · split at h <;> cases h
    next hi =>
      unfold acquire
      split
      next hfree => exact .enter hi hfree
      next htaken => exact .queue hi (by simpa using htaken)
  · split at h <;> cases h
    next hi => exact .wake hi
  · split at h <;> cases h
    next hi => exact .cancel hi
  · split at h <;> cases h
    next state hi =>
      cases state with
      | queued => exact .leave hi
      | granted => exact .pass hi
      | released => exact .abandoned hi
  · split at h <;> cases h
    next waiter hi =>
      unfold release
      split
      · exact .releaseFirst hi
      · exact .release hi
      next hother => exact .released hother hi

end State

/-! ## The queues -/

theorem ofClass_concat (c control : Bool) (log : List (Bool × WriterId)) (i : WriterId) :
    ofClass c (log ++ [(control, i)]) = ofClass c log ++ if control = c then [i] else [] := by
  unfold ofClass
  rw [List.filter_append, List.map_append]
  cases c <;> cases control <;> rfl

/-- The queues have the waiters that are queued, in the order of arrival and behind those
that were given the gate. -/
structure Queues (s : State) : Prop where
  fits : ∀ (i : WriterId) (w : Writer), s.writers[i]? = some w → w.fits = true
  queued : ∀ (c : Bool) (i : WriterId), i ∈ s.queue c ↔
    ∃ w : Writer, s.writers[i]? = some w ∧ w.waiter = some .queued ∧ w.control = c
  known : ∀ (c : Bool) (i : WriterId), i ∈ ofClass c s.arrived →
    ∃ w : Writer, s.writers[i]? = some w ∧ w.phase ≠ .arriving
  nodup : ∀ c, (ofClass c s.arrived).Nodup
  order : ∀ c, (ofClass c s.granted ++ s.queue c).Sublist (ofClass c s.arrived)

namespace Queues

variable {s s' : State} {i j : WriterId} {w w' : Writer} {control : Bool}

theorem nodup_queue (h : Queues s) (c : Bool) : (s.queue c).Nodup :=
  ((h.order c).nodup (h.nodup c)).of_append_right

section

variable (h : Queues s) (hi : s.writers[i]? = some w)
include h hi

/-- A writer goes on. -/
theorem goes (writers : s'.writers = s.writers.set i w') (fits : w'.fits = true)
    (control : w'.control = w.control) (left : w'.phase ≠ .arriving)
    (self : ∀ c, i ∈ s'.queue c ↔ w'.waiter = some .queued ∧ w.control = c)
    (others : ∀ c j, i ≠ j → (j ∈ s'.queue c ↔ j ∈ s.queue c))
    (arrived : ∀ c j, j ∈ ofClass c s'.arrived → i = j ∨ j ∈ ofClass c s.arrived)
    (nodup : ∀ c, (ofClass c s'.arrived).Nodup)
    (order : ∀ c, (ofClass c s'.granted ++ s'.queue c).Sublist (ofClass c s'.arrived)) :
    Queues s' := by
  have hself : s'.writers[i]? = some w' := by
    rw [writers, List.getElem?_set_self (Table.lt_length hi)]
  have hothers : ∀ j : WriterId, i ≠ j → s'.writers[j]? = s.writers[j]? := by
    intro j hij
    rw [writers, List.getElem?_set_ne hij]
  refine ⟨?_, ?_, ?_, nodup, order⟩
  · intro j wj hj
    by_cases hij : i = j
    · subst hij
      cases hself.symm.trans hj
      exact fits
    · exact h.fits j wj ((hothers j hij).symm.trans hj)
  · intro c j
    by_cases hij : i = j
    · subst hij
      rw [self, hself, ← control]
      constructor
      · rintro ⟨hq, hc⟩
        exact ⟨w', rfl, hq, hc⟩
      · rintro ⟨x, hx, hq, hc⟩
        cases hx
        exact ⟨hq, hc⟩
    · rw [others c j hij, hothers j hij, h.queued]
  · intro c j hj
    by_cases hij : i = j
    · subst hij
      exact ⟨w', hself, left⟩
    · obtain hj | hj := arrived c j hj
      · exact absurd hj hij
      · rw [hothers j hij]
        exact h.known c j hj

/-- A writer goes on, with its waiter queued or not queued as before. -/
theorem put (fits : w'.fits = true) (control : w'.control = w.control) (left : w'.phase ≠ .arriving)
    (queued : w'.waiter = some .queued ↔ w.waiter = some .queued) : Queues (s.put i w') := by
  refine h.goes hi rfl fits control left ?_ (fun _ _ _ => Iff.rfl) (fun _ _ hj => .inr hj)
    h.nodup h.order
  intro c
  rw [queued]
  refine (h.queued c i).trans ⟨?_, fun hq => ⟨w, hi, hq⟩⟩
  rintro ⟨x, hx, hq⟩
  cases hi.symm.trans hx
  exact hq

theorem not_arrived (hphase : w.phase = .arriving) (c : Bool) : i ∉ ofClass c s.arrived := by
  intro hmem
  obtain ⟨x, hx, hleft⟩ := h.known c i hmem
  cases hi.symm.trans hx
  exact hleft hphase

theorem not_queued (hother : w.waiter ≠ some .queued) (c : Bool) : i ∉ s.queue c := by
  intro hmem
  obtain ⟨x, hx, hq, -⟩ := (h.queued c i).mp hmem
  cases hi.symm.trans hx
  exact hother hq

theorem nodup_arrive (hphase : w.phase = .arriving) (control c : Bool) :
    (ofClass c (s.arrived ++ [(control, i)])).Nodup := by
  rw [ofClass_concat]
  split
  · rw [← List.concat_eq_append]
    exact (h.nodup c).concat (h.not_arrived hi hphase c)
  · rw [List.append_nil]
    exact h.nodup c

end

theorem mem_arrive {c : Bool} {log : List (Bool × WriterId)}
    (hj : j ∈ ofClass c (log ++ [(control, i)])) : i = j ∨ j ∈ ofClass c log := by
  rw [ofClass_concat, List.mem_append] at hj
  obtain hj | hj := hj
  · exact .inr hj
  · split at hj
    · exact .inl (List.mem_singleton.mp hj).symm
    · cases hj

/-- A writer is given the free gate. -/
theorem enter (h : Queues s) (hi : s.writers[i]? = some ⟨control, none, .arriving⟩)
    (idle : ∀ c, s.queue c = []) : Queues ({ s with
      active := true
      arrived := s.arrived ++ [(control, i)]
      granted := s.granted ++ [(control, i)] }.put i ⟨control, none, .holding⟩) := by
  refine h.goes hi rfl rfl rfl (by simp) ?_ (fun _ _ _ => Iff.rfl) (fun _ _ hj => mem_arrive hj)
    (h.nodup_arrive hi rfl control) ?_
  · intro c
    constructor
    · intro hmem
      exact absurd hmem (h.not_queued hi (by simp) c)
    · rintro ⟨⟨⟩, -⟩
  · intro c
    have horder := h.order c
    rw [idle c, List.append_nil] at horder
    show (ofClass c (s.granted ++ [(control, i)]) ++ s.queue c).Sublist
      (ofClass c (s.arrived ++ [(control, i)]))
    rw [idle c, List.append_nil, ofClass_concat, ofClass_concat]
    exact horder.append_right _

theorem queue_enqueue {log : List (Bool × WriterId)} (c : Bool) : ({ s with
        control := if control then s.control ++ [i] else s.control
        data := if control then s.data else s.data ++ [i]
        arrived := log }.put i w).queue c = s.queue c ++ if control = c then [i] else [] := by
  cases c <;> cases control <;> simp [State.queue, State.put]

/-- A writer is queued. -/
theorem enqueue (h : Queues s) (hi : s.writers[i]? = some ⟨control, none, .arriving⟩) :
    Queues ({ s with
      control := if control then s.control ++ [i] else s.control
      data := if control then s.data else s.data ++ [i]
      arrived := s.arrived ++ [(control, i)] }.put i ⟨control, some .queued, .waiting⟩) := by
  refine h.goes hi rfl rfl rfl (by simp) ?_ ?_ (fun _ _ hj => mem_arrive hj)
    (h.nodup_arrive hi rfl control) ?_
  · intro c
    rw [queue_enqueue, List.mem_append, or_iff_right (h.not_queued hi (by simp) c)]
    split <;> simp_all
  · intro c j hij
    rw [queue_enqueue, List.mem_append]
    refine or_iff_left ?_
    split
    · exact fun hj => hij (List.mem_singleton.mp hj).symm
    · exact List.not_mem_nil
  · intro c
    rw [queue_enqueue, ← List.append_assoc]
    show (ofClass c s.granted ++ s.queue c ++ _).Sublist (ofClass c (s.arrived ++ [(control, i)]))
    rw [ofClass_concat]
    exact (h.order c).append_right _

/-- A queued writer gives up. -/
theorem leave (h : Queues s) (hi : s.writers[i]? = some ⟨control, some .queued, .abandoning⟩) :
    Queues ({ s with control := s.control.erase i, data := s.data.erase i }.put i
      ⟨control, some .released, .returned⟩) := by
  have hqueue : ∀ c, ({ s with control := s.control.erase i, data := s.data.erase i }.put i
      ⟨control, some .released, .returned⟩).queue c = (s.queue c).erase i := by
    intro c
    cases c <;> rfl
  refine h.goes hi rfl rfl rfl (by simp) ?_ ?_ (fun _ _ hj => .inr hj) h.nodup ?_
  · intro c
    rw [hqueue]
    constructor
    · intro hmem
      exact absurd hmem (h.nodup_queue c).not_mem_erase
    · rintro ⟨⟨⟩, -⟩
  · intro c j hij
    rw [hqueue]
    exact List.mem_erase_of_ne (Ne.symm hij)
  · intro c
    rw [hqueue]
    exact (List.erase_sublist.append_left _).trans (h.order c)

/-- The first of a queue is given the gate. -/
theorem grant {t : State} (h : Queues s) {c : Bool} {rest : List WriterId}
    (hqueue : s.queue c = i :: rest)
    (hself : t.queue c = rest) (hother : t.queue (!c) = s.queue (!c))
    (hgranted : t.granted = s.granted ++ [(c, i)]) (harrived : t.arrived = s.arrived)
    (hwriters : t.writers = s.writers.modify i fun w => { w with waiter := some .granted }) :
    Queues t ∧ ∃ w, s.writers[i]? = some w ∧ w.waiter = some .queued := by
  obtain ⟨⟨control, waiter, phase⟩, hi, ⟨⟩, hc⟩ :=
    (h.queued c i).mp (by rw [hqueue]; exact List.mem_cons_self)
  cases hc
  have hnodup := h.nodup_queue control
  rw [hqueue] at hnodup
  have hbefore : ∀ d, d = control ∨ d = !control := by
    intro d
    cases d <;> cases control <;> decide
  have hfits := h.fits i _ hi
  refine ⟨?_, _, hi, rfl⟩
  rw [Table.modify_of_getElem? hi] at hwriters
  refine h.goes hi hwriters ?_ rfl ?_ ?_ ?_ ?_ ?_ ?_
  · cases phase <;> first | rfl | cases hfits
  · rintro rfl
    cases hfits
  · intro d
    constructor
    · intro hmem
      obtain rfl | rfl := hbefore d
      · rw [hself] at hmem
        exact absurd hmem (List.nodup_cons.mp hnodup).1
      · rw [hother] at hmem
        obtain ⟨x, hx, -, hcontrol⟩ := (h.queued _ i).mp hmem
        cases hi.symm.trans hx
        exact absurd hcontrol (by simp)
    · rintro ⟨⟨⟩, -⟩
  · intro d j hij
    obtain rfl | rfl := hbefore d
    · rw [hself, hqueue, List.mem_cons, or_iff_right (Ne.symm hij)]
    · rw [hother]
  · intro d j hj
    rw [harrived] at hj
    exact .inr hj
  · rw [harrived]
    exact h.nodup
  · intro d
    rw [harrived, hgranted, ofClass_concat]
    obtain rfl | rfl := hbefore d
    · rw [if_pos rfl, hself, List.append_assoc, List.singleton_append, ← hqueue]
      exact h.order _
    · rw [if_neg (by simp), hother, List.append_nil]
      exact h.order _

/-- A writer comes. -/
theorem arrive (h : Queues s) (control : Bool) :
    Queues { s with writers := s.writers ++ [⟨control, none, .arriving⟩] } := by
  have hold : ∀ (j : WriterId) (w : Writer), s.writers[j]? = some w →
      (s.writers ++ [⟨control, none, .arriving⟩])[j]? = some w := by
    intro j w hj
    exact Table.getElem?_append hj _
  refine ⟨?_, ?_, ?_, h.nodup, h.order⟩
  · intro j w hj
    obtain hj | ⟨-, rfl⟩ := Table.getElem?_concat_cases hj
    · exact h.fits j w hj
    · rfl
  · intro c j
    refine (h.queued c j).trans ⟨?_, ?_⟩
    · rintro ⟨w, hj, hq⟩
      exact ⟨w, hold j w hj, hq⟩
    · rintro ⟨w, hj, hq, hc⟩
      obtain hj | ⟨-, rfl⟩ := Table.getElem?_concat_cases hj
      · exact ⟨w, hj, hq, hc⟩
      · cases hq
  · intro c j hj
    obtain ⟨w, hj, hleft⟩ := h.known c j hj
    exact ⟨w, hold j w hj, hleft⟩

end Queues

/-! ## The permit -/

/-- The one writer that has the gate or was granted it, if there is one. -/
structure Held (holder : Option WriterId) (writers : List Writer) : Prop where
  permit : ∀ i, holder = some i ↔ ∃ w, writers[i]? = some w ∧ w.permit = true

namespace Held

variable {holder : Option WriterId} {writers : List Writer} {i : WriterId} {w w' : Writer}

section

variable (hi : writers[i]? = some w)
include hi

section

variable (h : Held holder writers)
include h

theorem set {holder' : Option WriterId} (self : holder' = some i ↔ w'.permit = true)
    (others : ∀ j, i ≠ j → (holder' = some j ↔ holder = some j)) :
    Held holder' (writers.set i w') where
  permit j := by
    by_cases hij : i = j
    · subst hij
      rw [self, List.getElem?_set_self (Table.lt_length hi)]
      constructor
      · exact fun hp => ⟨w', rfl, hp⟩
      · rintro ⟨x, hx, hp⟩
        cases hx
        exact hp
    · rw [others j hij, h.permit, List.getElem?_set_ne hij]

theorem holds : holder = some i ↔ w.permit = true := by
  rw [h.permit]
  constructor
  · rintro ⟨x, hx, hp⟩
    cases hi.symm.trans hx
    exact hp
  · exact fun hp => ⟨w, hi, hp⟩

theorem stays (same : w'.permit = w.permit) : Held holder (writers.set i w') :=
  h.set hi (by rw [same]; exact h.holds hi) fun _ _ => Iff.rfl

end

theorem takes (h : Held none writers) (permit : w'.permit = true) :
    Held (some i) (writers.set i w') :=
  h.set hi (iff_of_true rfl permit) fun _ hij =>
    iff_of_false (fun heq => hij (Option.some.inj heq)) nofun

theorem gives (h : Held (some i) writers) (permit : w'.permit = false) :
    Held none (writers.set i w') :=
  h.set hi (iff_of_false nofun (by rw [permit]; exact Bool.false_ne_true)) fun _ hij =>
    iff_of_false nofun fun heq => hij (Option.some.inj heq)

end

theorem arrive (h : Held holder writers) (control : Bool) :
    Held holder (writers ++ [⟨control, none, .arriving⟩]) where
  permit j := by
    rw [h.permit]
    constructor
    · rintro ⟨w, hj, hp⟩
      exact ⟨w, Table.getElem?_append hj _, hp⟩
    · rintro ⟨w, hj, hp⟩
      obtain hj | ⟨-, rfl⟩ := Table.getElem?_concat_cases hj
      · exact ⟨w, hj, hp⟩
      · cases hp

end Held

/-! ## The gate -/

/-- The gate is active while a writer has the permit, and nobody waits for a free gate. -/
structure Gate (holder : Option WriterId) (s : State) : Prop where
  queues : Queues s
  held : Held holder s.writers
  active : s.active = holder.isSome
  idle : holder = none → ∀ c, s.queue c = []

/-- What `grantNextLocked` does with the gate: the first control writer has it, or without
control writers the first data writer, or nobody. -/
inductive Passes (s s' : State) : Option WriterId → Prop where
  | grant (c : Bool) (i : WriterId) (first : (s.queue c).head? = some i)
      (before : c = false → s.queue true = []) (granted : s'.granted = s.granted ++ [(c, i)]) :
      Passes s s' (some i)
  | free (empty : ∀ c, s.queue c = []) (granted : s'.granted = s.granted) : Passes s s' none

variable {holder : Option WriterId} {s s' : State} {i : WriterId} {w : Writer} {a : Action}

theorem grantNextLocked_spec (hqueues : Queues s) (hheld : Held none s.writers)
    (hactive : s.active = true) :
    ∃ holder, Gate holder s.grantNextLocked ∧ Passes s s.grantNextLocked holder := by
  unfold State.grantNextLocked
  split
  next i rest hcontrol =>
    obtain ⟨hq, w, hi, -⟩ := hqueues.grant (c := true)
      (t := { s with control := rest, granted := s.granted ++ [(true, i)] }.grant i) hcontrol
      rfl rfl rfl rfl rfl
    refine ⟨some i, ⟨hq, ?_, hactive, nofun⟩, .grant true i ?_ nofun rfl⟩
    · show Held (some i) (s.writers.modify i _)
      rw [Table.modify_of_getElem? hi]
      exact hheld.takes hi rfl
    · show s.control.head? = some i
      rw [hcontrol]
      rfl
  next i rest hcontrol hdata =>
    obtain ⟨hq, w, hi, -⟩ := hqueues.grant (c := false)
      (t := { s with data := rest, granted := s.granted ++ [(false, i)] }.grant i) hdata
      rfl rfl rfl rfl rfl
    refine ⟨some i, ⟨hq, ?_, hactive, nofun⟩, .grant false i ?_ (fun _ => hcontrol) rfl⟩
    · show Held (some i) (s.writers.modify i _)
      rw [Table.modify_of_getElem? hi]
      exact hheld.takes hi rfl
    · show s.data.head? = some i
      rw [hdata]
      rfl
  next hcontrol hdata =>
    have hempty : ∀ c, s.queue c = [] := by
      intro c
      cases c with
      | false => exact hdata
      | true => exact hcontrol
    exact ⟨none, ⟨{ hqueues with }, hheld, rfl, fun _ => hempty⟩, .free hempty rfl⟩

/-- The holder goes on and gives the gate away. -/
theorem Gate.pass (h : Gate holder s) (hi : s.writers[i]? = some w) (permit : w.permit = true)
    {v : Writer} (fits : v.fits = true) (control : v.control = w.control)
    (left : v.phase ≠ .arriving) (out : v.waiter ≠ some .queued) (without : v.permit = false) :
    ∃ holder', Gate holder' (s.put i v).grantNextLocked ∧
      Passes s (s.put i v).grantNextLocked holder' := by
  have hholder : holder = some i := (h.held.holds hi).mpr permit
  subst hholder
  have hnot : w.waiter ≠ some .queued := by
    intro hq
    unfold Writer.permit at permit
    rw [hq] at permit
    cases permit
  obtain ⟨holder', hgate, hpasses⟩ := grantNextLocked_spec
    (h.queues.put hi fits control left (iff_of_false out hnot)) (h.held.gives hi without)
    h.active
  refine ⟨holder', hgate, ?_⟩
  cases hpasses with
  | grant c j first before granted => exact .grant c j first before granted
  | free empty granted => exact .free empty granted

/-- A writer is given the gate only when it finds it free, or as the first of its queue, and
then as a data writer only without control writers in theirs. -/
inductive Gives (s s' : State) : Action → Prop where
  | nobody (a : Action) (granted : s'.granted = s.granted) : Gives s s' a
  | arriving (c : Bool) (i : WriterId) (free : s.active = false)
      (granted : s'.granted = s.granted ++ [(c, i)]) : Gives s s' (.acquire i)
  | queued (a : Action) (c : Bool) (i : WriterId) (first : (s.queue c).head? = some i)
      (before : c = false → s.queue true = [])
      (granted : s'.granted = s.granted ++ [(c, i)]) : Gives s s' a

theorem Passes.gives (h : Passes s s' holder) (a : Action) : Gives s s' a := by
  cases h with
  | grant c i first before granted => exact .queued a c i first before granted
  | free empty granted => exact .nobody a granted

theorem gate_moves (h : Gate holder s) (hmoves : s.Moves a s') :
    ∃ holder', Gate holder' s' ∧ Gives s s' a := by
  cases hmoves with
  | @arrive control =>
    exact ⟨holder, ⟨h.queues.arrive control, h.held.arrive control, h.active, h.idle⟩,
      .nobody _ rfl⟩
  | @enter i control hi free =>
    have hnone : holder = none := by
      rw [h.active] at free
      exact Option.isSome_eq_false_iff.mp free |> Option.isNone_iff_eq_none.mp
    subst hnone
    exact ⟨some i, ⟨h.queues.enter hi (h.idle rfl), h.held.takes hi rfl, rfl, nofun⟩,
      .arriving control i free rfl⟩
  | @queue i control hi taken =>
    refine ⟨holder, ⟨h.queues.enqueue hi, h.held.stays hi rfl, h.active, ?_⟩, .nobody _ rfl⟩
    rintro rfl
    rw [h.active] at taken
    cases taken
  | wake hi =>
    exact ⟨holder, ⟨h.queues.put hi rfl rfl (by simp) Iff.rfl, h.held.stays hi rfl, h.active,
      h.idle⟩, .nobody _ rfl⟩
  | @cancel i control waiter hi =>
    have hfits := h.queues.fits _ _ hi
    refine ⟨holder, ⟨h.queues.put hi ?_ rfl (by simp) Iff.rfl, h.held.stays hi ?_, h.active,
      h.idle⟩, .nobody _ rfl⟩
    · obtain _ | _ | _ | _ := waiter <;> first | rfl | cases hfits
    · obtain _ | _ | _ | _ := waiter <;> rfl
  | @leave i control hi =>
    refine ⟨holder, ⟨h.queues.leave hi, h.held.stays hi rfl, h.active, ?_⟩, .nobody _ rfl⟩
    intro hnone c
    have hempty := h.idle hnone
    cases c with
    | false => exact (congrArg (List.erase · i) (hempty false)).trans rfl
    | true => exact (congrArg (List.erase · i) (hempty true)).trans rfl
  | pass hi | release hi =>
    obtain ⟨holder', hgate, hpasses⟩ := h.pass hi rfl (v := ⟨_, some .released, .returned⟩)
      rfl rfl (by simp) (by simp) rfl
    exact ⟨holder', hgate, hpasses.gives _⟩
  | abandoned hi =>
    exact absurd (h.queues.fits _ _ hi) Bool.false_ne_true
  | releaseFirst hi =>
    obtain ⟨holder', hgate, hpasses⟩ := h.pass hi rfl (v := ⟨_, none, .returned⟩)
      rfl rfl (by simp) (by simp) rfl
    exact ⟨holder', hgate, hpasses.gives _⟩
  | @released i control state other hi =>
    have hfits := h.queues.fits _ _ hi
    cases state with
    | granted => exact absurd rfl other
    | queued | released => cases hfits

theorem gate_start : Gate none State.start where
  queues := {
    fits := nofun
    queued := fun c i => iff_of_false (by cases c <;> exact List.not_mem_nil) nofun
    known := nofun
    nodup := fun c => List.nodup_nil
    order := fun c => by cases c <;> exact List.Sublist.refl _ }
  held := ⟨fun i => iff_of_false nofun nofun⟩
  active := rfl
  idle := fun _ c => by cases c <;> rfl

theorem gate_run {actions : List Action}
    (h : Transition.run State.next State.start actions = some s) : ∃ holder, Gate holder s := by
  refine Transition.run_invariant (P := fun s => ∃ holder, Gate holder s) ?_ ⟨none, gate_start⟩ h
  rintro s a s' ⟨holder, hgate⟩ hnext
  obtain ⟨holder', hgate', -⟩ := gate_moves hgate (State.next_inv hnext)
  exact ⟨holder', hgate'⟩

/-- In every run at most one writer has the gate, and the gate is active while one has it
and only then. No writer is queued for an inactive gate. Whoever is given the gate finds it
free or is the first of its queue, and no control writer waits when a data writer is. Each
class is given the gate in the order of arrival. A writer that gives up although it was
granted the gate passes it on. -/
theorem gate_exclusive_ordered {actions : List Action}
    (h : Transition.run State.next State.start actions = some s) :
    (∀ (i j : WriterId) (w v : Writer), s.writers[i]? = some w → s.writers[j]? = some v →
      w.permit = true → v.permit = true → i = j) ∧
    (∀ (i : WriterId) (w : Writer), s.writers[i]? = some w → w.phase = .holding →
      w.permit = true) ∧
    (s.active = true ↔ ∃ (i : WriterId) (w : Writer), s.writers[i]? = some w ∧ w.permit = true) ∧
    (s.active = false → ∀ (i : WriterId) (w : Writer), s.writers[i]? = some w →
      w.waiter ≠ some .queued) ∧
    (∀ (c : Bool) (i : WriterId), i ∈ s.queue c ↔
      ∃ w : Writer, s.writers[i]? = some w ∧ w.waiter = some .queued ∧ w.control = c) ∧
    (∀ a s', s.next a = some s' → Gives s s' a) ∧
    (∀ c, (ofClass c s.arrived).Nodup ∧
      (ofClass c s.granted ++ s.queue c).Sublist (ofClass c s.arrived)) ∧
    ∀ (i : WriterId) (w : Writer), s.writers[i]? = some w → w.phase = .abandoning →
      w.waiter = some .granted → ∃ s' holder, s.next (.abandon i) = some s' ∧
        Passes s s' holder ∧ s'.active = holder.isSome ∧ Held holder s'.writers := by
  obtain ⟨holder, hgate⟩ := gate_run h
  refine ⟨?_, ?_, ?_, ?_, hgate.queues.queued, ?_, ?_, ?_⟩
  · intro i j w v hi hj hw hv
    have hsome := (hgate.held.holds hi).mpr hw
    exact Option.some.inj (hsome.symm.trans ((hgate.held.holds hj).mpr hv))
  · rintro i ⟨control, waiter, phase⟩ hi rfl
    have hfits := hgate.queues.fits i _ hi
    obtain _ | _ | _ | _ := waiter <;> first | rfl | cases hfits
  · rw [hgate.active, Option.isSome_iff_exists]
    exact exists_congr hgate.held.permit
  · intro hfree i w hi hq
    rw [hgate.active] at hfree
    have hmem : i ∈ s.queue w.control := (hgate.queues.queued _ i).mpr ⟨w, hi, hq, rfl⟩
    rw [hgate.idle (Option.isNone_iff_eq_none.mp (Option.isSome_eq_false_iff.mp hfree))] at hmem
    cases hmem
  · intro a s' hnext
    exact (gate_moves hgate (State.next_inv hnext)).choose_spec.2
  · exact fun c => ⟨hgate.queues.nodup c, hgate.queues.order c⟩
  · rintro i ⟨control, waiter, phase⟩ hi rfl rfl
    obtain ⟨holder', hgate', hpasses⟩ := hgate.pass hi rfl
      (v := ⟨control, some .released, .returned⟩) rfl rfl (by simp) (by simp) rfl
    refine ⟨_, holder', ?_, hpasses, hgate'.active, hgate'.held⟩
    simp only [State.next, hi, State.abandon]

/-- A data writer has the gate; a data and then a control writer wait; the first is done, so
that the control writer is granted the gate, gives up and passes it on. -/
def racedGrant : List Action :=
  [.arrive false, .acquire 0, .arrive false, .acquire 1, .arrive true, .acquire 2,
    .release 0, .cancel 2, .abandon 2]

theorem gate_exclusive_ordered_racedGrant :
    ∃ s, Transition.run State.next State.start racedGrant = some s ∧
      s.granted = [(false, 0), (true, 2), (false, 1)] ∧
      (ofClass false s.granted ++ s.queue false).Sublist (ofClass false s.arrived) := by
  refine ⟨_, (and_iff_left_of_imp fun h => ?_).mpr rfl⟩
  obtain ⟨-, -, -, -, -, -, horder, -⟩ := gate_exclusive_ordered h
  exact ⟨rfl, (horder false).2⟩

end OpenVPN.WriteGate
