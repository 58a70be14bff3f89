import CheezyCore.AnyTls.Streams
import CheezyCore.Foundation.Transition

/-!
# A closed session has no open stream

`Session.Close` finds the streams it has to close in the map. A stream that was given away is
therefore to be found there until it is closed, unless `recvLoop` took it out and is about to
close it. Three steps do not keep this: a `SYN` enters a stream after the map has been emptied,
`OpenStream` enters a stream under a number that is taken, and a close of a stream deletes the
entry of another one with its number.
-/

namespace AnyTls.Streams

open Transition Registry AnyTls.Streams.Action

namespace State

def Closed (s : State) (k : Nat) : Prop := s.streams.Has k (·.closed = true)

instance (s : State) (k : Nat) : Decidable (s.Closed k) := inferInstanceAs (Decidable (Has _ _ _))

/-- `Session.Close` is going to close the stream. -/
def Reachable (s : State) (k : Nat) : Prop :=
  match s.closing with
  | .idle | .hook _ | .lock _ => Held Stream.sid s.streams k
  | .streams _ todo => k ∈ todo
  | .conn _ | .returned => False

end State

/-! ## The condition on the steps -/

/-- A `SYN` that enters a stream does so before the map is emptied. -/
def RecvPc.Orderly (s : State) : RecvPc → Prop
  | frame (.syn sid) => s.isClient ∨ s.receivedSettings → s.streams.slots sid = none →
      s.closing.emptied = false
  | _ => True

/-- `OpenStream` enters its stream under a free number. -/
def OpenPc.Orderly (s : State) : OpenPc → Prop
  | insert k => ∀ st ∈ s.streams.objects[k]?, s.streams.slots st.sid = none
  | _ => True

/-- A close deletes the entry of its own stream. -/
def CloseCall.Orderly (s : State) (c : CloseCall) : Prop :=
  c.pc = .delete → ∀ st ∈ s.streams.objects[c.stream]?, ∀ k ∈ s.streams.slots st.sid, k = c.stream

def Orderly (s : State) : Action → Prop
  | .recv _ => s.recv.Orderly s
  | .opening i _ => ∀ pc ∈ s.opens[i]?, pc.Orderly s
  | .closing j _ => ∀ c ∈ s.closes[j]?, c.Orderly s
  | _ => True

instance (s : State) : (pc : RecvPc) → Decidable (pc.Orderly s)
  | .frame (.syn _) => inferInstanceAs (Decidable (_ ∨ _ → _ → _))
  | .frame (.psh _) | .frame (.synack ..) | .frame (.fin _) | .frame (.settings _)
  | .frame .heartRequest | .frame .alert | .frame .other | .frame .fail | .check | .read | .pipe _
  | .close _ | .finish _ | .control .. | .leave | .exited => isTrue trivial

instance (s : State) : (pc : OpenPc) → Decidable (pc.Orderly s)
  | .insert _ => inferInstanceAs (Decidable (∀ _ ∈ _, _ = none))
  | .check | .id | .write _ | .lock _ | .select _ | .returned _ | .failed => isTrue trivial

instance (s : State) (c : CloseCall) : Decidable (c.Orderly s) :=
  inferInstanceAs (Decidable (_ → ∀ _ ∈ _, ∀ _ ∈ _, _ = _))

instance (s : State) : (a : Action) → Decidable (Orderly s a)
  | .recv _ => inferInstanceAs (Decidable (s.recv.Orderly s))
  | .opening .. => inferInstanceAs (Decidable (∀ pc ∈ _, OpenPc.Orderly s pc))
  | .closing .. => inferInstanceAs (Decidable (∀ c ∈ _, CloseCall.Orderly s c))
  | .openStream | .read _ | .closeStream _ | .close | .die _ => isTrue trivial

/-! ## The invariant -/

/-- The streams of the map have not been read off yet. -/
def Closing.before : Closing → Prop
  | idle | hook _ | lock _ => True
  | streams _ _ | conn _ | returned => False

structure Inv (s : State) : Prop where
  safe : ∀ k, s.Given k → s.Closed k ∨ s.recv = .finish k ∨ s.Reachable k
  exist : ∀ k, s.Given k → s.streams.Has k fun _ => True
  inserting : ∀ k, .insert k ∈ s.opens → s.closing.before
  closers : ∀ c ∈ s.closes, c.pc ≠ .once → s.Closed c.stream

variable {pc : OpenPc}

section Reachable

variable {s t : State} {k : Nat}

theorem reachable_of_before (h : s.closing.before) :
    s.Reachable k ↔ Held Stream.sid s.streams k := by
  rw [State.Reachable]
  revert h
  cases s.closing with
  | idle | hook | lock => exact fun _ => Iff.rfl
  | streams | conn | returned => nofun

theorem before_of_lockFree (hfree : s.lockFree = true) (hfull : s.closing.emptied = false) :
    s.closing.before := by
  rw [State.lockFree] at hfree
  revert hfree hfull
  cases s.closing with
  | idle | hook | lock => exact fun _ _ => trivial
  | streams | conn | returned => nofun

theorem not_holdsLock (hfree : s.lockFree = true) (hpc : pc ∈ s.opens) : pc.holdsLock = false := by
  rw [State.lockFree, Bool.and_eq_true, List.all_eq_true] at hfree
  simpa using hfree.2 pc hpc

theorem State.Reachable.mono (h : s.Reachable k) (hclosing : t.closing = s.closing)
    (hheld : Held Stream.sid s.streams k → Held Stream.sid t.streams k) : t.Reachable k := by
  rw [State.Reachable] at h ⊢
  rw [hclosing]
  revert h
  cases s.closing with
  | idle | hook | lock => exact hheld
  | streams | conn | returned => exact id

end Reachable

section CallClose

variable (s : State) (owner : Owner)

theorem callClose_streams : (s.callClose owner).streams = s.streams := by
  rw [State.callClose]
  split <;> rfl

theorem callClose_closes : (s.callClose owner).closes = s.closes := by
  rw [State.callClose]
  split <;> rfl

theorem callClose_recv : (s.callClose owner).recv = s.recv := by
  rw [State.callClose]
  split <;> rfl

end CallClose

namespace Inv

variable {s t : State} {i j k : Nat} {ok : Bool} {sid : UInt32}

/-- `Session.Close` goes on and finds the streams it would have found. -/
theorem setClosing (h : Inv s) {closing : Closing} {slots : UInt32 → Option Nat}
    (hinsert : ∀ j, .insert j ∈ s.opens → closing.before)
    (hreach : ∀ j, s.Reachable j →
      State.Reachable { s with streams := { s.streams with slots }, closing } j) :
    Inv { s with streams := { s.streams with slots }, closing } where
  __ := h
  safe j hj := (h.safe j hj).imp_right (Or.imp_right (hreach j))
  inserting := hinsert

theorem callClose (h : Inv s) (owner : Owner) : Inv (s.callClose owner) := by
  rw [State.callClose]
  split
  · next hidle =>
    refine h.setClosing (fun _ _ => trivial) fun j hj => ?_
    rwa [State.Reachable, hidle] at hj
  · exact h

theorem shut (h : Inv s) (k : Nat) : Inv (s.shut k) where
  safe j hj := by
    rcases h.safe j hj with hclosed | hfinish | hreach
    · exact .inl (Has.alter hclosed fun _ _ => rfl)
    · exact .inr (.inl hfinish)
    · exact .inr (.inr (hreach.mono rfl fun hheld => hheld.alter fun _ _ => rfl))
  exist j hj := Has.alter (h.exist j hj) fun _ => id
  inserting := h.inserting
  closers c hc hpc := Has.alter (h.closers c hc hpc) fun _ _ => rfl

theorem closed_shut (h : s.streams.Has k fun _ => True) : (s.shut k).Closed k :=
  Has.alter_self h fun _ _ => rfl

theorem given_setOpen (h : (s.setOpen i pc).Given k) : s.Given k ∨ pc = .returned k := by
  rcases h with hhanded | hmem
  · exact .inl (.inl hhanded)
  · rcases List.mem_or_eq_of_mem_set hmem with hold | hnew
    · exact .inl (.inr hold)
    · exact .inr hnew.symm

section

variable (h : Inv s)
include h

theorem setOpen (hreturned : ∀ k, pc ≠ .returned k)
    (hinsert : ∀ k, pc = .insert k → s.closing.before) : Inv (s.setOpen i pc) where
  safe k hk := h.safe k ((given_setOpen hk).resolve_right (hreturned k))
  exist k hk := h.exist k ((given_setOpen hk).resolve_right (hreturned k))
  inserting k hk := by
    rcases List.mem_or_eq_of_mem_set hk with hold | hnew
    · exact h.inserting k hold
    · exact hinsert k hnew.symm
  closers := h.closers

theorem make (st : Stream) (streamId : UInt32) :
    Inv { s with streamId, streams := s.streams.make st } where
  safe k hk := by
    rcases h.safe k hk with hclosed | hfinish | hreach
    · exact .inl (Has.make hclosed st)
    · exact .inr (.inl hfinish)
    · exact .inr (.inr (hreach.mono rfl fun hheld => hheld.make st))
  exist k hk := Has.make (h.exist k hk) st
  inserting := h.inserting
  closers c hc hpc := Has.make (h.closers c hc hpc) st

/-- A stream is entered under a free number and given away. -/
theorem put (hbefore : s.closing.before) (hfree : s.streams.slots sid = none)
    (hk : s.streams.Has k fun st => st.sid = sid) (hstreams : t.streams = s.streams.put sid k)
    (hclosing : t.closing = s.closing) (hgiven : ∀ j, t.Given j → s.Given j ∨ j = k)
    (hrecv : ∀ j, s.recv = .finish j → t.recv = .finish j)
    (hcloses : ∀ c ∈ t.closes, c.pc ≠ .once → s.Closed c.stream) : Inv t where
  safe j hj := by
    rcases hgiven j hj with hold | rfl
    · rcases h.safe j hold with hclosed | hfinish | hreach
      · exact .inl (by rw [State.Closed, hstreams]; exact hclosed)
      · exact .inr (.inl (hrecv j hfinish))
      · refine .inr (.inr (hreach.mono hclosing fun hheld => ?_))
        rw [hstreams]
        exact hheld.put hfree
    · refine .inr (.inr ((reachable_of_before (by rwa [hclosing])).mpr ?_))
      rw [hstreams]
      exact held_put_self hk
  exist j hj := by
    rw [hstreams]
    rcases hgiven j hj with hold | rfl
    · exact h.exist j hold
    · exact Has.imp hk fun _ _ => trivial
  inserting _ _ := by rwa [hclosing]
  closers c hc hpc := by
    rw [State.Closed, hstreams]
    exact hcloses c hc hpc

theorem openStep (hpc : s.opens[i]? = some pc) (orderly : Orderly s (.opening i ok))
    (hstep : s.openStep i ok pc = some t) : Inv t := by
  cases pc with
  | check =>
    cases hstep
    split
    · exact h.setOpen nofun nofun
    · exact h.setOpen nofun nofun
  | id =>
    cases hstep
    exact (h.make _ _).setOpen nofun nofun
  | write k =>
    rw [State.openStep] at hstep
    split at hstep <;> cases hstep
    · exact h.setOpen nofun nofun
    · exact (h.callClose _).setOpen nofun nofun
  | lock k =>
    obtain ⟨-, rfl⟩ := of_guard hstep
    exact h.setOpen nofun nofun
  | select k =>
    cases hstep
    split
    · exact h.setOpen nofun nofun
    · next hdie =>
      refine h.setOpen nofun fun _ _ => ?_
      have hidle : s.closing = .idle := by simpa [Closing.died] using hdie
      rw [hidle]
      trivial
  | insert k =>
    obtain ⟨st, hst, rfl⟩ := Option.map_eq_some_iff.mp hstep
    have hfree := orderly _ hpc st hst
    refine h.put (h.inserting k (List.mem_of_getElem? hpc)) hfree ⟨st, hst, rfl⟩ rfl rfl
      (fun j hj => ?_) (fun _ => id) h.closers
    refine (given_setOpen hj).imp_right fun hjk => ?_
    cases hjk
    rfl
  | returned k | failed => cases hstep

theorem setClose {pc : ClosePc} {c : CloseCall} (hc : s.closes[j]? = some c)
    (hclosed : s.Closed c.stream) : Inv (s.setClose j pc) := by
  refine { h with closers := ?_ }
  intro c' hc' hne
  obtain ⟨i, hi⟩ := List.mem_iff_getElem?.mp hc'
  obtain ⟨old, hold, ⟨-, rfl⟩ | ⟨rfl, rfl⟩⟩ := Table.getElem?_modify_cases hi
  · exact h.closers c' (List.mem_of_getElem? hold) hne
  · cases hc.symm.trans hold
    exact hclosed

theorem closers_append (k : Nat) :
    ∀ c ∈ s.closes ++ [{ stream := k }], c.pc ≠ .once → s.Closed c.stream :=
  Table.forall_concat h.closers (absurd rfl)

/-- A close deletes the entry of its stream, which is closed. -/
theorem delete (hclosed : ∀ k, s.streams.slots sid = some k → s.Closed k) :
    Inv { s with streams := s.streams.delete sid } where
  __ := h
  safe k hk := by
    rcases h.safe k hk with hold | hfinish | hreach
    · exact .inl hold
    · exact .inr (.inl hfinish)
    · by_cases hslot : s.streams.slots sid = some k
      · exact .inl (hclosed k hslot)
      · exact .inr (.inr (hreach.mono rfl fun hheld => hheld.delete hslot))

theorem closeStep {c : CloseCall} (hc : s.closes[j]? = some c) (orderly : Orderly s (.closing j ok))
    (hstep : s.closeStep j ok c = some t) : Inv t := by
  obtain ⟨st, hst, hstep⟩ := Option.bind_eq_some_iff.mp hstep
  have hclosed : c.pc ≠ .once → s.Closed c.stream := h.closers c (List.mem_of_getElem? hc)
  obtain ⟨stream, pc⟩ := c
  cases pc with
  | once =>
    simp only at hstep
    split at hstep <;> cases hstep
    next hshut => exact h.setClose hc ⟨st, hst, hshut⟩
    · exact (h.shut stream).setClose hc (closed_shut ⟨st, hst, trivial⟩)
  | check =>
    cases hstep
    exact h.setClose hc (hclosed nofun)
  | write =>
    have hclosed := hclosed nofun
    simp only at hstep
    split at hstep <;> cases hstep
    · exact h.setClose hc hclosed
    · refine (h.callClose _).setClose (by rwa [callClose_closes]) ?_
      rwa [State.Closed, callClose_streams]
  | delete =>
    obtain ⟨-, rfl⟩ := of_guard hstep
    have hclosed := hclosed nofun
    refine (h.delete fun k hk => ?_).setClose hc hclosed
    rw [orderly _ hc rfl st hst k hk]
    exact hclosed
  | returned => cases hstep

theorem register (hrecv : ∀ j, s.recv ≠ .finish j) (hbefore : s.closing.before)
    (hfree : s.streams.slots sid = none) : Inv (s.register sid) := by
  have hmade := h.make { sid } s.streamId
  have hself : (s.streams.make { sid }).Has s.streams.objects.length fun st => st.sid = sid :=
    has_make_self rfl
  rw [State.register]
  split
  · refine hmade.put hbefore hfree hself rfl rfl ?_ (fun j hj => absurd hj (hrecv j)) hmade.closers
    rintro j (hmem | hmem)
    · rcases List.mem_append.mp hmem with hold | hnew
      · exact .inl (.inl hold)
      · exact .inr (List.mem_singleton.mp hnew)
    · exact .inl (.inr hmem)
  · exact hmade.put hbefore hfree hself rfl rfl (fun j => .inl)
      (fun j hj => absurd hj (hrecv j)) (hmade.closers_append _)

theorem setRecv (hrecv : ∀ k, s.recv ≠ .finish k) (pc : RecvPc) : Inv { s with recv := pc } :=
  { h with safe := fun k hk => (h.safe k hk).imp_right (Or.imp_left (absurd · (hrecv k))) }

theorem frameStep {f : Incoming} (hf : s.recv = .frame f) (orderly : Orderly s (.recv ok))
    (hstep : s.frameStep f = some t) : Inv t := by
  have hrecv : ∀ k, s.recv ≠ .finish k := by
    intro k hk
    cases hf.symm.trans hk
  cases f with
  | psh sid =>
    obtain ⟨-, rfl⟩ := of_guard hstep
    exact h.setRecv hrecv _
  | syn sid =>
    rw [Orderly, hf] at orderly
    rw [State.frameStep] at hstep
    split at hstep
    · cases hstep
      exact h.setRecv hrecv _
    · next hsettings =>
      obtain ⟨hfree, rfl⟩ := of_guard hstep
      split
      · next hslot =>
        have hallowed : s.isClient = true ∨ s.receivedSettings = true := by
          simpa [or_iff_not_imp_left] using hsettings
        exact h.register hrecv (before_of_lockFree hfree (orderly hallowed hslot)) hslot
      · exact h.setRecv hrecv _
  | synack sid error =>
    rw [State.frameStep] at hstep
    split at hstep
    · split at hstep
      · split at hstep <;> cases hstep
        next k hslot => exact { h.setRecv hrecv _ with closers := h.closers_append k }
        · exact h.setRecv hrecv _
      · cases hstep
    · cases hstep
      exact h.setRecv hrecv _
  | fin sid =>
    obtain ⟨-, rfl⟩ := of_guard hstep
    exact {
      __ := h
      safe := by
        intro k hk
        rcases h.safe k hk with hclosed | hfinish | hreach
        · exact .inl hclosed
        · exact absurd hfinish (hrecv k)
        · by_cases hslot : s.streams.slots sid = some k
          · refine .inr (.inl ?_)
            simp only [hslot, Option.elim_some]
          · exact .inr (.inr (hreach.mono rfl fun hheld => hheld.delete hslot))
      closers := h.closers }
  | settings replies =>
    cases hstep
    split
    · exact h.setRecv hrecv _
    · exact { h.setRecv hrecv _ with }
  | _ =>
    cases hstep
    exact h.setRecv hrecv _

theorem recvStep {pc : RecvPc} (hpc : s.recv = pc) (orderly : Orderly s (.recv ok))
    (hstep : s.recvStep ok pc = some t) : Inv t := by
  cases pc with
  | frame f => exact h.frameStep hpc orderly hstep
  | finish k =>
    cases hstep
    have hshut := h.shut k
    exact {
      __ := hshut
      safe := by
        intro j hj
        by_cases hjk : j = k
        · subst hjk
          exact .inl (closed_shut (h.exist j hj))
        · rcases hshut.safe j hj with hclosed | hfinish | hreach
          · exact .inl hclosed
          · cases hpc.symm.trans hfinish
            exact absurd rfl hjk
          · exact .inr (.inr hreach)
      closers := hshut.closers }
  | check | pipe k =>
    cases hstep
    exact h.setRecv (by rw [hpc]; nofun) _
  | read | exited => cases hstep
  | close j =>
    obtain ⟨c, -, hstep⟩ := Option.bind_eq_some_iff.mp hstep
    obtain ⟨-, rfl⟩ := of_guard hstep
    exact h.setRecv (by rw [hpc]; nofun) _
  | control count last =>
    cases count with
    | zero =>
      cases hstep
      exact h.setRecv (by rw [hpc]; nofun) _
    | succ count =>
      rw [State.recvStep] at hstep
      split at hstep <;> cases hstep
      · exact h.setRecv (by rw [hpc]; nofun) _
      · exact (h.callClose _).setRecv (by rw [callClose_recv, hpc]; nofun) _
  | leave =>
    cases hstep
    exact (h.callClose _).setRecv (by rw [callClose_recv, hpc]; nofun) _

/-- The streams found in the map are closed one by one, then the map is emptied. -/
theorem dieStep {closing : Closing} (hclosing : s.closing = closing)
    (hstep : s.dieStep k closing = some t) : Inv t := by
  have hinsert : ∀ j, .insert j ∈ s.opens → closing.before := hclosing ▸ h.inserting
  cases closing with
  | idle | returned => cases hstep
  | hook owner =>
    cases hstep
    refine h.setClosing (fun _ _ => trivial) fun j hj => ?_
    rwa [State.Reachable, hclosing] at hj
  | lock owner =>
    obtain ⟨hfree, rfl⟩ := of_guard hstep
    refine h.setClosing (fun j hj => ?_) fun j hj => mem_values.mpr ?_
    · cases not_holdsLock hfree hj
    · rwa [State.Reachable, hclosing] at hj
  | streams owner todo =>
    have hreach : ∀ j, s.Reachable j → j ∈ todo := by
      intro j hj
      rwa [State.Reachable, hclosing] at hj
    cases todo with
    | nil =>
      cases hstep
      refine h.setClosing hinsert fun j hj => ?_
      cases hreach j hj
    | cons first rest =>
      obtain ⟨-, rfl⟩ := of_guard hstep
      have hshut := h.shut k
      refine ⟨fun j hj => ?_, hshut.exist, hinsert, hshut.closers⟩
      by_cases hjk : j = k
      · subst hjk
        exact .inl (closed_shut (h.exist j hj))
      · rcases h.safe j hj with hclosed | hfinish | hmem
        · exact .inl (Has.alter hclosed fun _ _ => rfl)
        · exact .inr (.inl hfinish)
        · exact .inr (.inr ((List.mem_erase_of_ne hjk).mpr (hreach j hmem)))
  | conn owner =>
    cases hstep
    refine h.setClosing hinsert fun j hj => ?_
    rwa [State.Reachable, hclosing] at hj

theorem next {a : Action} (orderly : Orderly s a) (hstep : s.next a = some t) : Inv t := by
  cases a with
  | openStream =>
    cases hstep
    have hmem : ∀ pc, pc ∈ s.opens ++ [.check] → pc ≠ .check → pc ∈ s.opens := by
      intro pc hpc hne
      exact (Table.mem_concat hpc).resolve_right hne
    have hgiven (k) : State.Given { s with opens := s.opens ++ [.check] } k → s.Given k :=
      Or.imp_right fun hk => hmem _ hk nofun
    exact { h with
      safe := fun k hk => h.safe k (hgiven k hk)
      exist := fun k hk => h.exist k (hgiven k hk)
      inserting := fun k hk => h.inserting k (hmem _ hk nofun) }
  | opening i ok =>
    obtain ⟨pc, hpc, hstep⟩ := Option.bind_eq_some_iff.mp hstep
    obtain ⟨-, hstep⟩ := of_guard_bind hstep
    exact h.openStep hpc orderly hstep
  | read f =>
    obtain ⟨⟨hread, -⟩, rfl⟩ := of_guard hstep
    exact h.setRecv (by rw [hread]; nofun) _
  | recv ok =>
    obtain ⟨-, hstep⟩ := of_guard_bind hstep
    exact h.recvStep rfl orderly hstep
  | closeStream k =>
    obtain ⟨-, rfl⟩ := of_guard hstep
    exact { h with closers := h.closers_append k }
  | closing j ok =>
    obtain ⟨c, hc, hstep⟩ := Option.bind_eq_some_iff.mp hstep
    obtain ⟨-, hstep⟩ := of_guard_bind hstep
    exact h.closeStep hc orderly hstep
  | close =>
    cases hstep
    exact h.callClose _
  | die k => exact h.dieStep rfl hstep

end

theorem start (isClient serves : Bool) : Inv (newSession isClient serves) where
  safe k hk := by rcases hk with hk | hk <;> cases hk
  exist k hk := by rcases hk with hk | hk <;> cases hk
  inserting k hk := by cases hk
  closers c hc := by cases hc

end Inv

/-- In every orderly run, once `Close` has returned and `recvLoop` has ended, every stream that
`OpenStream` returned or `onNewStream` got is closed. -/
theorem given_streams_closed {isClient serves : Bool} {actions : List Action} {s : State}
    (orderly : Guarded State.next Orderly (newSession isClient serves) actions)
    (hrun : run State.next (newSession isClient serves) actions = some s)
    (returned : s.closing = .returned) (exited : s.recv = .exited) :
    ∀ k, s.Given k → s.Closed k := by
  have h : Inv s := guarded_invariant (fun _ _ _ h ok hstep => h.next ok hstep)
    (Inv.start isClient serves) orderly hrun
  intro k hk
  rcases h.safe k hk with hclosed | hfinish | hreach
  · exact hclosed
  · cases exited.symm.trans hfinish
  · rw [State.Reachable, returned] at hreach
    exact hreach.elim

/-- `Session.Close` from its call to its return, with the streams of `todo`. -/
def closeAll (todo : List Nat) : List Action :=
  [close, .die 0, .die 0] ++ todo.map die ++ [die 0, .die 0]

/-- `recvLoop` takes a frame. -/
def received (f : Incoming) : List Action := [.recv true, .read f, .recv true]

/-- A client opens two streams and closes one of them; the other is closed with the session. -/
theorem given_streams_closed_client :
    ∃ s, run State.next (newSession true false)
        ([openStream, .openStream] ++ List.replicate 6 (opening 0 true) ++
          List.replicate 6 (opening 1 true) ++ [closeStream 0] ++
          List.replicate 4 (closing 0 true) ++ closeAll [1] ++
          [recv true, .recv true]) =
        some s ∧ s.opens = [.returned 0, .returned 1] ∧ ∀ k, s.Given k → s.Closed k := by
  refine exists_of_map (f := fun s => (s.opens, s.closing, s.recv))
    (b := ([.returned 0, .returned 1], .returned, .exited)) (by decide +kernel) fun s hrun h => ?_
  simp only [Prod.mk.injEq] at h
  obtain ⟨hopens, hclosing, hrecv⟩ := h
  exact ⟨hopens, given_streams_closed (by decide +kernel) hrun hclosing hrecv⟩

/-- A stream is left open when `recvLoop` had read its `SYN` before the session was closed; when
its number was used again while the close of the first stream was under way; and when the peer
sent a `SYN` with the number that `OpenStream` takes next. -/
theorem open_stream_left :
    (run State.next (newSession false true)
        (received (.settings 0) ++ [recv true, .recv true, .read (.syn 1)] ++ closeAll [] ++
          [recv true, .recv true, .recv true])).map
        (fun s => (s.closing, s.recv, s.handed, s.streams.objects)) =
      some (.returned, .exited, [0], [⟨1, false⟩]) ∧
    (run State.next (newSession false true)
        (received (.settings 0) ++ [recv true] ++ received (.syn 1) ++
          [closeStream 0, .closing 0 true, .closing 0 true, .closing 0 true] ++
          received (.fin 1) ++ [recv true] ++ received (.syn 1) ++ [closing 0 true] ++
          closeAll [] ++ [recv true, .recv true])).map
        (fun s => (s.closing, s.recv, s.handed, s.streams.objects)) =
      some (.returned, .exited, [0, 1], [⟨1, true⟩, ⟨1, false⟩]) ∧
    (run State.next (newSession true false)
        ([openStream, .opening 0 true, .opening 0 true] ++ received (.syn 1) ++
          [closing 0 true, .closing 0 true, .closing 0 true] ++
          List.replicate 4 (opening 0 true) ++ [closing 0 true] ++ closeAll [] ++
          [recv true, .recv true])).map
        (fun s => (s.closing, s.recv, s.opens, s.streams.objects)) =
      some (.returned, .exited, [.returned 0], [⟨1, false⟩, ⟨1, true⟩]) := by
  refine ⟨?_, ?_, ?_⟩ <;> decide +kernel

end AnyTls.Streams
