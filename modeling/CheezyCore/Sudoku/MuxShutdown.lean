import CheezyCore.Foundation.Transition
import CheezyCore.Sudoku.MuxStreams

/-!
# A closed mux session has no open stream

`closeWithError` takes the streams out of the map, closes them and closes the channel `closed`
after that. A stream on its way to a user is therefore found in the map when the streams are
taken out of it. This fails when a stream is registered between this and the closing of the
channel, when `readLoop` registers one even later, and when numbers are used twice.
-/

namespace Sudoku.MuxStreams

open Transition Registry

/-! ## Reading from a closed stream -/

namespace Stream

variable {st : Stream}

/-- No message of the queue is empty. -/
def Sound (st : Stream) : Prop := ∀ message ∈ st.queue, message ≠ []

theorem unread_refill (st : Stream) : st.refill.unread = st.unread := by
  obtain ⟨id, closed, remote, readBuf, queue, queued⟩ := st
  cases readBuf with
  | nil =>
    cases queue with
    | nil | cons message rest => rfl
  | cons b bytes => rfl

theorem closed_refill (st : Stream) : st.refill.closed = st.closed := by
  rw [refill]
  split <;> rfl

theorem id_refill (st : Stream) : st.refill.id = st.id := by
  rw [refill]
  split <;> rfl

theorem Sound.refill (h : st.Sound) : st.refill.Sound := by
  rw [Stream.refill]
  split
  · next hqueue =>
    intro message hmem
    exact h message (by rw [hqueue]; exact List.mem_cons_of_mem _ hmem)
  · exact h

theorem Sound.refill_ne_nil (h : st.Sound) (hunread : st.unread ≠ []) : st.refill.readBuf ≠ [] := by
  obtain ⟨id, closed, remote, readBuf, queue, queued⟩ := st
  cases readBuf with
  | nil =>
    cases queue with
    | nil => exact absurd rfl hunread
    | cons message rest => exact h message List.mem_cons_self
  | cons b bytes => exact List.cons_ne_nil _ _

/-- A closed stream without unread bytes reports an error. -/
theorem read_nil (hclosed : st.closed = true) (hunread : st.unread = []) (n : Nat) :
    ∃ st', st.read n = some (.error, st') := by
  obtain ⟨hbuf, hrest⟩ := List.append_eq_nil_iff.mp ((unread_refill st).trans hunread)
  refine ⟨st.refill, ?_⟩
  rw [read, if_neg, if_pos ⟨hbuf, .inl hclosed⟩]
  rintro ⟨-, -, hopen, -⟩
  rw [hclosed] at hopen
  cases hopen

/-- A closed stream with unread bytes returns some of them. -/
theorem read_data (h : st.Sound) (hclosed : st.closed = true) (hunread : st.unread ≠ []) {n : Nat}
    (hn : 0 < n) : ∃ bytes st', st.read n = some (.data bytes, st') ∧ bytes ≠ [] ∧
      bytes ++ st'.unread = st.unread ∧ st'.closed = true ∧ st'.Sound := by
  have hbuf := h.refill_ne_nil hunread
  refine ⟨st.refill.readBuf.take n, st.refill.consume n, ?_, ?_, ?_,
    (closed_refill st).trans hclosed, h.refill⟩
  · rw [read, if_neg, if_neg fun hand => hbuf hand.1]
    rintro ⟨-, -, hopen, -⟩
    rw [hclosed] at hopen
    cases hopen
  · intro hnil
    rcases List.take_eq_nil_iff.mp hnil with hzero | hempty
    · omega
    · exact hbuf hempty
  · rw [← unread_refill st, unread, unread, consume, ← List.append_assoc, List.take_append_drop]

/-- Enough reads of a closed stream return its unread bytes, and then an error. -/
theorem readAll_closed {sizes : List Nat} (h : st.Sound) (hclosed : st.closed = true)
    (hsizes : ∀ n ∈ sizes, 0 < n) (henough : st.unread.length < sizes.length) :
    st.readAll sizes = some (st.unread, true) := by
  induction sizes generalizing st with
  | nil => cases henough
  | cons n sizes ih =>
    rw [List.forall_mem_cons] at hsizes
    rw [readAll]
    by_cases hunread : st.unread = []
    · obtain ⟨st', hread⟩ := read_nil hclosed hunread n
      rw [hread, hunread]
      rfl
    · obtain ⟨bytes, st', hread, hne, hrest, hclosed', hsound⟩ :=
        read_data h hclosed hunread hsizes.1
      have hlength := congrArg List.length hrest
      rw [List.length_append] at hlength
      have hpos := List.length_pos_iff.mpr hne
      rw [List.length_cons] at henough
      have hsizes' : ∀ m ∈ sizes, 0 < m := hsizes.2
      have hall := ih hsound hclosed' hsizes' (by omega)
      simp [hread, hall, hrest]

theorem read_keeps {n : Nat} {result : ReadResult} {st' : Stream}
    (h : st.read n = some (result, st')) :
    st'.id = st.id ∧ st'.closed = st.closed ∧ (st.Sound → st'.Sound) := by
  rw [read] at h
  split at h
  · cases h
  · split at h
    all_goals
      cases h
      exact ⟨id_refill st, closed_refill st, Sound.refill⟩

theorem enqueue_keeps {payload : Bytes} {st' : Stream} (h : st.enqueue payload = some st')
    (hpayload : payload ≠ []) :
    st'.id = st.id ∧ st'.closed = st.closed ∧ (st.Sound → st'.Sound) := by
  revert h
  fun_cases enqueue st payload with
  | case1 | case3 =>
    rintro ⟨⟩
    exact ⟨rfl, rfl, fun hsound => hsound⟩
  | case2 => nofun
  | case4 =>
    rintro ⟨⟩
    exact ⟨rfl, rfl, (Table.forall_concat · hpayload)⟩

end Stream

/-! ## The condition on the steps -/

/-- `closeWithError` has not taken the streams out of the map. -/
def Closing.before : Closing → Prop
  | idle | snapshot => True
  | streams _ | conn | returned => False

instance : (c : Closing) → Decidable c.before
  | .idle | .snapshot => isTrue trivial
  | .streams _ | .conn | .returned => isFalse id

namespace State

/-- A number is removed for stream `k`, and not for another stream with the same number. -/
def Removes (s : State) (k : Nat) : Prop :=
  ∀ st ∈ s.streams.objects[k]?, ∀ j ∈ s.streams.slots st.id, j = k

instance (s : State) (k : Nat) : Decidable (s.Removes k) :=
  inferInstanceAs (Decidable (∀ st ∈ s.streams.objects[k]?, ∀ j ∈ s.streams.slots st.id, j = k))

end State

/-- `OpenStream` registers a stream under a free number, before the streams are taken out of the
map or after `closed` is closed, so that it fails. -/
def OpenPc.Orderly (s : State) : OpenPc → Prop
  | register number => s.streams.slots number = none ∧ (s.closing.before ∨ s.closing.shut = true)
  | remove k => s.Removes k
  | _ => True

def OfferPc.Orderly (s : State) : OfferPc → Prop
  | remove k => s.Removes k
  | _ => True

/-- `readLoop` registers a stream under a number that is still free, before the streams are taken
out of the map. -/
def ReadPc.Orderly (s : State) : ReadPc → Prop
  | register number => s.streams.slots number = none ∧ s.closing.before
  | remove k => s.Removes k
  | _ => True

def Orderly (s : State) : Action → Prop
  | .opening i _ => ∀ pc ∈ s.opens[i]?, pc.Orderly s
  | .offer i _ => ∀ pc ∈ s.offers[i]?, pc.Orderly s
  | .reader => s.reader.Orderly s
  | .closing j _ => ∀ c ∈ s.closes[j]?, c.pc = .remove → s.Removes c.stream
  | _ => True

instance (s : State) : (pc : OpenPc) → Decidable (pc.Orderly s)
  | .register _ => inferInstanceAs (Decidable (_ ∧ _))
  | .remove k => inferInstanceAs (Decidable (s.Removes k))
  | .check | .id | .send _ | .sending _ | .await _ | .close _ | .returned _ | .failed =>
    isTrue trivial

instance (s : State) : (pc : OfferPc) → Decidable (pc.Orderly s)
  | .remove k => inferInstanceAs (Decidable (s.Removes k))
  | .select _ | .close _ | .done => isTrue trivial

instance (s : State) : (pc : ReadPc) → Decidable (pc.Orderly s)
  | .register _ => inferInstanceAs (Decidable (_ ∧ _))
  | .remove k => inferInstanceAs (Decidable (s.Removes k))
  | .read | .frame _ | .enqueue .. | .closeRemote _ | .close _ | .leave | .exited => isTrue trivial

instance (s : State) : (a : Action) → Decidable (Orderly s a)
  | .opening i _ => inferInstanceAs (Decidable (∀ pc ∈ s.opens[i]?, pc.Orderly s))
  | .offer i _ => inferInstanceAs (Decidable (∀ pc ∈ s.offers[i]?, pc.Orderly s))
  | .reader => inferInstanceAs (Decidable (s.reader.Orderly s))
  | .closing .. => inferInstanceAs (Decidable (∀ _ ∈ _, _ → State.Removes ..))
  | .openStream | .receive _ | .accept | .read .. | .closeStream _ | .close | .die _ =>
    isTrue trivial

/-! ## The invariant -/

/-- The stream that the call may still return. -/
def OpenPc.promises (shut : Bool) : OpenPc → Option Nat
  | send k => if shut then none else some k
  | sending k | returned k => some k
  | _ => none

namespace State

def Closed (s : State) (k : Nat) : Prop := s.streams.Has k (·.closed = true)

/-- The stream has been returned or may still be. -/
def Needs (s : State) (k : Nat) : Prop :=
  (∃ pc ∈ s.opens, pc.promises s.closing.shut = some k) ∨ .select k ∈ s.offers ∨
    k ∈ s.acceptCh ∨ k ∈ s.accepted

/-- A goroutine is going to remove the number of the stream. -/
def Marks (s : State) (k : Nat) : Prop :=
  .remove k ∈ s.opens ∨ .remove k ∈ s.offers ∨ s.reader = .remove k ∨
    ∃ c ∈ s.closes, c.stream = k ∧ c.pc ≠ .mark

/-- `closeWithError` is going to close the stream. -/
def Reachable (s : State) (k : Nat) : Prop :=
  match s.closing with
  | .idle | .snapshot => Held Stream.id s.streams k
  | .streams todo => k ∈ todo
  | .conn | .returned => False

end State

structure Inv (s : State) : Prop where
  safe : ∀ k, s.Needs k → s.Closed k ∨ s.Reachable k
  exist : ∀ k, s.Needs k → s.streams.Has k fun _ => True
  marked : ∀ k, s.Marks k → s.Closed k
  sound : ∀ st ∈ s.streams.objects, st.Sound
  payload : ∀ k payload, s.reader = .enqueue k payload → payload ≠ []

section Reachable

variable {s t : State} {k : Nat}

theorem reachable_of_before (h : s.closing.before) :
    s.Reachable k ↔ Held Stream.id s.streams k := by
  rw [State.Reachable]
  revert h
  cases s.closing with
  | idle | snapshot => exact fun _ => Iff.rfl
  | streams | conn | returned => nofun

theorem State.Reachable.mono (h : s.Reachable k) (hclosing : t.closing = s.closing)
    (hheld : Held Stream.id s.streams k → Held Stream.id t.streams k) : t.Reachable k := by
  rw [State.Reachable] at h ⊢
  rw [hclosing]
  revert h
  cases s.closing with
  | idle | snapshot => exact hheld
  | streams | conn | returned => exact id

end Reachable

namespace Inv

variable {s t : State} {i j k : Nat} {closing : Closing} {id : UInt32}

section

variable (h : Inv s)
include h

theorem need (hk : s.Needs k) : (s.Closed k ∨ s.Reachable k) ∧ s.streams.Has k fun _ => True :=
  ⟨h.safe k hk, h.exist k hk⟩

/-- A step that leaves the streams alone and gives away those that could be found. -/
theorem keep (hstreams : t.streams = s.streams) (hclosing : t.closing = s.closing)
    (hneeds : ∀ k, t.Needs k → (s.Closed k ∨ s.Reachable k) ∧ s.streams.Has k fun _ => True)
    (hmarks : ∀ k, t.Marks k → s.Closed k)
    (hpayload : ∀ k payload, t.reader = .enqueue k payload → payload ≠ []) : Inv t where
  safe k hk := by
    rcases (hneeds k hk).1 with hclosed | hreach
    · exact .inl (by rwa [State.Closed, hstreams])
    · exact .inr (hreach.mono hclosing (by rw [hstreams]; exact id))
  exist k hk := by
    rw [hstreams]
    exact (hneeds k hk).2
  marked k hk := by
    rw [State.Closed, hstreams]
    exact hmarks k hk
  sound := by
    rw [hstreams]
    exact h.sound
  payload := hpayload

theorem setOpen {pc : OpenPc} (hpromise : ∀ k, pc.promises s.closing.shut = some k →
      (s.Closed k ∨ s.Reachable k) ∧ s.streams.Has k fun _ => True)
    (hmark : ∀ k, pc = .remove k → s.Closed k) : Inv (s.setOpen i pc) := by
  refine h.keep rfl rfl ?_ ?_ h.payload
  · rintro k (⟨pc', hpc', hk⟩ | hrest)
    · rcases List.mem_or_eq_of_mem_set hpc' with hold | rfl
      · exact h.need (.inl ⟨pc', hold, hk⟩)
      · exact hpromise k hk
    · exact h.need (.inr hrest)
  · rintro k (hopen | hrest)
    · rcases List.mem_or_eq_of_mem_set hopen with hold | hnew
      · exact h.marked k (.inl hold)
      · exact hmark k hnew.symm
    · exact h.marked k (.inr hrest)

theorem setOffer {pc : OfferPc} (hselect : ∀ k, pc ≠ .select k)
    (hmark : ∀ k, pc = .remove k → s.Closed k) : Inv (s.setOffer i pc) := by
  refine h.keep rfl rfl ?_ ?_ h.payload
  · rintro k (hopen | hoffer | hrest)
    · exact h.need (.inl hopen)
    · rcases List.mem_or_eq_of_mem_set hoffer with hold | hnew
      · exact h.need (.inr (.inl hold))
      · exact absurd hnew.symm (hselect k)
    · exact h.need (.inr (.inr hrest))
  · rintro k (hopen | hoffer | hrest)
    · exact h.marked k (.inl hopen)
    · rcases List.mem_or_eq_of_mem_set hoffer with hold | hnew
      · exact h.marked k (.inr (.inl hold))
      · exact hmark k hnew.symm
    · exact h.marked k (.inr (.inr hrest))

theorem setClose {pc : ClosePc} {c : CloseCall} (hc : s.closes[j]? = some c)
    (hclosed : s.Closed c.stream) : Inv (s.setClose j pc) := by
  refine { h with marked := ?_ }
  rintro k (hopen | hoffer | hreader | ⟨c', hc', rfl, hpc⟩)
  · exact h.marked k (.inl hopen)
  · exact h.marked k (.inr (.inl hoffer))
  · exact h.marked k (.inr (.inr (.inl hreader)))
  · obtain ⟨i, hi⟩ := List.mem_iff_getElem?.mp hc'
    obtain ⟨old, hold, ⟨-, rfl⟩ | ⟨rfl, rfl⟩⟩ := Table.getElem?_modify_cases hi
    · exact h.marked _ (.inr (.inr (.inr ⟨c', List.mem_of_getElem? hold, rfl, hpc⟩)))
    · cases hc.symm.trans hold
      exact hclosed

theorem setReader {pc : ReadPc} (hmark : ∀ k, pc = .remove k → s.Closed k)
    (hpayload : ∀ k payload, pc = .enqueue k payload → payload ≠ []) :
    Inv { s with reader := pc } := by
  refine { h with marked := ?_, payload := hpayload }
  rintro k (hopen | hoffer | hreader | hclose)
  · exact h.marked k (.inl hopen)
  · exact h.marked k (.inr (.inl hoffer))
  · exact hmark k hreader
  · exact h.marked k (.inr (.inr (.inr hclose)))

end

/-- After `closed` is closed fewer streams may still be returned. -/
theorem needs_of_shut (hshut : s.closing.shut = true → closing.shut = true)
    (hk : State.Needs { s with closing } k) : s.Needs k := by
  refine hk.imp_left fun ⟨pc, hpc, hpromise⟩ => ⟨pc, hpc, ?_⟩
  cases pc with
  | send j =>
    rw [OpenPc.promises] at hpromise ⊢
    split at hpromise
    · cases hpromise
    · next hopen => rwa [if_neg fun h => hopen (hshut h)]
  | sending | returned => exact hpromise
  | _ => cases hpromise

section

variable (h : Inv s)
include h

/-- `closeWithError` goes on and finds the streams it would have found. -/
theorem setClosing {slots : UInt32 → Option Nat}
    (hshut : s.closing.shut = true → closing.shut = true) (hreach : ∀ j, s.Reachable j →
      State.Reachable { s with streams := { s.streams with slots }, closing } j) :
    Inv { s with streams := { s.streams with slots }, closing } where
  __ := h
  safe j hj := (h.safe j (needs_of_shut hshut hj)).imp_right (hreach j)
  exist j hj := h.exist j (needs_of_shut hshut hj)

theorem callClose : Inv s.callClose := by
  rw [State.callClose]
  split
  · next hidle =>
    refine h.setClosing (by rw [hidle]; nofun) fun j hj => ?_
    rwa [State.Reachable, hidle] at hj
  · exact h

/-- A stream is changed and not opened again. -/
theorem alter {f : Stream → Stream}
    (hid : ∀ st, s.streams.objects[k]? = some st → (f st).id = st.id)
    (hclosed : ∀ st, s.streams.objects[k]? = some st → st.closed = true → (f st).closed = true)
    (hsound : ∀ st, s.streams.objects[k]? = some st → st.Sound → (f st).Sound) :
    Inv (s.alter k f) := by
  have hkeeps : ∀ j, s.Closed j → (s.alter k f).Closed j := by
    rintro j ⟨st, hst, hc⟩
    refine ⟨_, Table.getElem?_modify_some k f hst, ?_⟩
    split
    · next hkj =>
      subst hkj
      exact hclosed st hst hc
    · exact hc
  refine ⟨fun j hj => ?_, fun j hj => ?_, fun j hj => hkeeps j (h.marked j hj), ?_, h.payload⟩
  · rcases h.safe j hj with hc | hreach
    · exact .inl (hkeeps j hc)
    · exact .inr (hreach.mono rfl fun hheld => hheld.alter hid)
  · exact Has.alter (h.exist j hj) fun _ => id
  · intro st hst
    obtain ⟨j, hj⟩ := List.mem_iff_getElem?.mp hst
    obtain ⟨old, hold, ⟨-, rfl⟩ | ⟨rfl, rfl⟩⟩ := Table.getElem?_modify_cases hj
    · exact h.sound st (List.mem_of_getElem? hold)
    · exact hsound old hold (h.sound old (List.mem_of_getElem? hold))

theorem replace {st st' : Stream} (hst : s.streams.objects[k]? = some st)
    (hkeeps : st'.id = st.id ∧ st'.closed = st.closed ∧ (st.Sound → st'.Sound)) :
    Inv (s.alter k fun _ => st') := by
  obtain ⟨hid, hclosed, hsound⟩ := hkeeps
  have hsame : ∀ old, s.streams.objects[k]? = some old → st = old := fun old hold =>
    Option.some.inj (hst.symm.trans hold)
  refine h.alter (fun old hold => ?_) (fun old hold => ?_) fun old hold => ?_
  all_goals obtain rfl := hsame old hold
  · exact hid
  · exact hclosed.trans
  · exact hsound

theorem closeNoSend (hstep : s.closeNoSend k = some t) : Inv t ∧ t.Closed k := by
  obtain ⟨st, hst, rfl⟩ := Option.map_eq_some_iff.mp hstep
  refine ⟨h.alter (fun _ _ => rfl) (fun _ _ _ => rfl) fun _ _ hs => hs, ?_⟩
  have hexists : s.streams.Has k fun _ => True := ⟨st, hst, trivial⟩
  exact Has.alter_self hexists fun _ _ => rfl

theorem remove (hmarked : s.Closed k) (orderly : s.Removes k) (hstep : s.remove k = some t) :
    Inv t := by
  obtain ⟨st, hst, rfl⟩ := Option.map_eq_some_iff.mp hstep
  refine { h with safe := fun j hj => ?_ }
  rcases h.safe j hj with hclosed | hreach
  · exact .inl hclosed
  · by_cases hslot : s.streams.slots st.id = some j
    · rw [orderly st hst j hslot]
      exact .inl hmarked
    · exact .inr (hreach.mono rfl fun hheld => hheld.delete hslot)

/-- A stream is registered under a free number. -/
theorem register (hfree : s.streams.slots id = none) : Inv (s.register id) := by
  have hkeeps : ∀ j, s.Closed j → (s.register id).Closed j := fun j hj => Has.make hj _
  refine ⟨fun j hj => ?_, fun j hj => Has.make (h.exist j hj) _,
    fun j hj => hkeeps j (h.marked j hj), Table.forall_concat h.sound nofun, h.payload⟩
  · rcases h.safe j hj with hclosed | hreach
    · exact .inl (hkeeps j hclosed)
    · exact .inr (hreach.mono rfl fun hheld => (hheld.make _).put hfree)

end

/-- A stream that was registered before the streams are taken out is found. -/
theorem need_register (s : State) (id : UInt32) (hbefore : s.closing.before) :
    ((s.register id).Closed s.streams.objects.length ∨
      (s.register id).Reachable s.streams.objects.length) ∧
      (s.register id).streams.Has s.streams.objects.length fun _ => True := by
  have hself : (s.streams.make { id }).Has s.streams.objects.length fun st => st.id = id :=
    has_make_self rfl
  refine ⟨.inr ?_, has_make_self trivial⟩
  exact (reachable_of_before (s := s.register id) hbefore).mpr (held_put_self hself)

theorem openRegister (h : Inv s) (hfree : s.streams.slots id = none)
    (hphase : s.closing.before ∨ s.closing.shut = true) :
    Inv ((s.register id).setOpen i (.send s.streams.objects.length)) := by
  refine (h.register hfree).setOpen (fun k hk => ?_) nofun
  rw [OpenPc.promises] at hk
  split at hk <;> cases hk
  next hopen => exact need_register s id (hphase.resolve_right hopen)

theorem openStep (h : Inv s) {result : Sending} {pc : OpenPc} (hpc : s.opens[i]? = some pc)
    (orderly : pc.Orderly s) (hstep : s.openStep i result pc = some t) : Inv t := by
  have hmem : pc ∈ s.opens := List.mem_of_getElem? hpc
  cases pc with
  | check =>
    cases hstep
    split <;> exact h.setOpen nofun nofun
  | id =>
    cases hstep
    have hnext : Inv { s with nextID := s.nextStreamID } := { h with }
    exact hnext.setOpen nofun nofun
  | register id =>
    cases hstep
    exact h.openRegister orderly.1 orderly.2
  | send k =>
    cases hstep
    split
    · exact h.setOpen nofun nofun
    · next hshut =>
      refine h.setOpen (fun j hj => h.need (.inl ⟨_, hmem, ?_⟩)) nofun
      rw [OpenPc.promises, if_neg hshut]
      exact hj
  | sending k =>
    have hneed := h.need (.inl ⟨_, hmem, rfl⟩)
    cases hstep
    cases result with
    | sent =>
      refine h.setOpen (fun j hj => ?_) nofun
      cases hj
      exact hneed
    | refused => exact h.setOpen nofun nofun
    | failed => exact h.callClose.setOpen nofun nofun
  | await k =>
    obtain ⟨-, rfl⟩ := of_guard hstep
    exact h.setOpen nofun nofun
  | close k =>
    obtain ⟨u, hu, rfl⟩ := Option.map_eq_some_iff.mp hstep
    obtain ⟨hinv, hclosed⟩ := h.closeNoSend hu
    refine hinv.setOpen nofun fun j hj => ?_
    cases hj
    exact hclosed
  | remove k =>
    obtain ⟨u, hu, rfl⟩ := Option.map_eq_some_iff.mp hstep
    exact (h.remove (h.marked k (.inl hmem)) orderly hu).setOpen nofun nofun
  | returned k | failed => cases hstep

theorem offerStep (h : Inv s) {take : Bool} {pc : OfferPc} (hpc : s.offers[i]? = some pc)
    (orderly : pc.Orderly s) (hstep : s.offerStep i take pc = some t) : Inv t := by
  have hmem : pc ∈ s.offers := List.mem_of_getElem? hpc
  cases pc with
  | select k =>
    rw [State.offerStep] at hstep
    split at hstep
    · obtain ⟨-, rfl⟩ := of_guard hstep
      exact h.setOffer nofun nofun
    · obtain ⟨-, rfl⟩ := of_guard hstep
      have hpushed : Inv { s with acceptCh := s.acceptCh ++ [k] } := by
        refine h.keep rfl rfl (fun j hj => h.need ?_) h.marked h.payload
        rcases hj with hopen | hoffer | hchannel | haccepted
        · exact .inl hopen
        · exact .inr (.inl hoffer)
        · rcases Table.mem_concat hchannel with hold | rfl
          · exact .inr (.inr (.inl hold))
          · exact .inr (.inl hmem)
        · exact .inr (.inr (.inr haccepted))
      exact hpushed.setOffer nofun nofun
  | close k =>
    obtain ⟨u, hu, rfl⟩ := Option.map_eq_some_iff.mp hstep
    obtain ⟨hinv, hclosed⟩ := h.closeNoSend hu
    refine hinv.setOffer nofun fun j hj => ?_
    cases hj
    exact hclosed
  | remove k =>
    obtain ⟨u, hu, rfl⟩ := Option.map_eq_some_iff.mp hstep
    exact (h.remove (h.marked k (.inr (.inl hmem))) orderly hu).setOffer nofun nofun
  | done => cases hstep

theorem callClose_closes (s : State) : s.callClose.closes = s.closes := by
  rw [State.callClose]
  split <;> rfl

theorem callClose_streams (s : State) : s.callClose.streams = s.streams := by
  rw [State.callClose]
  split <;> rfl

section

variable (h : Inv s)
include h

theorem closeStep {result : Sending} {c : CloseCall} (hc : s.closes[j]? = some c)
    (orderly : c.pc = .remove → s.Removes c.stream) (hstep : s.closeStep j result c = some t) :
    Inv t := by
  have hmarked : c.pc ≠ .mark → s.Closed c.stream := fun hpc =>
    h.marked c.stream (.inr (.inr (.inr ⟨c, List.mem_of_getElem? hc, rfl, hpc⟩)))
  obtain ⟨k, pc⟩ := c
  cases pc with
  | mark =>
    obtain ⟨st, hst, rfl⟩ := Option.map_eq_some_iff.mp hstep
    split
    · next hclosed => exact h.setClose hc ⟨st, hst, hclosed⟩
    · have hinv : Inv (s.alter k Stream.close) :=
        h.alter (fun _ _ => rfl) (fun _ _ _ => rfl) fun _ _ _ => nofun
      have hexists : s.streams.Has k fun _ => True := ⟨st, hst, trivial⟩
      exact hinv.setClose hc (Has.alter_self hexists fun _ _ => rfl)
  | send =>
    rw [State.closeStep] at hstep
    simp only at hstep
    split at hstep <;> cases hstep
    · exact h.setClose hc (hmarked nofun)
    · refine h.callClose.setClose (by rwa [callClose_closes]) ?_
      rw [State.Closed, callClose_streams]
      exact hmarked nofun
  | await =>
    obtain ⟨-, rfl⟩ := of_guard hstep
    exact h.setClose hc (hmarked nofun)
  | remove =>
    obtain ⟨u, hu, rfl⟩ := Option.map_eq_some_iff.mp hstep
    have hclosed := hmarked nofun
    have hinv := h.remove hclosed (orderly rfl) hu
    obtain ⟨st, hst, rfl⟩ := Option.map_eq_some_iff.mp hu
    exact hinv.setClose hc hclosed
  | returned => cases hstep

theorem frameStep (f : Incoming) : Inv (s.frameStep f) := by
  cases f with
  | «open» id =>
    rw [State.frameStep]
    split <;> exact h.setReader nofun nofun
  | data id payload =>
    rw [State.frameStep]
    cases s.streams.slots id with
    | none => exact h.setReader nofun nofun
    | some k =>
      split
      · exact h.setReader nofun nofun
      · next hpayload =>
        refine h.setReader nofun fun j p hp => ?_
        cases hp
        exact hpayload
  | close id | reset id =>
    rw [State.frameStep]
    cases s.streams.slots id with
    | none | some k => exact h.setReader nofun nofun
  | keepalive => exact h.setReader nofun nofun
  | fail => exact h.callClose.setReader nofun nofun

theorem readerRegister (hfree : s.streams.slots id = none) (hbefore : s.closing.before) :
    Inv { s.register id with
      offers := s.offers ++ [.select s.streams.objects.length]
      reader := .read } := by
  have hreg := h.register hfree
  refine hreg.keep rfl rfl ?_ ?_ nofun
  · rintro j (hopen | hoffer | hrest)
    · exact hreg.need (.inl hopen)
    · rcases Table.mem_concat hoffer with hold | hnew
      · exact hreg.need (.inr (.inl hold))
      · cases hnew
        exact need_register s id hbefore
    · exact hreg.need (.inr (.inr hrest))
  · rintro j (hopen | hoffer | hreader | hclose)
    · exact hreg.marked j (.inl hopen)
    · rcases List.mem_append.mp hoffer with hold | hnew
      · exact hreg.marked j (.inr (.inl hold))
      · cases List.mem_singleton.mp hnew
    · cases hreader
    · exact hreg.marked j (.inr (.inr (.inr hclose)))

theorem readerStep {pc : ReadPc} (hpc : s.reader = pc) (orderly : pc.Orderly s)
    (hstep : s.readerStep pc = some t) : Inv t := by
  cases pc with
  | read | exited => cases hstep
  | frame f =>
    cases hstep
    exact h.frameStep f
  | register id =>
    cases hstep
    exact h.readerRegister orderly.1 orderly.2
  | enqueue k payload =>
    obtain ⟨st, hst, rfl⟩ := Option.map_eq_some_iff.mp hstep
    cases henqueue : st.enqueue payload with
    | none => exact h.setReader nofun nofun
    | some st' =>
      have hkeeps := Stream.enqueue_keeps henqueue (h.payload k payload hpc)
      exact (h.replace hst hkeeps).setReader nofun nofun
  | closeRemote k =>
    cases hstep
    have hinv : Inv (s.alter k Stream.closeRemoteWrite) := by
      refine h.alter (fun st _ => ?_) (fun st _ hclosed => ?_) fun st _ hsound => ?_
      · rw [Stream.closeRemoteWrite]
        split <;> rfl
      · rwa [Stream.closeRemoteWrite, if_pos hclosed]
      · rw [Stream.closeRemoteWrite]
        split <;> exact hsound
    exact hinv.setReader nofun nofun
  | close k =>
    obtain ⟨u, hu, rfl⟩ := Option.map_eq_some_iff.mp hstep
    obtain ⟨hinv, hclosed⟩ := h.closeNoSend hu
    refine hinv.setReader (fun j hj => ?_) nofun
    cases hj
    exact hclosed
  | remove k =>
    obtain ⟨u, hu, rfl⟩ := Option.map_eq_some_iff.mp hstep
    have hclosed := h.marked k (.inr (.inr (.inl hpc)))
    exact (h.remove hclosed orderly hu).setReader nofun nofun
  | leave =>
    obtain ⟨-, rfl⟩ := of_guard hstep
    exact h.setReader nofun nofun

/-- The streams are taken out of the map and closed one by one. -/
theorem dieStep (hclosing : s.closing = closing) (hstep : s.dieStep k closing = some t) :
    Inv t := by
  cases closing with
  | idle | returned => cases hstep
  | snapshot =>
    cases hstep
    refine h.setClosing (by rw [hclosing]; nofun) fun j hj => mem_values.mpr ?_
    rwa [State.Reachable, hclosing] at hj
  | streams todo =>
    have hreach : ∀ j, s.Reachable j → j ∈ todo := by
      intro j hj
      rwa [State.Reachable, hclosing] at hj
    cases todo with
    | nil =>
      cases hstep
      refine h.setClosing (fun _ => rfl) fun j hj => ?_
      cases hreach j hj
    | cons first rest =>
      obtain ⟨-, hstep⟩ := of_guard_bind hstep
      obtain ⟨u, hu, rfl⟩ := Option.map_eq_some_iff.mp hstep
      obtain ⟨hinv, hclosed⟩ := h.closeNoSend hu
      obtain ⟨st, hst, rfl⟩ := Option.map_eq_some_iff.mp hu
      have hneeds : ∀ j, State.Needs { s.alter k Stream.closeNoSend with
          closing := .streams ((first :: rest).erase k) } j → s.Needs j := fun j hj =>
        needs_of_shut (by rw [hclosing]; nofun) hj
      refine { hinv with safe := fun j hj => ?_, exist := fun j hj => hinv.exist j (hneeds j hj) }
      by_cases hjk : j = k
      · subst hjk
        exact .inl hclosed
      · rcases h.safe j (hneeds j hj) with hold | hmem
        · exact .inl (Has.alter hold fun _ _ => rfl)
        · exact .inr ((List.mem_erase_of_ne hjk).mpr (hreach j hmem))
  | conn =>
    cases hstep
    refine h.setClosing (fun _ => rfl) fun j hj => ?_
    rwa [State.Reachable, hclosing] at hj

theorem next {a : Action} (orderly : Orderly s a) (hstep : s.next a = some t) : Inv t := by
  cases a with
  | openStream =>
    cases hstep
    refine h.keep rfl rfl ?_ ?_ h.payload
    · rintro k (⟨pc, hpc, hk⟩ | hrest)
      · rcases Table.mem_concat hpc with hold | rfl
        · exact h.need (.inl ⟨pc, hold, hk⟩)
        · cases hk
      · exact h.need (.inr hrest)
    · rintro k (hopen | hrest)
      · rcases List.mem_append.mp hopen with hold | hnew
        · exact h.marked k (.inl hold)
        · cases List.mem_singleton.mp hnew
      · exact h.marked k (.inr hrest)
  | opening i result =>
    obtain ⟨pc, hpc, hstep⟩ := Option.bind_eq_some_iff.mp hstep
    exact h.openStep hpc (orderly pc hpc) hstep
  | receive f =>
    obtain ⟨-, rfl⟩ := of_guard hstep
    exact h.setReader nofun nofun
  | reader => exact h.readerStep rfl orderly hstep
  | offer i take =>
    obtain ⟨pc, hpc, hstep⟩ := Option.bind_eq_some_iff.mp hstep
    exact h.offerStep hpc (orderly pc hpc) hstep
  | accept =>
    rw [State.next] at hstep
    split at hstep <;> cases hstep
    next k rest hchannel =>
      refine h.keep rfl rfl (fun j hj => h.need ?_) h.marked h.payload
      rcases hj with hopen | hoffer | hmem | haccepted
      · exact .inl hopen
      · exact .inr (.inl hoffer)
      · refine .inr (.inr (.inl ?_))
        rw [hchannel]
        exact List.mem_cons_of_mem k hmem
      · rcases Table.mem_concat haccepted with hold | rfl
        · exact .inr (.inr (.inr hold))
        · refine .inr (.inr (.inl ?_))
          rw [hchannel]
          exact List.mem_cons_self
  | read k n =>
    obtain ⟨-, hstep⟩ := of_guard_bind hstep
    obtain ⟨st, hst, hstep⟩ := Option.bind_eq_some_iff.mp hstep
    obtain ⟨⟨result, st'⟩, hread, rfl⟩ := Option.map_eq_some_iff.mp hstep
    exact h.replace hst (Stream.read_keeps hread)
  | closeStream k =>
    obtain ⟨-, rfl⟩ := of_guard hstep
    refine { h with marked := ?_ }
    rintro j (hopen | hoffer | hreader | ⟨c, hc, rfl, hpc⟩)
    · exact h.marked j (.inl hopen)
    · exact h.marked j (.inr (.inl hoffer))
    · exact h.marked j (.inr (.inr (.inl hreader)))
    · rcases Table.mem_concat hc with hold | rfl
      · exact h.marked c.stream (.inr (.inr (.inr ⟨c, hold, rfl, hpc⟩)))
      · exact absurd rfl hpc
  | closing j result =>
    obtain ⟨c, hc, hstep⟩ := Option.bind_eq_some_iff.mp hstep
    exact h.closeStep hc (orderly c hc) hstep
  | close =>
    cases hstep
    exact h.callClose
  | die k => exact h.dieStep rfl hstep

end

theorem start (serves : Bool) : Inv (newSession serves) where
  safe k hk := by simp [State.Needs, newSession] at hk
  exist k hk := by simp [State.Needs, newSession] at hk
  marked k hk := by simp [State.Marks, newSession] at hk
  sound := nofun
  payload := nofun

end Inv

/-- In every orderly run, once `closeWithError` has returned, every stream that `OpenStream` or
`AcceptStream` returned is closed: enough reads return its unread bytes and then an error. Other
calls of `OpenStream` and `readLoop` may still be in progress. -/
theorem returned_streams_closed {serves : Bool} {actions : List Action} {s : State}
    (orderly : Guarded State.next Orderly (newSession serves) actions)
    (hrun : run State.next (newSession serves) actions = some s)
    (returned : s.closing = .returned) :
    ∀ k, s.Given k → ∃ st, s.streams.objects[k]? = some st ∧ st.closed = true ∧
      ∀ sizes : List Nat, (∀ n ∈ sizes, 0 < n) → st.unread.length < sizes.length →
        st.readAll sizes = some (st.unread, true) := by
  have h : Inv s := guarded_invariant (fun _ _ _ h ok hstep => h.next ok hstep)
    (Inv.start serves) orderly hrun
  intro k hk
  have hneeds : s.Needs k := by
    rcases hk with hopen | haccepted
    · exact .inl ⟨_, hopen, rfl⟩
    · exact .inr (.inr (.inr haccepted))
  rcases h.safe k hneeds with ⟨st, hst, hclosed⟩ | hreach
  · refine ⟨st, hst, hclosed, fun sizes hsizes henough => ?_⟩
    exact Stream.readAll_closed (h.sound st (List.mem_of_getElem? hst)) hclosed hsizes henough
  · rw [State.Reachable, returned] at hreach
    exact hreach.elim

/-- `readLoop` takes a frame and acts on it in `steps` steps. -/
def received (f : Incoming) (steps : Nat) : List Action :=
  .receive f :: List.replicate steps .reader

/-- `Session.Close` from its call to its return, with the streams of `todo`. -/
def closeAll (todo : List Nat) : List Action :=
  [Action.close, .die 0] ++ todo.map Action.die ++ [Action.die 0, .die 0]

/-- A peer opens a stream, it is accepted, and data for it arrives before the session is closed;
the second of two reads reports the error. -/
theorem returned_streams_closed_accepted :
    ∃ s, run State.next (newSession true)
        (received (.open 1) 2 ++ [Action.offer 0 false, .accept] ++ received (.data 1 [7]) 2 ++
          closeAll [0]) = some s ∧
      ∃ st, s.streams.objects[0]? = some st ∧ st.closed = true ∧ st.unread = [7] ∧
        st.readAll [5, 5] = some ([7], true) := by
  refine exists_of_map (f := fun s => (s.closing, s.accepted, s.streams.objects.map Stream.unread))
    (b := (.returned, [0], [[7]])) (by decide +kernel) fun s hrun hend => ?_
  simp only [Prod.mk.injEq] at hend
  obtain ⟨hclosing, haccepted, hunread⟩ := hend
  obtain ⟨st, hst, hclosed, hreads⟩ := returned_streams_closed (by decide +kernel) hrun hclosing 0
    (.inr (by rw [haccepted]; exact List.mem_cons_self))
  have hbytes : st.unread = [7] := by
    have hget := congrArg (fun l => l[0]?) hunread
    simp only [List.getElem?_map, hst] at hget
    exact Option.some.inj hget
  refine ⟨st, hst, hclosed, hbytes, ?_⟩
  rw [← hbytes]
  exact hreads [5, 5] (by decide) (by rw [hbytes]; decide)

/-- A read of the stream waits. -/
def Waits (st : Stream) : Bool := (st.read 1).isNone

/-- A read waits for ever on a stream that `OpenStream` registers after the streams were taken out
of the map and before `closed` is closed; on one that `readLoop` registers after that and
`AcceptStream` returns; and on one with the number of a stream whose `Close` is under way. -/
theorem open_stream_left_waiting :
    (run State.next (newSession false)
        ([Action.openStream, .opening 0 .sent, .opening 0 .sent, .close, .die 0, .opening 0 .sent,
          .opening 0 .sent, .opening 0 .sent, .die 0, .die 0] ++ received .fail 2)).map
        (fun s => (s.closing, s.reader, s.opens, s.streams.objects.map (Waits ·))) =
      some (.returned, .exited, [.returned 0], [true]) ∧
    (run State.next (newSession true)
        (received (.open 1) 1 ++ closeAll [] ++ [Action.reader, .offer 0 false, .accept] ++
          received .fail 2)).map
        (fun s => (s.closing, s.reader, s.accepted, s.streams.objects.map (Waits ·))) =
      some (.returned, .exited, [0], [true]) ∧
    (run State.next (newSession true)
        (received (.open 1) 2 ++ [Action.offer 0 false, .accept, .closeStream 0, .closing 0 .sent,
          .closing 0 .sent] ++ received (.reset 1) 3 ++ received (.open 1) 2 ++
          [Action.offer 1 false, .accept, .closing 0 .sent] ++ closeAll [] ++ received .fail 2)).map
        (fun s => (s.closing, s.reader, s.accepted, s.streams.objects.map (Waits ·))) =
      some (.returned, .exited, [0, 1], [false, true]) := by
  refine ⟨?_, ?_, ?_⟩ <;> decide +kernel

end Sudoku.MuxStreams
