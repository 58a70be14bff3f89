import CheezyCore.XrayMux.DownlinkSteps

/-!
# From the connection to the frames

However the connection cuts its bytes, `readLoop` handles the frames of the stream in
order and each of them once. `Conserved` says where the received bytes are: handled,
with `readLoop`, in the carrier's pipe, or with `carrierFill`. Only `drop` loses some.
-/

namespace XrayMux

open BigEndian Chunks

def CarrierFill.held : CarrierFill → List UInt8
  | .writing chunk _ => chunk
  | _ => []

namespace Downlink

variable {d d' : Downlink}

/-- The received bytes are the frames handled so far, then the bytes `readLoop` has
taken, then those in the carrier's pipe and in the hands of `carrierFill`. When
`readLoop` has closed the worker it has left no frame behind. -/
structure Conserved (d : Downlink) : Prop where
  carrier : d.carrier.Valid carrierDownlinkLimit
  chunk : ∀ chunk err, d.fill = .writing chunk err → chunk ≠ []
  frames : ∀ x ∈ d.handled, dataFraming.Valid x
  order : ∃ later, d.received = dataFraming.stream d.handled ++ (d.pending ++ later)
  whole : d.dropped = false → d.received =
    dataFraming.stream d.handled ++ (d.pending ++ (d.carrier.contents ++ d.fill.held))
  ended : d.dropped = false → d.carrier.closed = true → d.fill = .stopped
  empty : d.dropped = true → d.carrier.chunks = [] ∧ d.carrier.closed = true
  kept : d.uplink.teardown = .idle → d.dropped = false
  last : d.loopClosed = true → d.loop = .stopped ∧ ∃ e, readFrame d.pending = .error e ∧
    (e.isShort = true → d.fill = .stopped ∧
      d.received = dataFraming.stream d.handled ++ d.pending)

theorem conserved_start (maxWorkerUses : Int) : (start maxWorkerUses).Conserved where
  carrier := SessionPipe.valid_new (by decide)
  chunk := nofun
  frames := nofun
  order := ⟨[], rfl⟩
  whole _ := rfl
  ended _ := nofun
  empty := nofun
  kept _ := rfl
  last := nofun

section Conserved

variable (h : d.Conserved) {u : Uplink}
include h

/-- As long as `readLoop` runs, it has not closed the worker. -/
theorem Conserved.loopClosed_eq_false (hloop : d.loop ≠ .stopped) : d.loopClosed = false := by
  rw [← Bool.not_eq_true]
  exact fun hclosed => hloop (h.last hclosed).1

/-- `carrierFill` goes on. The end of `readLoop`, if it was there first, was not the end
of the stream. -/
theorem Conserved.last_of_fill (hfill : d.fill ≠ .stopped) (hclosed : d.loopClosed = true)
    {P : Prop} :
    d.loop = .stopped ∧ ∃ e, readFrame d.pending = .error e ∧ (e.isShort = true → P) := by
  obtain ⟨hloop, e, he, hshort⟩ := h.last hclosed
  exact ⟨hloop, e, he, fun hs => absurd (hshort hs).1 hfill⟩

theorem Conserved.receive (hreading : d.fill = .reading) {bytes : List UInt8} (hne : bytes ≠ [])
    (err : Option Err) :
    Conserved { d with received := d.received ++ bytes, fill := .writing bytes err } where
  __ := h
  chunk chunk err' heq := by
    cases heq
    exact hne
  order := by
    obtain ⟨later, hlater⟩ := h.order
    exact ⟨later ++ bytes, by simp [hlater]⟩
  whole hdropped := by
    have hwhole := h.whole hdropped
    rw [hreading] at hwhole
    simp [hwhole, CarrierFill.held]
  ended hdropped hclosed := by
    have hstopped := h.ended hdropped hclosed
    rw [hreading] at hstopped
    cases hstopped
  last hclosed := h.last_of_fill (hreading ▸ nofun) hclosed

/-- A chunk goes into the carrier's pipe. -/
theorem Conserved.store {chunk : List UInt8} {err : Option Err}
    (hfill : d.fill = .writing chunk err) {p : SessionPipe}
    (hwrite : d.carrier.write chunk = some (.ok p)) :
    Conserved { d with carrier := p, fill := .reading } where
  __ := h
  carrier := h.carrier.write hwrite (h.chunk chunk err hfill)
  chunk := nofun
  whole hdropped := by
    have hwhole := h.whole hdropped
    rw [hfill] at hwhole
    simp only [hwhole, SessionPipe.write_contents hwrite, CarrierFill.held, List.append_nil]
  ended _ hclosed := by
    obtain ⟨hopen, -, rfl⟩ := SessionPipe.write_ok hwrite
    rw [hopen] at hclosed
    cases hclosed
  empty hdropped := by
    obtain ⟨hopen, -⟩ := SessionPipe.write_ok hwrite
    rw [(h.empty hdropped).2] at hopen
    cases hopen
  last hclosed := h.last_of_fill (hfill ▸ nofun) hclosed

/-- `carrierFill` closes the carrier's pipe. The bytes in it stay, and a chunk that comes after
`drop` is lost. -/
theorem Conserved.carrierEnd (hfill : d.fill ≠ .stopped)
    (held : d.fill.held = [] ∨ d.carrier.closed = true) (e : Err) :
    Conserved { d with carrier := d.carrier.close (some e), fill := .stopped } where
  __ := h
  carrier := h.carrier.close _
  chunk := nofun
  whole hdropped := by
    have hheld := held.resolve_right fun hclosed => hfill (h.ended hdropped hclosed)
    rw [h.whole hdropped, hheld]
    simp [CarrierFill.held]
  ended _ _ := rfl
  empty hdropped := ⟨by simpa using (h.empty hdropped).1, SessionPipe.close_closed _ _⟩
  last hclosed := h.last_of_fill hfill hclosed

theorem Conserved.drop {refs : List Nat} {cause : Err}
    (hrun : d.uplink.teardown = .running refs cause) :
    Conserved { d with carrier := d.carrier.drop (some cause), dropped := true } where
  __ := h
  carrier := h.carrier.drop _
  whole := nofun
  ended := nofun
  empty _ := ⟨rfl, rfl⟩
  kept hidle := by
    rw [hrun] at hidle
    cases hidle

theorem Conserved.refill (hloop : d.loop = .frame) (hne : d.carrier.chunks ≠ []) :
    Conserved { d with
      carrier := (d.carrier.readLocked workerReadBuffer).2
      pending := d.pending ++ (d.carrier.readLocked workerReadBuffer).1 } := by
  have hdropped : d.dropped = false := by
    rw [← Bool.not_eq_true]
    exact fun htrue => hne (h.empty htrue).1
  have hwhole : d.received = dataFraming.stream d.handled ++
      (d.pending ++ (d.carrier.readLocked workerReadBuffer).1 ++
        ((d.carrier.readLocked workerReadBuffer).2.contents ++ d.fill.held)) := by
    rw [h.whole hdropped, ← SessionPipe.readLocked_contents d.carrier workerReadBuffer]
    simp only [List.append_assoc]
  exact {
    __ := h
    carrier := h.carrier.readLocked _
    order := ⟨_, hwhole⟩
    whole := fun _ => hwhole
    empty := fun htrue => absurd (h.empty htrue).1 hne
    last := fun hclosed => by
      rw [h.loopClosed_eq_false (hloop ▸ nofun)] at hclosed
      cases hclosed }

theorem Conserved.endLoop {e : Err} (hloop : d.loop = .frame)
    (hread : readFrame d.pending = .error e)
    (hend : e.isShort = true → d.carrier.chunks = [] ∧ d.carrier.closed = true)
    (hkept : u.teardown = .idle → d.uplink.teardown = .idle) : Conserved { d with
      uplink := u, loop := .stopped
      loopClosed := d.loopClosed || d.uplink.teardown = .idle } where
  __ := h
  kept hidle := h.kept (hkept hidle)
  last hclosed := by
    rw [h.loopClosed_eq_false (hloop ▸ nofun), Bool.false_or, decide_eq_true_eq] at hclosed
    refine ⟨rfl, e, hread, fun hshort => ?_⟩
    obtain ⟨hchunks, hcarrier⟩ := hend hshort
    have hdropped := h.kept hclosed
    have hfill := h.ended hdropped hcarrier
    have hwhole := h.whole hdropped
    rw [hfill, SessionPipe.contents, hchunks] at hwhole
    exact ⟨hfill, by simpa [CarrierFill.held] using hwhole⟩

theorem Conserved.decode {x : DataFrame} {rest : List UInt8} (hloop : d.loop = .frame)
    (hread : readFrame d.pending = .ok (x, rest))
    (hkept : u.teardown = .idle → d.uplink.teardown = .idle) (loop : ReadLoop) : Conserved { d with
      uplink := u, pending := rest, handled := d.handled ++ [x], loop := loop } := by
  obtain ⟨hx, hpending⟩ := readFrame_ok_iff.mp hread
  have hsplit : ∀ later, dataFraming.stream d.handled ++ (d.pending ++ later) =
      dataFraming.stream (d.handled ++ [x]) ++ (rest ++ later) := by
    intro later
    rw [Framing.stream_concat, hpending]
    simp only [List.append_assoc]
    rfl
  exact {
    __ := h
    frames := Table.forall_concat h.frames hx
    order := by
      obtain ⟨later, hlater⟩ := h.order
      exact ⟨later, hlater.trans (hsplit later)⟩
    whole := fun hdropped => (h.whole hdropped).trans (hsplit _)
    kept := fun hidle => h.kept (hkept hidle)
    last := fun hclosed => by
      rw [h.loopClosed_eq_false (hloop ▸ nofun)] at hclosed
      cases hclosed }

/-- The sessions do not touch the stream. -/
theorem Conserved.sessions (hkept : u.teardown = .idle → d.uplink.teardown = .idle)
    (inboxes : List Inbox) {loop : ReadLoop} (hloop : loop = d.loop ∨ d.loop ≠ .stopped) :
    Conserved { d with uplink := u, inboxes := inboxes, loop := loop } where
  __ := h
  kept hidle := h.kept (hkept hidle)
  last hclosed := by
    obtain ⟨hstopped, hlast⟩ := h.last hclosed
    exact ⟨hloop.elim (fun heq => heq.trans hstopped) (absurd hstopped), hlast⟩

theorem Conserved.moves (hmoves : Moves d d') : d'.Conserved := by
  cases hmoves with
  | idle => exact h
  | act _ hnext => exact h.sessions (Uplink.next_idle hnext) _ (.inl rfl)
  | drop hrun => exact h.drop hrun
  | receive hreading hne => exact h.receive hreading hne _
  | carrierEnd hreading => exact h.carrierEnd (hreading ▸ nofun) (.inl (hreading ▸ rfl)) _
  | carrierRefuse hfill hclosed => exact h.carrierEnd (hfill ▸ nofun) (.inr hclosed) _
  | carrierStore hfill hwrite => exact h.store hfill hwrite
  | carrierLast hfill hwrite => exact (h.store hfill hwrite).carrierEnd nofun (.inl rfl) _
  | refill hloop hne => exact h.refill hloop hne
  | @endLoop external order _ _ hloop hread hend hclose =>
    refine h.endLoop hloop hread hend fun hidle => ?_
    exact Uplink.next_idle (a := .closeWorker external order) hclose hidle
  | @decode x _ sent _ hloop hread hreceive =>
    refine h.decode hloop hread (fun hidle => ?_) _
    exact Uplink.next_idle (a := .receive x.header x.payload sent) hreceive hidle
  | skip hloop | pushPacket hloop | push hloop
  | resume hloop => exact h.sessions id _ (.inr (hloop ▸ nofun))
  | refuse hloop =>
    exact h.sessions (u := { d.uplink with demux := .reading }) (fun hidle => hidle) _
      (.inr (hloop ▸ nofun))
  | @deliver _ _ _ order _ hloop _ hdeliver =>
    refine h.sessions (fun hidle => ?_) _ (.inr (hloop ▸ nofun))
    exact Uplink.next_idle (a := .deliver order) hdeliver hidle
  | report | inbox => exact h.sessions id _ (.inl rfl)

/-- Of a stream of well-formed frames, the frames handled so far come first; when
`readLoop` has closed the worker, they are all of which the end was received. -/
theorem Conserved.handled {frames : List DataFrame} {tail : List UInt8}
    (hframes : ∀ x ∈ frames, dataFraming.Valid x) (htail : dataFraming.Incomplete tail)
    (hreceived : d.received = dataFraming.stream frames ++ tail) :
    ∃ rest, frames = d.handled ++ rest ∧ (d.loopClosed = true → rest = []) := by
  obtain ⟨later, hlater⟩ := h.order
  rw [hreceived] at hlater
  obtain ⟨rest, rfl, hpending⟩ := dataFraming.exists_append_of_stream_append h.frames hframes
    hlater.symm htail.read_eq_none
  refine ⟨rest, rfl, fun hclosed => ?_⟩
  obtain ⟨-, e, he, hend⟩ := h.last hclosed
  have hnone : dataFraming.read d.pending = none := by
    change (readFrame d.pending).toOption = none
    rw [he]
    rfl
  -- What is left is the beginning of a frame, so `readLoop` did not take it for malformed.
  have hrest : ∀ x ∈ rest, dataFraming.Valid x := fun x hx =>
    hframes x (List.mem_append_right _ hx)
  obtain ⟨e', he', hshort⟩ := readFrame_short (htail.of_append hrest hpending hnone)
  rw [he] at he'
  cases he'
  have hall := (hend hshort).2
  rw [hreceived] at hall
  have heq := dataFraming.eq_of_stream_append h.frames hframes hall.symm hnone htail.read_eq_none
  exact List.append_right_eq_self.mp heq

end Conserved

end Downlink

end XrayMux
