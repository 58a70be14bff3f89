import CheezyCore.XrayMux.Registry

/-!
# Sessions on one carrier do not end each other

A carrier is meant to close for a fault of its own, for idleness, for retirement or
with its pool, never because one of its sessions ends. `Write`, `WriteTo` and the
first-payload timer answer every error of `writeNew` with `worker.close`, and
`writeNew` also fails when the session is closed or its target cannot be encoded.

`Flow.permits` excludes exactly these two failures. `Flow.Calm` carries the rest:
every error on its way to `worker.close` has a reason the carrier may close for, or
the carrier is closed already.
-/

namespace XrayMux

open BigEndian

/-- The reasons for which a carrier is meant to be closed. -/
def Origin.legit : Origin → Bool
  | .sessionClosed | .unencodable => false
  | _ => true

/-- The target that an action brings into a session. -/
def FlowAction.target : FlowAction → Option Metadata
  | .openSession metadata _ _ _ => some metadata
  | .writeTo _ target _ => some target
  | _ => none

namespace Flow

/-- The step calls `writeNew`. -/
def callsWriteNew (f : Flow) : FlowAction → Bool
  | .openSession metadata _ timeout _ => metadata.netWork ≠ .UDP && timeout ≤ 0
  | .writeStep k _ => (f.writers[k]?).any fun w => w.pc = .head && w.rest ≠ []
  | .timerStep _ => f.timer = .fired
  | _ => false

/-- Targets have an address that fits a frame, and `writeNew` is not called on a
session that is ending while the worker is open. -/
def permits (closed : Bool) (f : Flow) (action : FlowAction) : Bool :=
  (action.target.all fun m => decide m.Addressable) &&
    (!f.callsWriteNew action || !f.newClosed || closed)

end Flow

namespace Uplink

def permits (u : Uplink) : Action → Bool
  | .session ref action _ => (u.flows[ref]?).all fun f => f.permits u.worker.closed action
  | _ => true

end Uplink

/-! ## Errors on their way to `close` -/

/-- Closing the worker for this failure is legitimate, or changes nothing. -/
def Failure.Fine (closed : Bool) (failure : Failure) : Prop :=
  failure.origin.legit = true ∨ closed = true

theorem Failure.Fine.mono {failure : Failure} {closed closed' : Bool} (h : failure.Fine closed)
    (hmono : closed = true → closed' = true) : failure.Fine closed' :=
  h.imp_right hmono

theorem carrierFailure_fine (closed : Bool) : carrierFailure.Fine closed := .inl rfl

/-- A writer's target can be encoded in New and Keep frames, and its error is fine. -/
structure Writer.Calm (closed : Bool) (globalID : Option (Fixed 8)) (w : Writer) : Prop where
  target : ∃ m, w.target = some m ∧ m.Addressable ∧
    ((m.netWork = .TCP ∧ globalID = none) ∨ m.netWork = .UDP)
  failure : ∀ F, w.pc = .failing F ∨ w.pc = .closing F → F.Fine closed

variable {globalID : Option (Fixed 8)} {w : Writer}

theorem Writer.Calm.setPc {closed : Bool} (h : w.Calm closed globalID) {pc : WriterPc}
    (hpc : ∀ F, pc = .failing F ∨ pc = .closing F → F.Fine closed) :
    Writer.Calm closed globalID { w with pc } :=
  ⟨h.target, hpc⟩

theorem Writer.chunk_length (w : Writer) : w.chunk.length ≤ maxFramePayload :=
  List.length_take_le _ _

theorem Writer.chunk_ne_nil (h : w.rest ≠ []) : w.chunk ≠ [] := by
  cases hrest : w.rest with
  | nil => exact absurd hrest h
  | cons b rest => simp [Writer.chunk, hrest, maxFramePayload]

namespace Flow

/-- The session's targets can be encoded, and the errors of its goroutines are fine.
Only TCP sessions have a first-payload timer, and only UDP ones a GlobalID. -/
structure Calm (closed : Bool) (f : Flow) : Prop where
  kind : (f.opening = .reserved ∧ f.timer = .unset ∧ f.target = none) ∨
    (f.opening ≠ .reserved ∧ ∃ m, f.target = some m ∧ m.Addressable ∧
      ((m.netWork = .TCP ∧ f.globalID = none ∧ f.packet = false) ∨
        (m.netWork = .UDP ∧ f.timer = .unset)))
  writers : ∀ w ∈ f.writers, w.Calm closed f.globalID
  timer : ∀ F, f.timer = .failing F → F.Fine closed
  opening : ∀ F, f.opening = .failed F ∨ f.opening = .abandoned F → F.Fine closed

section Calm

variable {env : Env} {f g : Flow} {action : FlowAction} {o : Outcome} {payload : List UInt8}
variable {target : Option Metadata} {sent : Bool} {frame : Option Frame}
variable {result : Except Failure Bool} {closed closed' : Bool} {failure : Failure}
variable {metadata : Metadata}

theorem Calm.mono (h : f.Calm closed) (hmono : closed = true → closed' = true) :
    f.Calm closed' where
  kind := h.kind
  writers w hw := ⟨(h.writers w hw).target, fun F hF => ((h.writers w hw).failure F hF).mono hmono⟩
  timer F hF := (h.timer F hF).mono hmono
  opening F hF := (h.opening F hF).mono hmono

theorem stop_eq_unset {timer : Timer} (h : timer = .unset) : timer.stop = .unset := by
  rw [h]
  rfl

theorem stop_failing {timer : Timer} (h : timer.stop = .failing failure) :
    timer = .failing failure := by
  cases timer with
  | failing F => exact h
  | _ => cases h

theorem Calm.stopTimer (h : f.Calm closed) : Calm closed { f with timer := f.timer.stop } where
  __ := h
  kind := by
    rcases h.kind with ⟨hr, hu⟩ | ⟨hr, m, hm, ha, hk⟩
    · exact .inl ⟨hr, stop_eq_unset hu.1, hu.2⟩
    · exact .inr ⟨hr, m, hm, ha, hk.imp_right fun hu => ⟨hu.1, stop_eq_unset hu.2⟩⟩
  timer F hF := h.timer F (stop_failing hF)

theorem Calm.claimNew (h : f.Calm closed) : f.claimNew.Calm closed := by
  have hstop := h.stopTimer
  exact { hstop with }

theorem NewStep.calm (hnew : NewStep f payload target sent g frame result) (h : f.Calm closed) :
    g.Calm closed := by
  rcases hnew.flow_eq with rfl | rfl
  · exact h
  · exact h.claimNew

/-- `writeNew` on a session that is not ending, for a frame that can be encoded, fails
only with the carrier. -/
theorem NewStep.fine (hnew : NewStep f payload target sent g frame (.error failure))
    (horderly : f.Orderly) (hopen : f.newClosed = false ∨ closed = true)
    (haccepted : Accepted statusNew (if payload = [] then 0 else optionData) target f.globalID)
    (hlen : payload.length ≤ maxFramePayload) : failure.Fine closed := by
  generalize hresult : Except.error failure = result at hnew
  cases hnew with
  | closed hended =>
    refine .inr (hopen.resolve_left fun hfalse => ?_)
    rcases hended with hclosed | hdone
    · rw [hfalse] at hclosed
      cases hclosed
    · rw [horderly.done] at hdone
      have hstop : f.finish.pastStop = true := by
        cases hf : f.finish <;> rw [hf] at hdone <;> first | rfl | cases hdone
      rw [horderly.stop hstop] at hfalse
      cases hfalse
  | skipped => cases hresult
  | refused _ _ hw =>
    rw [writeFrame_accepted haccepted hlen] at hw
    · cases hw
    · by_cases hpayload : payload = []
      · exact .inl hpayload
      · rw [if_neg hpayload]
        exact .inr optionData_set
  | put =>
    cases sent with
    | true => cases hresult
    | false =>
      cases hresult
      exact carrierFailure_fine closed

theorem permits_iff : f.permits closed action = true ↔
    (∀ m, action.target = some m → m.Addressable) ∧
      (f.callsWriteNew action = true → f.newClosed = false ∨ closed = true) := by
  unfold permits
  cases action.target <;> cases f.callsWriteNew action <;> cases f.newClosed <;> simp

/-- The session with its target set, whatever became of `openSession`. -/
theorem Calm.aim (h : f.Calm closed) (hwriters : f.writers = []) (hreserved : f.opening = .reserved)
    (haddr : metadata.Addressable)
    (hkind : (metadata.netWork = .TCP ∧ globalID = none ∧ f.packet = false) ∨
      metadata.netWork = .UDP) {opening : Opening} (hopening : opening ≠ .reserved)
    (hfine : ∀ F, opening = .failed F ∨ opening = .abandoned F → F.Fine closed) :
    Calm closed { f.aim metadata globalID with opening } := by
  have hunset : f.timer = .unset := h.kind.elim (·.2.1) fun hk => absurd hreserved hk.1
  refine ⟨.inr ⟨hopening, metadata, rfl, haddr, hkind.imp_right fun hudp => ⟨hudp, hunset⟩⟩, ?_,
    h.timer, hfine⟩
  change ∀ w ∈ f.writers, _
  rw [hwriters]
  exact fun w hw => absurd hw List.not_mem_nil

theorem dialable_kind {packet : Bool} (h : dialable packet metadata globalID = true) :
    (metadata.netWork = .TCP ∧ globalID = none ∧ packet = false) ∨ metadata.netWork = .UDP := by
  unfold dialable at h
  simp only [Bool.or_eq_true, Bool.and_eq_true, decide_eq_true_eq, Option.isNone_iff_eq_none,
    Bool.not_eq_true'] at h
  exact h.imp (fun htcp => ⟨htcp.1.2, htcp.2, htcp.1.1⟩) And.left

theorem OpenStep.calm {timeout : Int} (hstep : OpenStep f metadata globalID timeout sent o)
    (h : f.Calm closed) (horderly : f.Orderly) (hreserved : f.opening = .reserved)
    (hdial : dialable f.packet metadata globalID = true) (haddr : metadata.Addressable)
    (hopen : metadata.netWork ≠ .UDP → timeout ≤ 0 → f.newClosed = false ∨ closed = true) :
    o.flow.Calm closed := by
  have hkind := dialable_kind hdial
  have hwriters : f.writers = [] := horderly.writers (hreserved ▸ nofun)
  have haim : (f.aim metadata globalID).Orderly :=
    { horderly with }
  have htcp : metadata.netWork ≠ .UDP →
      metadata.netWork = .TCP ∧ globalID = none ∧ f.packet = false :=
    hkind.resolve_right
  -- What `writeNew` makes of the session differs from it in the claimed New at most.
  have hnewStep : ∀ {g frame result} {opening : Opening}, opening ≠ .reserved →
      (∀ F, opening = .failed F ∨ opening = .abandoned F → F.Fine closed) →
      NewStep (f.aim metadata globalID) [] (some metadata) sent g frame result →
      Calm closed { g with opening } := by
    intro g frame result opening hne hfine hnew
    have hopened := h.aim hwriters hreserved haddr hkind hne hfine
    rcases hnew.flow_eq with rfl | rfl
    · exact hopened
    · exact hopened.claimNew
  cases hstep with
  | udp => exact h.aim hwriters hreserved haddr hkind nofun nofun
  | delayed hne =>
    refine ⟨.inr ⟨nofun, metadata, rfl, haddr, .inl (htcp hne)⟩, ?_, nofun, nofun⟩
    change ∀ w ∈ f.writers, _
    rw [hwriters]
    exact fun w hw => absurd hw List.not_mem_nil
  | failed hne htimeout hnew =>
    refine hnewStep nofun (fun F hF => ?_) hnew
    rcases hF with hF | hF
    · cases hF
      obtain ⟨hnet, hgid, -⟩ := htcp hne
      exact hnew.fine haim (hopen hne htimeout) (accepted_new haddr (.inl ⟨hnet, hgid⟩))
        (Nat.zero_le _)
    · cases hF
  | immediate _ _ hnew => exact hnewStep nofun nofun hnew

theorem Calm.setWriter (h : f.Calm closed) (k : Nat) (hw : w.Calm closed f.globalID) :
    (f.setWriter k w).Calm closed := by
  refine { h with writers := fun v hv => ?_ }
  rcases List.mem_or_eq_of_mem_set hv with hold | rfl
  · exact h.writers v hold
  · exact hw

theorem WriteStep.calm {k : Nat} (hstep : WriteStep env f k w sent o) (hmem : w ∈ f.writers)
    (h : f.Calm closed) (horderly : f.Orderly)
    (hopen : w.pc = .head → w.rest ≠ [] → f.newClosed = false ∨ closed = true) :
    o.flow.Calm closed ∧ ∀ F, o.call = .close F → F.Fine closed := by
  have hw := h.writers w hmem
  obtain ⟨m, htarget, haddr, hkind⟩ := hw.target
  cases hstep with
  | finished | returns => exact ⟨h.setWriter k (hw.setPc nofun), nofun⟩
  | newFailed hpc hrest hnew =>
    refine ⟨(hnew.calm h).setWriter k ?_, nofun⟩
    rw [hnew.keeps globalID rfl]
    refine hw.setPc fun F hF => ?_
    rcases hF with hF | hF
    · cases hF
      rw [htarget] at hnew
      refine hnew.fine horderly (hopen hpc hrest) (accepted_new haddr ?_) w.chunk_length
      exact hkind.imp_right fun hudp => ⟨hudp, Writer.chunk_ne_nil hrest⟩
    · cases hF
  | newSent _ _ hnew =>
    refine ⟨(hnew.calm h).setWriter k ?_, nofun⟩
    rw [hnew.keeps globalID rfl]
    exact ⟨hw.target, nofun⟩
  | newSkipped _ _ hnew =>
    refine ⟨(hnew.calm h).setWriter k ?_, nofun⟩
    rw [hnew.keeps globalID rfl]
    exact hw.setPc nofun
  | keepRefused _ hframe =>
    have haccepted : Accepted statusKeep optionData (f.keepTarget w.target) none := by
      refine accepted_keep fun m' hm' _ => ?_
      unfold keepTarget at hm'
      split at hm'
      · rw [htarget] at hm'
        cases hm'
        exact haddr
      · cases hm'
    rw [writeFrame_accepted haccepted w.chunk_length (.inr optionData_set)] at hframe
    cases hframe
  | keepSent => exact ⟨h.setWriter k ⟨hw.target, nofun⟩, nofun⟩
  | keepFailed =>
    refine ⟨h.setWriter k (hw.setPc fun F hF => ?_), nofun⟩
    rcases hF with hF | hF
    · cases hF
      exact carrierFailure_fine closed
    · cases hF
  | closes hpc =>
    have hfine := hw.failure _ (.inl hpc)
    refine ⟨h.setWriter k (hw.setPc fun F hF => ?_), ?_⟩
    · rcases hF with hF | hF
      · cases hF
      · cases hF
        exact hfine
    · rintro F ⟨⟩
      exact hfine

theorem TimerStep.calm (hstep : TimerStep env f sent o) (h : f.Calm closed)
    (horderly : f.Orderly) (hopen : f.timer = .fired → f.newClosed = false ∨ closed = true) :
    o.flow.Calm closed ∧ ∀ F, o.call = .close F → F.Fine closed := by
  -- A session whose timer runs is an opened TCP session.
  have htcp : f.timer ≠ .unset → f.opening ≠ .reserved ∧ ∃ m, f.target = some m ∧
      m.Addressable ∧ m.netWork = .TCP ∧ f.globalID = none ∧ f.packet = false := by
    intro hset
    rcases h.kind with ⟨-, hunset, -⟩ | ⟨hopened, m, hm, haddr, hk | hk⟩
    · exact absurd hunset hset
    · exact ⟨hopened, m, hm, haddr, hk⟩
    · exact absurd hk.2 hset
  have hkeep : ∀ {g : Flow} {timer : Timer}, f.timer ≠ .unset → g = f ∨ g = f.claimNew →
      (∀ F, timer = .failing F → F.Fine closed) → Calm closed { g with timer } := by
    intro g timer hset hg hfine
    obtain ⟨hopened, m, hm, haddr, hk⟩ := htcp hset
    rcases hg with rfl | rfl
    · exact ⟨.inr ⟨hopened, m, hm, haddr, .inl hk⟩, h.writers, hfine, h.opening⟩
    · exact ⟨.inr ⟨hopened, m, hm, haddr, .inl hk⟩, h.writers, hfine, h.opening⟩
  cases hstep with
  | newFailed hfired hnew =>
    have hset : f.timer ≠ .unset := hfired ▸ nofun
    refine ⟨hkeep hset hnew.flow_eq fun F hF => ?_, nofun⟩
    cases hF
    obtain ⟨-, m, hm, haddr, hk⟩ := htcp hset
    rw [hm] at hnew
    exact hnew.fine horderly (hopen hfired) (accepted_new haddr (.inl ⟨hk.1, hk.2.1⟩))
      (Nat.zero_le _)
  | new hfired hnew => exact ⟨hkeep (hfired ▸ nofun) hnew.flow_eq nofun, nofun⟩
  | closes hfailing =>
    refine ⟨hkeep (hfailing ▸ nofun) (.inl rfl) nofun, ?_⟩
    rintro F ⟨⟩
    exact h.timer _ hfailing
  | returns hclosing => exact ⟨hkeep (hclosing ▸ nofun) (.inl rfl) nofun, nofun⟩

theorem FinishStep.calm (hstep : FinishStep env f sent o) (h : f.Calm closed) :
    o.flow.Calm closed ∧ ∀ F, o.call = .close F → F.Fine closed := by
  cases hstep with
  | stop =>
    have hstop := h.stopTimer
    exact ⟨{ hstop with }, nofun⟩
  | retire =>
    refine ⟨{ h with }, ?_⟩
    rintro F ⟨⟩
    exact .inl rfl
  | _ => exact ⟨{ h with }, nofun⟩

/-- A permitted step keeps the session calm and closes the worker only with reason. -/
theorem Step.calm (hstep : Step env f action o) (h : f.Calm closed) (horderly : f.Orderly)
    (hpermits : f.permits closed action = true) :
    o.flow.Calm closed ∧ ∀ F, o.call = .close F → F.Fine closed := by
  obtain ⟨haddr, hopen⟩ := permits_iff.mp hpermits
  cases hstep with
  | openSession hreserved hdial hopenStep =>
    refine ⟨hopenStep.calm h horderly hreserved hdial (haddr _ rfl) ?_, ?_⟩
    · intro hudp htimeout
      exact hopen (by simp [callsWriteNew, hudp, htimeout])
    · cases hopenStep <;> exact nofun
  | abandon hopening =>
    have hstop := h.stopTimer
    refine ⟨⟨?_, hstop.writers, hstop.timer, ?_⟩, nofun⟩
    · exact .inr ⟨nofun, (hstop.kind.resolve_left (hopening ▸ nofun)).2⟩
    · rintro F (hF | hF)
      · cases hF
      · cases hF
        exact h.opening _ (.inl hopening)
  | abandonEnding hopening =>
    refine ⟨⟨?_, h.writers, h.timer, ?_⟩, nofun⟩
    · exact .inr ⟨nofun, (h.kind.resolve_left (by simp [hopening])).2⟩
    · rintro F (hF | hF)
      · cases hF
      · cases hF
        exact h.opening _ (.inl hopening)
  | closeAbandoned hopening =>
    refine ⟨⟨?_, h.writers, h.timer, nofun⟩, ?_⟩
    · exact .inr ⟨nofun, (h.kind.resolve_left (by simp [hopening])).2⟩
    · rintro F ⟨⟩
      exact h.opening _ (.inr hopening)
  | writeReturns | writeToReturns => exact ⟨h, nofun⟩
  | write hstarted =>
    refine ⟨{ h with writers := Table.forall_concat h.writers ?_ }, nofun⟩
    rcases h.kind with ⟨hreserved, -⟩ | ⟨-, m, hm, ha, hk⟩
    · rw [hstarted] at hreserved
      cases hreserved
    · exact ⟨⟨m, hm, ha, hk.imp (fun htcp => ⟨htcp.1, htcp.2.1⟩) And.left⟩, nofun⟩
  | writeTo _ _ hudp =>
    refine ⟨{ h with writers := Table.forall_concat h.writers ?_ }, nofun⟩
    exact ⟨⟨_, rfl, haddr _ rfl, .inr hudp⟩, nofun⟩
  | writer hw hwrite =>
    exact hwrite.calm (List.mem_of_getElem? hw) h horderly fun hpc hrest =>
      hopen (by simp [callsWriteNew, hw, hpc, hrest])
  | timerFire harmed =>
    refine ⟨⟨?_, h.writers, nofun, h.opening⟩, nofun⟩
    rcases h.kind with ⟨-, hunset, -⟩ | ⟨hopened, m, hm, ha, hk | hk⟩
    · rw [harmed] at hunset
      cases hunset
    · exact .inr ⟨hopened, m, hm, ha, .inl hk⟩
    · rw [harmed] at hk
      cases hk.2
  | timer htimer =>
    exact htimer.calm h horderly fun hfired => hopen (by simp [callsWriteNew, hfired])
  | close => exact ⟨{ h with }, nofun⟩
  | finish hfinish => exact hfinish.calm h

end Calm

end Flow

/-! ## The carrier as a whole -/

namespace Uplink

variable {u u' : Uplink} {a : Action} {maxUses : Int}

/-- The invariant of a carrier all of whose steps are permitted. -/
structure Undisturbed (u : Uplink) : Prop where
  indexed : u.Indexed
  orderly : ∀ (ref : Nat) (f : Flow), u.flows[ref]? = some f → f.Orderly
  calm : ∀ (ref : Nat) (f : Flow), u.flows[ref]? = some f → f.Calm u.worker.closed
  ender : ∀ (ref : Nat) (f : Flow), u.flows[ref]? = some f → f.ender = some .workerClose →
    u.worker.closed = true
  closed : u.worker.closed = true ↔ u.teardown ≠ .idle
  origin : u.worker.closed = true → ∃ o, u.origin = some o ∧ o.legit = true

theorem Change.closed_mono {w : Worker} {t : Teardown} {origin : Option Origin}
    (h : Change u a w t origin) (hclosed : u.worker.closed = true) : w.closed = true := by
  cases h with
  | reserve _ hr =>
    obtain ⟨hopen, -⟩ := Worker.reserve_eq_some hr
    rw [hopen] at hclosed
    cases hclosed
  | shutdown => rfl
  | _ => exact hclosed

/-- `metadataPacketAddr` finds an address in every UDP target that has one. -/
theorem metadataPacketAddr_ok {m : Metadata} (hudp : m.netWork = .UDP) (haddr : m.Addressable) :
    ∃ address, metadataPacketAddr (some m) = .ok address := by
  unfold metadataPacketAddr
  by_cases hhost : m.host = []
  · have hip : m.dstIP ≠ .invalid := by
      simpa [Metadata.Addressable, hhost] using haddr
    simp [hudp, hhost, hip]
  · simp [hudp, hhost]

/-- An opened packet session has an address to fall back on, so a packet without
one is the peer's fault. -/
theorem packetOrigin_legit {closed : Bool} {f : Flow} (h : f.Calm closed) (hp : f.packet = true)
    {frame : FrameMetadata} {e : Err}
    (haddr : metadataPacketAddr (frame.target <|> f.target) = .error e) :
    (packetOrigin frame f).legit = true := by
  unfold packetOrigin
  split
  · next hnone =>
    obtain ⟨hframe, htarget⟩ := hnone
    rcases h.kind with ⟨-, -, hunset⟩ | ⟨-, m, hm, ha, hk | hk⟩
    · exact absurd hunset htarget
    · rw [hp] at hk
      cases hk.2.2
    · obtain ⟨address, hok⟩ := metadataPacketAddr_ok hk.1 ha
      have heq : (frame.target <|> f.target) = some m := by
        rw [hframe, hm]
        rfl
      rw [heq, hok] at haddr
      cases haddr
  · rfl

theorem ClosedBy.fine {failure : Failure} (hby : ClosedBy u a failure) (h : u.Undisturbed)
    (hpermits : u.permits a = true) : failure.Fine u.worker.closed := by
  cases hby with
  | session ha hf hstep hcall =>
    subst ha
    simp only [permits, hf, Option.all_some] at hpermits
    exact (hstep.calm (h.calm _ _ hf) (h.orderly _ _ hf) hpermits).2 _ hcall
  | external external => cases external <;> exact .inl rfl
  | packet _ hf hp haddr => exact .inl (packetOrigin_legit (h.calm _ _ hf) hp haddr)

theorem Undisturbed.next (h : u.Undisturbed) (hpermits : u.permits a = true)
    (hnext : u.next a = some u') : u'.Undisturbed := by
  have hchange := next_change hnext
  have hmono : u.worker.closed = true → u'.worker.closed = true := hchange.closed_mono
  refine ⟨h.indexed.next hnext, fun ref f' hf' => ?_, fun ref f' hf' => ?_, fun ref f' hf' => ?_,
    ?_, ?_⟩
  · exact next_orderly hnext h.indexed h.orderly hf'
  · obtain ⟨frames, hevolves, -⟩ := next_evolves hnext h.indexed.refs hf'
    cases hevolves with
    | same hf => exact (h.calm ref f' hf).mono hmono
    | step ha hf hstep =>
      subst ha
      simp only [permits, hf, Option.all_some] at hpermits
      exact (hstep.calm (h.calm ref _ hf) (h.orderly ref _ hf) hpermits).1.mono hmono
    | remote _ hf | teardown hf =>
      have hcalm := (h.calm ref _ hf).mono hmono
      exact { hcalm with }
    | fresh => exact ⟨.inl ⟨rfl, rfl, rfl⟩, nofun, nofun, nofun⟩
  · obtain ⟨frames, hevolves, -⟩ := next_evolves hnext h.indexed.refs hf'
    intro hender
    rcases hevolves.worker_ender hender with ⟨f, hf, hwas⟩ | hrun
    · exact hmono (h.ender ref f hf hwas)
    · exact hmono (h.closed.mpr hrun)
  · generalize u'.worker = w, u'.teardown = t, u'.origin = origin at hchange
    cases hchange with
    | same | removeSession | abandonSession => exact h.closed
    | reserve _ hr =>
      obtain ⟨-, -, -, -, rfl⟩ := Worker.reserve_eq_some hr
      exact h.closed
    | shutdown => exact ⟨fun _ => nofun, fun _ => rfl⟩
    | visited hrun | torn hrun => exact ⟨fun _ => nofun, fun _ => h.closed.mpr (hrun ▸ nofun)⟩
  · generalize u'.worker = w, u'.teardown = t, u'.origin = origin at hchange
    cases hchange with
    | reserve _ hr =>
      obtain ⟨-, -, -, -, rfl⟩ := Worker.reserve_eq_some hr
      exact h.origin
    | shutdown hidle _ hby =>
      intro _
      refine ⟨_, rfl, (hby.fine h hpermits).resolve_right fun hclosed => ?_⟩
      exact h.closed.mp hclosed hidle
    | _ => exact h.origin

/-- A session that no one has ended is the one found under its id. -/
theorem Tracked.lookup (h : u.Tracked maxUses) (hopen : u.worker.closed = false) {ref : Nat}
    {f : Flow} (hf : u.flows[ref]? = some f) (hidle : f.finish = .idle)
    (hopening : f.opening = .reserved ∨ f.opening = .started) :
    u.worker.lookup f.id = some f.toSessionRef := by
  have hrun : u.teardown = .idle := by
    by_contra hrun
    rw [(h.empty hrun).2] at hopen
    cases hopen
  have hmem : f.toSessionRef ∈ u.worker.sessions := by
    rcases h.held ref f hf hopening with hdone | hmem | hpending
    · rw [(h.orderly ref f hf).done, hidle] at hdone
      cases hdone
    · exact hmem
    · rw [hrun] at hpending
      cases hpending
  have hissued : f.toSessionRef ∈ u.flows.map Flow.toSessionRef :=
    List.mem_map_of_mem (List.mem_of_getElem? hf)
  cases hfound : u.worker.lookup f.id with
  | none =>
    have hno := List.find?_eq_none.mp hfound _ hmem
    simp at hno
  | some found => rw [h.counting.idsDistinct.demux _ hissued found hfound]

end Uplink

end XrayMux
