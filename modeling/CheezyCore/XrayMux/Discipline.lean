import CheezyCore.XrayMux.Registry

/-!
# The uplink frames of a TCP session

The New frame of a session is sent by its first `Write`, by the first-payload timer
or by `openSession`, or is suppressed by `Close`; every other chunk of `Write` goes
out in a Keep frame, and `Close` sends End. `Discipline` says what the peer can rely
on. New is sent under `newMu` by whoever finds `newSent` unset, so the frames are
in order as long as the New frame can be encoded at all (`Flow.regular`).

`Flow.Framed` describes the frames of one session by the session's flags, and
`Flow.Accounted` their payloads by what the writers count as written.
-/

namespace XrayMux

open BigEndian

namespace Frame

/-- New and Keep frames carry the bytes of the stream. -/
def isData (frame : Frame) : Bool := frame.status = statusNew || frame.status = statusKeep

/-- The payloads of the New and Keep frames in wire order. -/
def payloads (frames : List Frame) : List UInt8 := (frames.filter isData).flatMap Frame.payload

end Frame

/-- What the frames of a session have to satisfy, given the bytes that its `Write`
calls counted as written. Only the last data frame may have failed. -/
structure Discipline (frames : List Frame) (written : List UInt8) : Prop where
  oneNew : (frames.countP fun frame => frame.status = statusNew) ≤ 1
  keepAfterNew : ∀ before keep after, frames = before ++ keep :: after →
    keep.status = statusKeep → ∃ new ∈ before, new.status = statusNew
  noLateNew : ∀ before close after, frames = before ++ close :: after →
    close.status = statusEnd → ∀ frame ∈ after, frame.status ≠ statusNew
  oneEnd : (frames.countP fun frame => frame.status = statusEnd) ≤ 1
  payload : ∃ tail, Frame.payloads frames = written ++ tail ∧ (tail = [] ∨
    ∃ last, (frames.filter Frame.isData).getLast? = some last ∧ last.sent = false ∧
      last.payload = tail)

namespace Flow

/-- The bytes that the session's `Write` calls counted as written. -/
def written (f : Flow) : List UInt8 := f.writers.flatMap Writer.written

/-- A TCP session is opened with a target that fits a frame, or sends New before it is
returned; and it is written to by one goroutine at a time. -/
def regular (f : Flow) : FlowAction → Bool
  | .openSession metadata _ timeout _ =>
    metadata.netWork ≠ .TCP || decide metadata.Addressable || timeout ≤ 0
  | .write _ _ => f.writers.all Writer.isReturned
  | _ => true

end Flow

namespace Uplink

def regular (u : Uplink) : Action → Bool
  | .session ref action _ => (u.flows[ref]?).all fun f => f.regular action
  | _ => true

/-- The frames that sessions put on the carrier under an id. The End frames with which
the demultiplexer answers frames for unknown sessions are not among them. -/
def framesFor (u : Uplink) (id : UInt16) : List Frame :=
  u.wire.filter fun frame => frame.owner.isSome && frame.id = id

end Uplink

/-! ## The order of the frames -/

/-- New comes first and once; after it there are Keep and End frames. -/
def Opened (frames : List Frame) : Prop :=
  ∃ new rest, frames = new :: rest ∧ new.status = statusNew ∧
    ∀ frame ∈ rest, frame.status = statusKeep ∨ frame.status = statusEnd

theorem Opened.append {frames : List Frame} (h : Opened frames) {frame : Frame}
    (hframe : frame.status = statusKeep ∨ frame.status = statusEnd) :
    Opened (frames ++ [frame]) := by
  obtain ⟨new, rest, rfl, hnew, hrest⟩ := h
  exact ⟨new, rest ++ [frame], rfl, hnew, Table.forall_concat hrest hframe⟩

namespace Flow

/-- The frames of a TCP session: nothing but End before New, New first once it was
sent, one End at the end. Writers and the timer belong to sessions whose New frame
was sent or can be encoded. -/
structure Framed (f : Flow) (frames : List Frame) : Prop where
  orderly : f.Orderly
  shape : ((∀ frame ∈ frames, frame.status = statusEnd) ∧
      (f.newSent = true → f.opening ≠ .started)) ∨ (Opened frames ∧ f.newSent = true)
  ends : (frames.countP fun frame => frame.status = statusEnd) ≤
    if f.finish.pastEnd = true then 1 else 0
  reserved : f.opening = .reserved → f.newSent = false
  aimed : f.opening = .started → f.packet = false ∧ (f.newSent = true ∨ ∃ m,
    f.target = some m ∧ m.netWork = .TCP ∧ f.globalID = none ∧ m.Addressable)
  writers : ∀ w ∈ f.writers, w.target = f.target ∧ (w.pc = .keep → f.newSent = true)
  timer : f.timer ≠ .unset → f.opening = .started

variable {w : Writer} {new : Frame} {env : Env} {f g : Flow} {action : FlowAction} {o : Outcome}
variable {payload : List UInt8} {target : Option Metadata} {sent : Bool} {frame : Option Frame}
variable {result : Except Failure Bool} {frames : List Frame}

theorem pastStop_of_pastEnd {finish : Finish} (h : finish.pastEnd = true) :
    finish.pastStop = true := by
  cases finish <;> first | rfl | cases h

theorem Framed.append_nil (h : Framed f frames) : Framed f (frames ++ []) := by
  rw [List.append_nil]
  exact h

/-- As long as the session is not closing it has sent no End. -/
theorem Framed.ends_eq_zero (h : Framed f frames) (hclosed : f.newClosed = false) :
    (frames.countP fun frame => frame.status = statusEnd) = 0 := by
  have hends := h.ends
  rw [if_neg] at hends
  · omega
  · intro hpast
    rw [h.orderly.stop (pastStop_of_pastEnd hpast)] at hclosed
    cases hclosed

/-- Whoever sends New finds the wire empty. -/
theorem Framed.frames_eq_nil (h : Framed f frames) (hclosed : f.newClosed = false)
    (hsent : f.newSent = false) : frames = [] := by
  have hzero := h.ends_eq_zero hclosed
  rcases h.shape with ⟨hall, -⟩ | ⟨-, hnew⟩
  · rw [List.countP_eq_zero] at hzero
    refine List.eq_nil_iff_forall_not_mem.mpr fun frame hframe => ?_
    exact hzero frame hframe (by simpa using hall frame hframe)
  · rw [hsent] at hnew
    cases hnew

theorem stop_ne_unset {timer : Timer} (h : timer.stop ≠ .unset) : timer ≠ .unset := by
  rintro rfl
  exact h rfl

section

variable (h : Framed f frames)
include h

/-- The session after its New frame was put on the carrier. -/
theorem Framed.claimNew (hclosed : f.newClosed = false) (hsent : f.newSent = false)
    (hnew : new.status = statusNew) {opening : Opening} (hopening : opening ≠ .reserved)
    (hkeep : f.opening = .started → opening = .started)
    (hpacket : opening = .started → f.packet = false) :
    Framed { f.claimNew with opening } (frames ++ [new]) := by
  rw [h.frames_eq_nil hclosed hsent]
  have horderly := h.orderly
  refine ⟨{ horderly with
      writers := fun hne => horderly.writers fun hstarted => hne (hkeep hstarted) },
    .inr ⟨⟨new, [], rfl, hnew, nofun⟩, rfl⟩, ?_, fun hreserved => absurd hreserved hopening,
    fun hopen => ⟨hpacket hopen, .inl rfl⟩, fun w hw => ⟨(h.writers w hw).1, fun _ => rfl⟩,
    fun htimer => hkeep (h.timer (stop_ne_unset htimer))⟩
  simp [hnew, statusNew, statusEnd]

theorem NewStep.framed (hnew : NewStep f payload f.target sent g frame result)
    (hstarted : f.opening = .started) (hlen : payload.length ≤ maxFramePayload) :
    Framed g (frames ++ frame.toList) := by
  obtain ⟨hpacket, haimed⟩ := h.aimed hstarted
  cases hnew with
  | closed | skipped => exact h.append_nil
  | refused _ hsent hw =>
    rw [hsent] at haimed
    obtain ⟨m, hm, htcp, hgid, haddr⟩ := haimed.resolve_left nofun
    rw [hm, writeFrame_accepted (accepted_new haddr (.inl ⟨htcp, hgid⟩)) hlen] at hw
    · cases hw
    · by_cases hpayload : payload = []
      · exact .inl hpayload
      · rw [if_neg hpayload]
        exact .inr optionData_set
  | put hclosed hsent hw =>
    obtain ⟨-, -, hstatus, -⟩ := writeFrame_ok hw
    exact h.claimNew hclosed hsent hstatus (hstarted ▸ nofun) id fun _ => hpacket

/-- Only the frames and the flags count. -/
theorem Framed.setWriter (k : Nat) (hne : f.opening = .started) (htarget : w.target = f.target)
    (hkeep : w.pc = .keep → f.newSent = true) : Framed (f.setWriter k w) frames := by
  refine { h with
    orderly := { h.orderly with writers := fun hopen => absurd hne hopen }
    writers := fun v hv => ?_ }
  rcases List.mem_or_eq_of_mem_set hv with hold | rfl
  · exact h.writers v hold
  · exact ⟨htarget, hkeep⟩

theorem Framed.keep (hstarted : f.opening = .started) (hsent : f.newSent = true) {keep : Frame}
    (hkeep : keep.status = statusKeep) : Framed f (frames ++ [keep]) := by
  refine { h with shape := ?_, ends := ?_ }
  · rcases h.shape with ⟨-, hne⟩ | ⟨hopened, -⟩
    · exact absurd hstarted (hne hsent)
    · exact .inr ⟨hopened.append (.inl hkeep), hsent⟩
  · have hzero : ([keep].countP fun frame => frame.status = statusEnd) = 0 := by
      simp [hkeep, statusKeep, statusEnd]
    rw [List.countP_append, hzero]
    exact h.ends

end

theorem WriteStep.framed {k : Nat} (hstep : WriteStep env f k w sent o) (hmem : w ∈ f.writers)
    (h : Framed f frames) : Framed o.flow (frames ++ o.frame.toList) := by
  obtain ⟨htarget, hkeeping⟩ := h.writers w hmem
  have hstarted : f.opening = .started := by
    by_contra hne
    rw [h.orderly.writers hne] at hmem
    cases hmem
  -- The session as `writeNew` leaves it.
  have hnewStep : ∀ {g frame result}, NewStep f w.chunk w.target sent g frame result →
      Framed g (frames ++ frame.toList) ∧ g.opening = .started ∧ w.target = g.target := by
    intro g frame result hnew
    rw [htarget] at hnew
    refine ⟨hnew.framed h hstarted (List.length_take_le _ _),
      (hnew.keeps opening rfl).trans hstarted, ?_⟩
    rcases hnew.flow_eq with rfl | rfl
    · exact htarget
    · exact htarget
  cases hstep with
  | newFailed _ _ hnew | newSent _ _ hnew =>
    obtain ⟨hg, hopen, hgt⟩ := hnewStep hnew
    exact hg.setWriter k hopen hgt nofun
  | newSkipped _ _ hnew =>
    obtain ⟨hg, hopen, hgt⟩ := hnewStep hnew
    refine hg.setWriter k hopen hgt fun _ => ?_
    generalize hresult : Except.ok false = result at hnew
    cases hnew with
    | closed => cases hresult
    | skipped _ hsent => exact hsent
    | refused | put => rfl
  | keepSent hpc _ hw | keepFailed hpc _ hw =>
    obtain ⟨-, -, hstatus, -⟩ := writeFrame_ok hw
    exact (h.keep hstarted (hkeeping hpc) hstatus).setWriter k hstarted htarget nofun
  | _ => exact Framed.append_nil (h.setWriter k hstarted htarget nofun)

section

variable (h : Framed f frames)
include h

theorem OpenStep.framed {metadata : Metadata} {globalID : Option (Fixed 8)} {timeout : Int}
    (hstep : OpenStep f metadata globalID timeout sent o) (hreserved : f.opening = .reserved)
    (hdial : dialable f.packet metadata globalID = true) (htcp : o.flow.IsTCP)
    (hregular : f.regular (.openSession metadata globalID timeout sent) = true) :
    Framed o.flow (frames ++ o.frame.toList) := by
  have horderly := hstep.orderly hreserved h.orderly
  have hsent := h.reserved hreserved
  have hnone : f.writers = [] := h.orderly.writers (hreserved ▸ nofun)
  have hunset : f.timer = .unset := by
    by_contra hset
    rw [h.timer hset] at hreserved
    cases hreserved
  have hends : ∀ frame ∈ frames, frame.status = statusEnd := by
    rcases h.shape with ⟨hall, -⟩ | ⟨-, hnew⟩
    · exact hall
    · rw [hsent] at hnew
      cases hnew
  have htcpDial : metadata.netWork ≠ .UDP →
      metadata.netWork = .TCP ∧ globalID = none ∧ f.packet = false := by
    intro hne
    simp only [dialable, Bool.or_eq_true, Bool.and_eq_true, decide_eq_true_eq, Bool.not_eq_true',
      Option.isNone_iff_eq_none, hne, false_and, or_false] at hdial
    exact ⟨hdial.1.2, hdial.2, hdial.1.1⟩
  have hwriters : ∀ {target : Option Metadata} {newSent : Bool}, ∀ w ∈ f.writers,
      w.target = target ∧ (w.pc = .keep → newSent = true) := by
    rw [hnone]
    exact fun w hw => absurd hw List.not_mem_nil
  have hunopened : f.opening ≠ .started := hreserved ▸ nofun
  have haim : Framed (f.aim metadata globalID) frames :=
    { h with
      orderly := { h.orderly with }
      aimed := fun hstarted => absurd hstarted hunopened
      writers := hwriters }
  cases hstep with
  | udp hudp =>
    have hnet := htcp nofun metadata rfl
    rw [hudp] at hnet
    cases hnet
  | delayed hne htimeout =>
    obtain ⟨hnet, hgid, hpacket⟩ := htcpDial hne
    have haddr : metadata.Addressable := by
      simpa [regular, hnet, htimeout] using hregular
    refine Framed.append_nil ⟨horderly, .inl ⟨hends, ?_⟩, h.ends, nofun,
      fun _ => ⟨hpacket, .inr ⟨metadata, rfl, hnet, hgid, haddr⟩⟩, hwriters, fun _ => rfl⟩
    intro hnew
    have hnew : f.newSent = true := hnew
    rw [hsent] at hnew
    cases hnew
  | failed hne _ hnew =>
    generalize hresult : Except.error _ = result at hnew
    cases hnew with
    | closed =>
      refine Framed.append_nil ⟨horderly, .inl ⟨hends, fun _ => nofun⟩, h.ends, nofun, nofun,
        hwriters, absurd hunset⟩
    | skipped => cases hresult
    | refused =>
      refine Framed.append_nil ⟨horderly, .inl ⟨hends, fun _ => nofun⟩, h.ends, nofun, nofun,
        hwriters, fun hset => absurd hunset (stop_ne_unset hset)⟩
    | put hclosed _ hw =>
      obtain ⟨-, -, hstatus, -⟩ := writeFrame_ok hw
      exact haim.claimNew hclosed hsent hstatus nofun
        (fun hstarted => absurd hstarted hunopened) nofun
  | immediate hne _ hnew =>
    generalize hresult : Except.ok _ = result at hnew
    cases hnew with
    | closed | refused => cases hresult
    | skipped _ hnew =>
      have hnew : f.newSent = true := hnew
      rw [hsent] at hnew
      cases hnew
    | put hclosed _ hw =>
      obtain ⟨-, -, hstatus, -⟩ := writeFrame_ok hw
      exact haim.claimNew hclosed hsent hstatus nofun
        (fun hstarted => absurd hstarted hunopened)
        fun _ => (htcpDial hne).2.2

theorem TimerStep.framed (hstep : TimerStep env f sent o) :
    Framed o.flow (frames ++ o.frame.toList) := by
  cases hstep with
  | newFailed hfired hnew | new hfired hnew =>
    have hstarted := h.timer (hfired ▸ nofun)
    have hg := hnew.framed h hstarted (Nat.zero_le _)
    exact { hg with
      orderly := { hg.orderly with }
      timer := fun _ => (hnew.keeps opening rfl).trans hstarted }
  | closes hset | returns hset =>
    exact Framed.append_nil
      { h with orderly := { h.orderly with }, timer := fun _ => h.timer (hset ▸ nofun) }

/-- A step of the session's end that sends nothing. -/
theorem Framed.setFinish {finish : Finish} {newClosed done : Bool} {cause : Option Err}
    {ender : Option Ender} {timer : Timer}
    (horderly : Orderly { f with finish, newClosed, done, cause, ender, timer })
    (hpast : f.finish.pastEnd = true → finish.pastEnd = true)
    (htimer : timer ≠ .unset → f.timer ≠ .unset) :
    Framed { f with finish, newClosed, done, cause, ender, timer } frames := by
  refine ⟨horderly, h.shape, ?_, h.reserved, h.aimed, h.writers, fun ht => h.timer (htimer ht)⟩
  have hends := h.ends
  split at hends
  · next hp =>
    rw [if_pos (hpast hp)]
    exact hends
  · exact Nat.le_trans hends (Nat.zero_le _)

theorem FinishStep.framed (hstep : FinishStep env f sent o) :
    Framed o.flow (frames ++ o.frame.toList) := by
  have horderly := hstep.orderly h.orderly
  cases hstep with
  | stop hf =>
    refine Framed.append_nil (h.setFinish horderly ?_ stop_ne_unset)
    rw [hf]
    exact nofun
  | choose hf =>
    refine Framed.append_nil (h.setFinish horderly ?_ id)
    rw [hf]
    exact nofun
  | put hf =>
    have hends := h.ends
    rw [hf] at hends
    rw [writeFrame_accepted (accepted_end _) (Nat.zero_le _) (.inl rfl)]
    refine { h with orderly := horderly, shape := ?_, ends := ?_ }
    · rcases h.shape with ⟨hall, hne⟩ | ⟨hopened, hsent⟩
      · exact .inl ⟨Table.forall_concat hall rfl, hne⟩
      · exact .inr ⟨hopened.append (.inr rfl), hsent⟩
    · rw [List.countP_append]
      exact Nat.add_le_add hends List.countP_le_length
  | cause hf | done hf | remove hf | retire hf | leave hf
  | returns hf => exact Framed.append_nil (h.setFinish horderly (fun _ => rfl) id)

theorem Framed.beginFinish (hidle : f.finish = .idle) (ender : Ender) (ending : Ending) :
    Framed (f.beginFinish ender ending) frames := by
  refine h.setFinish (h.orderly.beginFinish hidle ender ending) ?_ id
  rw [hidle]
  exact nofun

/-- A session that is not returned stays so. -/
theorem Framed.setOpening (hunopened : f.opening ≠ .started) (opening : Opening)
    (hstarted : opening ≠ .started) (hreserved : opening ≠ .reserved) :
    Framed { f with opening } frames := by
  have horderly := h.orderly
  refine ⟨⟨horderly.stop, horderly.done, horderly.ender, fun _ => horderly.writers hunopened⟩,
    h.shape.imp (fun hall => ⟨hall.1, fun _ => hstarted⟩) id, h.ends,
    fun hr => absurd hr hreserved, fun hs => absurd hs hstarted, h.writers,
    fun ht => absurd (h.timer ht) hunopened⟩

theorem Step.framed (hstep : Step env f action o) (htcp : o.flow.IsTCP)
    (hregular : f.regular action = true) : Framed o.flow (frames ++ o.frame.toList) := by
  cases hstep with
  | openSession hreserved hdial hopen => exact hopen.framed h hreserved hdial htcp hregular
  | @abandon failure hopening hidle =>
    have hset := h.setOpening (hopening ▸ nofun) (.abandoned failure) nofun nofun
    refine Framed.append_nil (hset.setFinish ?_ (fun _ => rfl) stop_ne_unset)
    exact ⟨fun _ => rfl, rfl, fun _ => nofun, hset.orderly.writers⟩
  | abandonEnding hopening | closeAbandoned hopening =>
    exact Framed.append_nil (h.setOpening (hopening ▸ nofun) _ nofun nofun)
  | writeReturns | writeToReturns => exact h.append_nil
  | write hstarted =>
    exact Framed.append_nil { h with
      orderly := { h.orderly with writers := fun hne => absurd hstarted hne }
      writers := Table.forall_concat h.writers ⟨rfl, nofun⟩ }
  | writeTo hstarted hpacket =>
    rw [(h.aimed hstarted).1] at hpacket
    cases hpacket
  | writer hw hwrite => exact hwrite.framed (List.mem_of_getElem? hw) h
  | timerFire harmed =>
    exact Framed.append_nil
      { h with orderly := { h.orderly with }, timer := fun _ => h.timer (harmed ▸ nofun) }
  | timer htimer => exact htimer.framed h
  | close _ hidle => exact Framed.append_nil (h.beginFinish hidle _ _)
  | finish hfinish => exact hfinish.framed h

end

/-! ## The payloads -/

/-- Nothing more will be written: the last writer is on its way to `worker.close`, or
the session is closed and no writer is left. -/
def Frozen (f : Flow) : Prop :=
  (f.done = true ∧ ∀ w ∈ f.writers, w.isReturned = true) ∨
    ∃ init w failure, f.writers = init ++ [w] ∧ (w.pc = .failing failure ∨ w.pc = .closing failure)

/-- At most one writer is active, the last one. The payloads on the wire are the bytes
the writers counted, up to the payload of a frame that failed for good. -/
structure Accounted (f : Flow) (frames : List Frame) : Prop where
  single : ∃ init, (∀ w ∈ init, w.isReturned = true) ∧
    (f.writers = init ∨ ∃ w, f.writers = init ++ [w])
  payload : ∃ tail, Frame.payloads frames = f.written ++ tail ∧ (tail = [] ∨
    (f.newSent = true ∧ f.Frozen ∧ ∃ last, (frames.filter Frame.isData).getLast? = some last ∧
      last.sent = false ∧ last.payload = tail))

theorem Frozen.mono (h : f.Frozen) (hwriters : g.writers = f.writers)
    (hdone : f.done = true → g.done = true) : g.Frozen := by
  unfold Frozen
  rw [hwriters]
  exact h.imp_left fun hclosed => ⟨hdone hclosed.1, hclosed.2⟩

theorem framed_fresh (s : SessionRef) : Framed { toSessionRef := s } [] :=
  ⟨orderly_fresh s, .inl ⟨nofun, nofun⟩, Nat.zero_le _, fun _ => rfl, nofun, nofun,
    (absurd rfl)⟩

/-- Steps that neither write data nor touch the writers. -/
theorem Accounted.mono (h : Accounted f frames) {frames' : List Frame}
    (hwriters : g.writers = f.writers) (hdone : f.done = true → g.done = true)
    (hsent : f.newSent = true → g.newSent = true)
    (hdata : frames'.filter Frame.isData = frames.filter Frame.isData) : Accounted g frames' := by
  refine ⟨by rw [hwriters]; exact h.single, ?_⟩
  obtain ⟨tail, hpayload, htail⟩ := h.payload
  refine ⟨tail, ?_, htail.imp_right fun hfailed => ?_⟩
  · rw [Frame.payloads, hdata, written, hwriters]
    exact hpayload
  · rw [hdata]
    exact ⟨hsent hfailed.1, hfailed.2.1.mono hwriters hdone, hfailed.2.2⟩

theorem payloads_append (frames more : List Frame) :
    Frame.payloads (frames ++ more) = Frame.payloads frames ++ Frame.payloads more := by
  simp [Frame.payloads]

/-- A session that has not sent New, or whose last writer is still writing, has no
failed frame. -/
theorem Accounted.payload_eq (h : Accounted f frames)
    (hactive : f.newSent = false ∨ ¬ f.Frozen) : Frame.payloads frames = f.written := by
  obtain ⟨tail, hpayload, rfl | ⟨hsent, hfrozen, -⟩⟩ := h.payload
  · rw [hpayload, List.append_nil]
  · rcases hactive with hfalse | hnot
    · rw [hsent] at hfalse
      cases hfalse
    · exact absurd hfrozen hnot

/-- An active writer is the last one. -/
theorem Accounted.active (h : Accounted f frames) {k : Nat} (hw : f.writers[k]? = some w)
    (hactive : w.isReturned = false) :
    ∃ init, (∀ v ∈ init, v.isReturned = true) ∧ f.writers = init ++ [w] ∧ k = init.length := by
  obtain ⟨init, hinit, hwriters | ⟨v, hwriters⟩⟩ := h.single
  · rw [hwriters] at hw
    rw [hinit w (List.mem_of_getElem? hw)] at hactive
    cases hactive
  · rw [hwriters, List.getElem?_append] at hw
    split at hw
    · rw [hinit w (List.mem_of_getElem? hw)] at hactive
      cases hactive
    · next hge =>
      obtain ⟨hlt, hv⟩ := List.getElem?_eq_some_iff.mp hw
      have hk : k = init.length := by
        rw [List.length_singleton] at hlt
        omega
      simp only [hk, Nat.sub_self, List.getElem_cons_zero] at hv
      exact ⟨init, hinit, hv ▸ hwriters, hk⟩

section Active

variable {init : List Writer} {w w' : Writer} {k : Nat}

theorem setWriter_writers (w' : Writer) (hwriters : g.writers = init ++ [w])
    (hk : k = init.length) : (g.setWriter k w').writers = init ++ [w'] := by
  simp [setWriter, hwriters, hk]

theorem not_frozen (hwriters : f.writers = init ++ [w]) (hactive : w.isReturned = false)
    (hpc : ∀ F, w.pc ≠ .failing F ∧ w.pc ≠ .closing F) : ¬ f.Frozen := by
  rintro (⟨-, hall⟩ | ⟨init', w', F, hlast, hw'⟩)
  · rw [hall w (by simp [hwriters])] at hactive
    cases hactive
  · rw [hwriters] at hlast
    obtain ⟨-, ⟨⟩⟩ := List.append_inj' hlast rfl
    exact hw'.elim (hpc F).1 (hpc F).2

section

variable (hinit : ∀ v ∈ init, v.isReturned = true) (hwriters : g.writers = init ++ [w])
variable (hk : k = init.length)
include hinit hwriters hk

/-- The session after a step of its active writer that leaves no failed frame. -/
theorem accounted_active
    (hpayload : Frame.payloads frames = init.flatMap Writer.written ++ w'.written) :
    Accounted (g.setWriter k w') frames := by
  have hset := setWriter_writers w' hwriters hk
  refine ⟨⟨init, hinit, .inr ⟨w', hset⟩⟩, [], ?_, .inl rfl⟩
  rw [hpayload, written, hset]
  simp

/-- The session after its active writer's frame failed. -/
theorem accounted_failed (hsent : g.newSent = true)
    (hpayload : Frame.payloads frames = init.flatMap Writer.written ++ w.written) {last : Frame}
    (hdata : last.isData = true) (hfailed : last.sent = false) {failure : Failure} :
    Accounted (g.setWriter k { w with pc := .failing failure }) (frames ++ [last]) := by
  have hset := setWriter_writers { w with pc := .failing failure } hwriters hk
  refine ⟨⟨init, hinit, .inr ⟨_, hset⟩⟩, last.payload, ?_,
    .inr ⟨hsent, .inr ⟨init, _, failure, hset, .inl rfl⟩, last, ?_, hfailed, rfl⟩⟩
  · rw [payloads_append, hpayload, written, hset]
    simp [Frame.payloads, hdata]
  · simp [hdata]

end

end Active

theorem isData_new (h : new.status = statusNew) : new.isData = true := by
  simp [Frame.isData, h]

theorem isData_keep {keep : Frame} (h : keep.status = statusKeep) : keep.isData = true := by
  simp [Frame.isData, h]

theorem payloads_singleton {last : Frame} (h : last.isData = true) :
    Frame.payloads [last] = last.payload := by
  simp [Frame.payloads, h]

theorem WriteStep.accounted {k : Nat} (hstep : WriteStep env f k w sent o)
    (hw : f.writers[k]? = some w) (h : Accounted f frames) (hkeep : w.pc = .keep → f.newSent = true)
    (htorn : env.torn = true → f.done = true) : Accounted o.flow (frames ++ o.frame.toList) := by
  have hactive : w.isReturned = false := by
    cases hstep <;> simp [Writer.isReturned, *]
  obtain ⟨init, hinit, hwriters, hk⟩ := h.active hw hactive
  have hwritten : f.written = init.flatMap Writer.written ++ w.written := by
    simp [written, hwriters]
  -- A writer at the head of its loop or before a Keep frame leaves no failed frame behind.
  have hclean : (∀ F, w.pc ≠ .failing F ∧ w.pc ≠ .closing F) →
      Frame.payloads frames = init.flatMap Writer.written ++ w.written := fun hpc => by
    rw [← hwritten]
    exact h.payload_eq (.inr (not_frozen hwriters hactive hpc))
  -- A writer whose frame has failed goes on without a frame.
  have hfreeze : ∀ {w' : Writer} {g : Flow}, g.writers = init ++ [w'] → g.Frozen →
      w'.written = w.written ∧ g.newSent = f.newSent → Accounted g (frames ++ []) := by
    rintro w' g hset hfrozen ⟨hsame, hsent⟩
    rw [List.append_nil]
    obtain ⟨tail, hpayload, htail⟩ := h.payload
    refine ⟨⟨init, hinit, .inr ⟨_, hset⟩⟩, tail, ?_, htail.imp_right fun hfailed => ?_⟩
    · rw [hpayload, hwritten, written, hset]
      simp [hsame]
    · exact ⟨hsent.trans hfailed.1, hfrozen, hfailed.2.2⟩
  cases hstep with
  | finished hpc | keepRefused hpc =>
    rw [Option.toList_none, List.append_nil]
    exact accounted_active hinit hwriters hk (hclean (by simp [hpc]))
  | newFailed hpc _ hnew =>
    have hpayload := hclean (by simp [hpc])
    generalize hresult : Except.error _ = result at hnew
    cases hnew with
    | closed | refused =>
      rw [Option.toList_none, List.append_nil]
      exact accounted_active hinit hwriters hk hpayload
    | skipped => cases hresult
    | put _ _ hframe =>
      obtain ⟨-, -, hstatus, -, hfailed⟩ := writeFrame_ok hframe
      cases sent with
      | true => cases hresult
      | false =>
        exact accounted_failed (g := f.claimNew) hinit hwriters hk rfl hpayload
          (isData_new hstatus) hfailed
  | newSent hpc _ hnew =>
    have hpayload := hclean (by simp [hpc])
    generalize hresult : Except.ok true = result at hnew
    cases hnew with
    | closed | skipped | refused => cases hresult
    | put _ _ hframe =>
      obtain ⟨-, -, hstatus, hchunk, -⟩ := writeFrame_ok hframe
      refine accounted_active hinit hwriters hk ?_
      rw [Option.toList_some, payloads_append, hpayload,
        payloads_singleton (isData_new hstatus), hchunk, List.append_assoc]
      rfl
  | newSkipped hpc _ hnew =>
    have hpayload := hclean (by simp [hpc])
    generalize hresult : Except.ok false = result at hnew
    cases hnew with
    | closed | refused => cases hresult
    | skipped =>
      rw [Option.toList_none, List.append_nil]
      exact accounted_active hinit hwriters hk hpayload
    | put =>
      cases sent with
      | true | false => cases hresult
  | keepSent hpc _ hframe =>
    obtain ⟨-, -, hstatus, hchunk, -⟩ := writeFrame_ok hframe
    refine accounted_active hinit hwriters hk ?_
    rw [Option.toList_some, payloads_append, hclean (by simp [hpc]),
      payloads_singleton (isData_keep hstatus), hchunk, List.append_assoc]
    rfl
  | keepFailed hpc hsent hframe =>
    obtain ⟨-, -, hstatus, -, hfailed⟩ := writeFrame_ok hframe
    exact accounted_failed hinit hwriters hk (hkeep hpc) (hclean (by simp [hpc]))
      (isData_keep hstatus) (hfailed.trans hsent)
  | @closes failure hpc =>
    have hset := setWriter_writers { w with pc := .closing failure } hwriters hk
    exact hfreeze hset (.inr ⟨init, _, failure, hset, .inr rfl⟩) ⟨rfl, rfl⟩
  | @returns failure hpc ht =>
    have hset := setWriter_writers { w with pc := .returned (some failure.err) } hwriters hk
    refine hfreeze hset (.inl ⟨htorn ht, ?_⟩) ⟨rfl, rfl⟩
    rw [hset]
    exact Table.forall_concat hinit rfl

section

variable (h : Accounted f frames)
include h

/-- A New frame without payload, from the timer or from `openSession`. -/
theorem NewStep.accounted (hnew : NewStep f [] target sent g frame result) :
    Accounted g (frames ++ frame.toList) := by
  cases hnew with
  | closed | skipped => exact h.mono rfl id id (by simp)
  | refused => exact h.mono rfl id (fun _ => rfl) (by simp)
  | put _ hsent hframe =>
    obtain ⟨-, -, hstatus, hempty, -⟩ := writeFrame_ok hframe
    refine ⟨h.single, [], ?_, .inl rfl⟩
    rw [Option.toList_some, payloads_append, h.payload_eq (.inl hsent),
      payloads_singleton (isData_new hstatus), hempty]
    rfl

theorem OpenStep.accounted {metadata : Metadata} {globalID : Option (Fixed 8)} {timeout : Int}
    (hstep : OpenStep f metadata globalID timeout sent o) :
    Accounted o.flow (frames ++ o.frame.toList) := by
  have haim : Accounted (f.aim metadata globalID) frames := h.mono rfl id id rfl
  cases hstep with
  | udp | delayed => exact h.mono rfl id id (by simp)
  | failed _ _ hnew | immediate _ _ hnew => exact (hnew.accounted haim).mono rfl id id rfl

theorem TimerStep.accounted (hstep : TimerStep env f sent o) :
    Accounted o.flow (frames ++ o.frame.toList) := by
  cases hstep with
  | newFailed _ hnew | new _ hnew => exact (hnew.accounted h).mono rfl id id rfl
  | closes | returns => exact h.mono rfl id id (by simp)

theorem FinishStep.accounted (hstep : FinishStep env f sent o) :
    Accounted o.flow (frames ++ o.frame.toList) := by
  cases hstep with
  | put =>
    rw [writeFrame_accepted (accepted_end _) (Nat.zero_le _) (.inl rfl)]
    refine h.mono rfl id id ?_
    simp [Except.toOption, Frame.isData, statusEnd, statusNew, statusKeep]
  | done => exact h.mono rfl (fun _ => rfl) id (by simp)
  | _ => exact h.mono rfl id id (by simp)

theorem Step.accounted (hstep : Step env f action o) (hframed : Framed f frames)
    (hregular : f.regular action = true)
    (htorn : env.torn = true → f.opening = .started → f.done = true) :
    Accounted o.flow (frames ++ o.frame.toList) := by
  cases hstep with
  | openSession _ _ hopen => exact hopen.accounted h
  | abandon => exact h.mono rfl (fun _ => rfl) id (by simp)
  | @write payload _ _ _ hdone =>
    have hall : ∀ w ∈ f.writers, w.isReturned = true := by
      simpa [regular] using hregular
    have hactive : ¬ f.Frozen := by
      rintro (⟨hclosed, -⟩ | ⟨init, w, F, hwriters, hpc⟩)
      · rw [hdone] at hclosed
        cases hclosed
      · have hreturned := hall w (by simp [hwriters])
        rcases hpc with hpc | hpc <;> simp [Writer.isReturned, hpc] at hreturned
    refine ⟨⟨f.writers, hall, .inr ⟨_, rfl⟩⟩, [], ?_, .inl rfl⟩
    rw [Option.toList_none, List.append_nil, h.payload_eq (.inr hactive)]
    simp [written]
  | writeTo hstarted hpacket =>
    rw [(hframed.aimed hstarted).1] at hpacket
    cases hpacket
  | writer hw hwrite =>
    have hmem := List.mem_of_getElem? hw
    refine hwrite.accounted hw h (hframed.writers _ hmem).2 fun ht => htorn ht ?_
    by_contra hne
    rw [hframed.orderly.writers hne] at hmem
    cases hmem
  | timer htimer => exact htimer.accounted h
  | finish hfinish => exact hfinish.accounted h
  | _ => exact h.mono rfl id id (by simp)

end

theorem Opened.discipline (h : Opened frames) :
    (frames.countP fun frame => frame.status = statusNew) ≤ 1 ∧
    (∀ before keep after, frames = before ++ keep :: after → keep.status = statusKeep →
      ∃ new ∈ before, new.status = statusNew) ∧
    (∀ before close after, frames = before ++ close :: after → close.status = statusEnd →
      ∀ frame ∈ after, frame.status ≠ statusNew) := by
  obtain ⟨new, rest, rfl, hnew, hrest⟩ := h
  have hother : ∀ frame ∈ rest, frame.status ≠ statusNew := by
    intro frame hframe
    rcases hrest frame hframe with h | h <;> rw [h] <;> decide
  -- A frame of another kind comes after New.
  have hlater : ∀ {before frame after}, new :: rest = before ++ frame :: after →
      frame.status ≠ statusNew → new ∈ before ∧ after ⊆ rest := by
    intro before frame after heq hne
    cases before with
    | nil =>
      cases heq
      exact absurd hnew hne
    | cons first more =>
      cases heq
      exact ⟨List.mem_cons_self, fun x hx => by simp [hx]⟩
  refine ⟨?_, ?_, ?_⟩
  · have hzero : (rest.countP fun frame => frame.status = statusNew) = 0 :=
      List.countP_eq_zero.mpr (by simpa using hother)
    rw [List.countP_cons]
    split <;> omega
  · intro before keep after heq hkeep
    exact ⟨new, (hlater heq (hkeep ▸ by decide)).1, hnew⟩
  · intro before close after heq hend frame hframe
    exact hother frame ((hlater heq (hend ▸ by decide)).2 hframe)

/-- Both invariants together give the discipline. -/
theorem Framed.discipline (hframed : Framed f frames) (haccounted : Accounted f frames) :
    Discipline frames f.written := by
  have hend : (frames.countP fun frame => frame.status = statusEnd) ≤ 1 := by
    have hends := hframed.ends
    split at hends <;> omega
  obtain ⟨tail, hpayload, htail⟩ := haccounted.payload
  have hpay : ∃ tail, Frame.payloads frames = f.written ++ tail ∧ (tail = [] ∨
      ∃ last, (frames.filter Frame.isData).getLast? = some last ∧ last.sent = false ∧
        last.payload = tail) := ⟨tail, hpayload, htail.imp_right fun hfailed => hfailed.2.2⟩
  rcases hframed.shape with ⟨hall, -⟩ | ⟨hopened, -⟩
  · refine ⟨?_, ?_, ?_, hend, hpay⟩
    · have hzero : (frames.countP fun frame => frame.status = statusNew) = 0 := by
        refine List.countP_eq_zero.mpr fun frame hframe => ?_
        rw [hall frame hframe]
        decide
      omega
    · rintro before keep after rfl hkeep
      rw [hall keep (by simp)] at hkeep
      exact absurd hkeep (by decide)
    · rintro before close after rfl - frame hframe
      rw [hall frame (by simp [hframe])]
      decide
  · obtain ⟨hone, hkeep, hlate⟩ := Opened.discipline hopened
    exact ⟨hone, hkeep, hlate, hend, hpay⟩

end Flow

/-! ## All sessions of a carrier -/

namespace Uplink

variable {u u' : Uplink} {a : Action} {maxUses : Int}

/-- The invariant of a carrier whose steps are all regular. -/
structure Sound (maxUses : Int) (u : Uplink) : Prop extends Tracked maxUses u where
  owned : ∀ frame ∈ u.wire, ∀ ref, frame.owner = some ref →
    ∃ f, u.flows[ref]? = some f ∧ frame.id = f.id
  framed : ∀ (ref : Nat) (f : Flow), u.flows[ref]? = some f → f.IsTCP →
    f.Framed (u.framesOf ref) ∧ f.Accounted (u.framesOf ref)

theorem sound_start (maxWorkerUses : Int) :
    (start maxWorkerUses).Sound (poolMaxUses maxWorkerUses) where
  toTracked := tracked_start maxWorkerUses
  owned frame h := absurd h List.not_mem_nil
  framed ref f h := by simp [start] at h

/-- The frames an action adds are signed by the session that wrote them. -/
theorem next_wire (hnext : u.next a = some u') (hindexed : u.Indexed) :
    ∃ frames, u'.wire = u.wire ++ frames ∧ ∀ frame ∈ frames, ∀ ref, frame.owner = some ref →
      ∃ f, u.flows[ref]? = some f ∧ frame.id = f.id := by
  obtain ⟨frames, hwire, hrewrites⟩ := next_rewrites hnext
  refine ⟨frames, hwire, fun frame hframe ref howner => ?_⟩
  generalize u'.flows = flows at hrewrites
  cases hrewrites with
  | fresh => cases hframe
  | one hevolves =>
    obtain ⟨howner', hid⟩ := hevolves.signed hindexed.refs frame hframe
    rw [howner] at howner'
    cases howner'
    exact hid
  | none hnone =>
    rw [hnone frame hframe] at howner
    cases howner

theorem Sound.framed_next (h : u.Sound maxUses) (hregular : u.regular a = true)
    (hnext : u.next a = some u') {ref : Nat} {f' : Flow} (hf' : u'.flows[ref]? = some f')
    (htcp : f'.IsTCP) : f'.Framed (u'.framesOf ref) ∧ f'.Accounted (u'.framesOf ref) := by
  obtain ⟨frames, hevolves, hframes⟩ := next_evolves hnext h.indexed.refs hf'
  rw [hframes]
  cases hevolves with
  | same hf =>
    rw [List.append_nil]
    exact h.framed ref f' hf htcp
  | step ha hf hstep =>
    subst ha
    simp only [regular, hf, Option.all_some] at hregular
    obtain ⟨hframed, haccounted⟩ := h.framed ref _ hf (hstep.onward.target htcp)
    refine ⟨hstep.framed hframed htcp hregular,
      hstep.accounted haccounted hframed hregular fun htorn hstarted => ?_⟩
    exact h.done_of_torn hf hstarted (by simpa [env] using htorn)
  | remote _ hf hidle | teardown hf hidle =>
    obtain ⟨hframed, haccounted⟩ := h.framed ref _ hf htcp
    rw [List.append_nil]
    exact ⟨hframed.beginFinish hidle _ _, haccounted.mono rfl id id rfl⟩
  | fresh _ href =>
    have hnone : u.framesOf ref = [] := by
      refine List.filter_eq_nil_iff.mpr fun frame hframe howner => ?_
      obtain ⟨f, hf, -⟩ := h.owned frame hframe ref (by simpa using howner)
      have hlt := Table.lt_length hf
      omega
    rw [hnone]
    exact ⟨Flow.framed_fresh _, ⟨[], nofun, .inl rfl⟩, [], rfl, .inl rfl⟩

theorem Sound.next (h : u.Sound maxUses) (hmax : maxUses ≤ 65535) (hregular : u.regular a = true)
    (hnext : u.next a = some u') : u'.Sound maxUses where
  toTracked := h.toTracked.next hmax hnext
  owned frame hframe ref howner := by
    obtain ⟨frames, hwire, hsigned⟩ := next_wire hnext h.indexed
    rw [hwire] at hframe
    obtain ⟨f, hf, hid⟩ : ∃ f, u.flows[ref]? = some f ∧ frame.id = f.id := by
      rcases List.mem_append.mp hframe with hold | hnew
      · exact h.owned frame hold ref howner
      · exact hsigned frame hnew ref howner
    obtain ⟨f', hf', heq⟩ := next_flow hnext h.indexed hf
    exact ⟨f', hf', hid.trans (congrArg SessionRef.id heq.symm)⟩
  framed ref f' hf' htcp := h.framed_next hregular hnext hf' htcp

/-- The frames under a session's id are the frames the session wrote. -/
theorem Sound.framesFor_eq (h : u.Sound maxUses) {ref : Nat} {f : Flow}
    (hf : u.flows[ref]? = some f) : u.framesFor f.id = u.framesOf ref := by
  refine List.filter_congr fun frame hframe => ?_
  rw [Bool.eq_iff_iff]
  simp only [Bool.and_eq_true, decide_eq_true_eq, Option.isSome_iff_exists]
  constructor
  · rintro ⟨⟨ref', howner⟩, hid⟩
    obtain ⟨f', hf', hid'⟩ := h.owned frame hframe ref' howner
    rw [h.ref_eq hf hf' (hid.symm.trans hid')]
    exact howner
  · intro howner
    obtain ⟨f', hf', hid'⟩ := h.owned frame hframe ref howner
    rw [hf] at hf'
    cases hf'
    exact ⟨⟨ref, howner⟩, hid'⟩

/-- In every run whose steps are all regular, on a carrier whose use limit fits the
16-bit id, the frames under the id of a TCP session are disciplined. -/
theorem disciplined_of_regular (maxWorkerUses : Int) (hmax : maxWorkerUses ≤ 65535)
    (actions : List Action)
    (hguard : Transition.Guarded next (fun u a => u.regular a = true) (start maxWorkerUses) actions)
    (hrun : Transition.run next (start maxWorkerUses) actions = some u) (ref : Nat) {f : Flow}
    (hf : u.flows[ref]? = some f) {m : Metadata} (htarget : f.target = some m)
    (htcp : m.netWork = .TCP) : Discipline (u.framesFor f.id) f.written := by
  have h : u.Sound (poolMaxUses maxWorkerUses) := Transition.guarded_invariant
    (fun _ _ _ hu hregular hnext => hu.next (poolMaxUses_le hmax) hregular hnext)
    (sound_start maxWorkerUses) hguard hrun
  have hf' : f.IsTCP := by
    intro _ m' hm'
    rw [htarget] at hm'
    cases hm'
    exact htcp
  obtain ⟨hframed, haccounted⟩ := h.framed ref f hf hf'
  rw [h.framesFor_eq hf]
  exact hframed.discipline haccounted

/-- A TCP session with the given host is opened and its timer fires; a `Write` of two
bytes follows, then `Close`. -/
def timedRun (host : List UInt8) : List Action :=
  let target : Metadata := { netWork := .TCP, host, dstPort := 443 }
  [.reserve 8 false, .session 0 (.openSession target none 100 true) [],
   .session 0 .timerFire [], .session 0 (.timerStep true) [],
   .session 0 (.write [1, 2] false) [], .session 0 (.writeStep 0 true) [],
   .session 0 (.writeStep 0 true) [], .session 0 .close [], .session 0 (.finishStep true) [],
   .session 0 (.finishStep true) [], .session 0 (.finishStep true) []]

theorem disciplined_timedRun :
    ∃ u f, Transition.run next (start 8) (timedRun [0x61]) = some u ∧ u.flows[0]? = some f ∧
      f.written = [1, 2] ∧ Discipline (u.framesFor f.id) f.written :=
  ⟨_, _, rfl, rfl, rfl,
    disciplined_of_regular 8 (by decide) (timedRun [0x61]) (by decide) rfl 0 rfl rfl rfl⟩

set_option maxRecDepth 4000 in
/-- The timer claims New for a host of 256 bytes and fails to encode it; `Write` finds
New claimed and puts a Keep frame on the carrier, for a session that was never opened. -/
theorem not_disciplined_timedRun :
    ∃ u f, Transition.run next (start 8) (timedRun (List.replicate 256 0x61)) = some u ∧
      u.flows[0]? = some f ∧ ¬ Discipline (u.framesFor f.id) f.written := by
  refine ⟨_, _, rfl, rfl, fun h => ?_⟩
  obtain ⟨new, ⟨⟩, -⟩ := h.keepAfterNew [] _ _ rfl rfl

end Uplink

end XrayMux
