import CheezyCore.Foundation.Table
import CheezyCore.XrayMux.Codec
import CheezyCore.XrayMux.Uplink

/-!
# What one step of a carrier can do

The step functions of the uplink are inverted here once. `Flow.Step` lists the
steps of a session's goroutines with everything they test and change, and
`Uplink.Evolves` says how an action of the whole carrier can change one session.
Invariants are proved by cases on these relations; no later proof unfolds a step
function.
-/

namespace XrayMux

open BigEndian Transition

/-! ## What a frame needs -/

section WriteFrame

variable {owner : Option Nat} {id : UInt16} {status option : UInt8} {target : Option Metadata}
variable {globalID : Option (Fixed 8)} {payload : List UInt8} {sent : Bool} {frame : Frame}

theorem writeFrame_accepted (h : Accepted status option target globalID)
    (hlen : payload.length ≤ maxFramePayload) (hdata : payload = [] ∨ option &&& optionData ≠ 0) :
    writeFrame owner id status option target globalID payload sent =
      .ok { owner, id, status, option, payload, sent
            header := (carriedFrame id status option target globalID).wire } := by
  have hmeta : encodeMetadata id status option target globalID = .ok _ :=
    encodeMetadata_ok_iff.mpr ⟨h, rfl⟩
  unfold writeFrame
  rw [if_neg (by omega), if_neg, hmeta]
  rintro ⟨hne, hzero⟩
  exact hdata.elim hne (· hzero)

theorem writeFrame_ok
    (h : writeFrame owner id status option target globalID payload sent = .ok frame) :
    frame.owner = owner ∧ frame.id = id ∧ frame.status = status ∧ frame.payload = payload ∧
      frame.sent = sent := by
  unfold writeFrame at h
  split at h
  · cases h
  · split at h
    · cases h
    · split at h <;> cases h
      exact ⟨rfl, rfl, rfl, rfl, rfl⟩

theorem optionData_set : optionData &&& optionData ≠ 0 := by decide

/-- The New frame of a TCP session, or of a UDP session with its first datagram. -/
theorem accepted_new {m : Metadata} (haddr : m.Addressable)
    (hkind : (m.netWork = .TCP ∧ globalID = none) ∨ (m.netWork = .UDP ∧ payload ≠ [])) :
    Accepted statusNew (if payload = [] then 0 else optionData) (some m) globalID where
  known := .inl rfl
  noStray := by
    split <;> decide
  placed := by
    rintro ⟨hne, hmisplaced⟩
    rcases hkind with ⟨-, rfl⟩ | ⟨hudp, hpayload⟩
    · exact hne rfl
    · rw [if_neg hpayload] at hmisplaced
      rcases hmisplaced with h | h | h
      · exact h rfl
      · simp [isUDP, hudp] at h
      · exact optionData_set h
  located _ := ⟨m, rfl, hkind.imp And.left And.left, haddr⟩

theorem accepted_keep (h : ∀ m, target = some m → m.netWork = .UDP → m.Addressable) :
    Accepted statusKeep optionData target none where
  known := .inr (.inl rfl)
  noStray := by decide
  placed h := h.1 rfl
  located hneed := by
    rcases hneed with hnew | ⟨-, hudp⟩
    · exact absurd hnew (by decide)
    · cases target with
      | none => cases hudp
      | some m =>
        have hnet : m.netWork = .UDP := by simpa [isUDP] using hudp
        exact ⟨m, rfl, .inr hnet, h m rfl hnet⟩

theorem accepted_end (withError : Bool) :
    Accepted statusEnd (if withError then optionError else 0) none none where
  known := .inr (.inr (.inl rfl))
  noStray := by
    cases withError <;> decide
  placed h := h.1 rfl
  located hneed := by
    rcases hneed with h | ⟨h, -⟩
    · exact absurd h (by decide)
    · exact absurd h (by decide)

end WriteFrame

/-- The first-payload timer was stopped. -/
def Finish.pastStop : Finish → Bool
  | .idle | .begun _ => false
  | _ => true

/-- The End frame was sent or skipped. -/
def Finish.pastEnd : Finish → Bool
  | .idle | .begun _ | .stopped _ | .ending _ => false
  | _ => true

/-- `done` was closed. -/
def Finish.pastDone : Finish → Bool
  | .finished | .removed _ | .retiring | .complete => true
  | _ => false

theorem Finish.pastCause_of_pastDone {finish : Finish} (h : finish.pastDone = true) :
    finish.pastCause = true := by
  cases finish <;> first | rfl | cases h

variable {o : Outcome} {env : Env} {action : FlowAction} {k : Nat} {w : Writer}

namespace Flow

/-- The session once it has decided to send New. -/
def claimNew (f : Flow) : Flow := { f with timer := f.timer.stop, newSent := true }

/-- The outcomes of `writeNewTo`: the session is closed, New was sent before, the
frame is refused by the encoder, New is sent, or the carrier fails to send it. -/
inductive NewStep (f : Flow) (payload : List UInt8) (target : Option Metadata) (sent : Bool) :
    Flow → Option Frame → Except Failure Bool → Prop where
  | closed : f.newClosed = true ∨ f.done = true →
      NewStep f payload target sent f none (.error ⟨.sessionClosed, f.closedWriteError⟩)
  | skipped : f.newClosed = false → f.newSent = true →
      NewStep f payload target sent f none (.ok false)
  | refused {e} : f.newClosed = false → f.newSent = false →
      writeFrame (some f.ref) f.id statusNew (if payload = [] then 0 else optionData) target
        f.globalID payload sent = .error e →
      NewStep f payload target sent f.claimNew none (.error ⟨.unencodable, e⟩)
  | put {frame} : f.newClosed = false → f.newSent = false →
      writeFrame (some f.ref) f.id statusNew (if payload = [] then 0 else optionData) target
        f.globalID payload sent = .ok frame → NewStep f payload target sent f.claimNew (some frame)
        (if sent then .ok true else .error carrierFailure)

theorem newStep_of_writeNewTo {f g : Flow} {payload : List UInt8} {target : Option Metadata}
    {sent : Bool} {frame : Option Frame} {result : Except Failure Bool}
    (h : f.writeNewTo payload target sent = (g, frame, result)) :
    NewStep f payload target sent g frame result := by
  revert h
  fun_cases writeNewTo f payload target sent with
  | case1 hclosed =>
    rintro ⟨⟩
    exact .closed (.inl hclosed)
  | case2 hclosed hsent =>
    rintro ⟨⟩
    exact .skipped (Bool.eq_false_iff.mpr hclosed) hsent
  | case3 hclosed hsent hdone =>
    rintro ⟨⟩
    exact .closed (.inr hdone)
  | case4 hclosed hsent =>
    rename_i claimed e hw
    subst claimed
    rintro ⟨⟩
    exact .refused (Bool.eq_false_iff.mpr hclosed) (Bool.eq_false_iff.mpr hsent) hw
  | case5 hclosed hsent =>
    rename_i claimed frame hw
    subst claimed
    rintro ⟨⟩
    exact .put (Bool.eq_false_iff.mpr hclosed) (Bool.eq_false_iff.mpr hsent) hw

/-- The steps of `openSession`. -/
inductive OpenStep (f : Flow) (metadata : Metadata) (globalID : Option (Fixed 8)) (timeout : Int)
    (sent : Bool) : Outcome → Prop where
  | udp : metadata.netWork = .UDP → OpenStep f metadata globalID timeout sent
      { flow := { f.aim metadata globalID with opening := .started } }
  | delayed : metadata.netWork ≠ .UDP → ¬ timeout ≤ 0 → OpenStep f metadata globalID timeout sent
      { flow := { f.aim metadata globalID with timer := .armed, opening := .started } }
  | failed {g frame failure} : metadata.netWork ≠ .UDP →
      timeout ≤ 0 →
      NewStep (f.aim metadata globalID) [] (some metadata) sent g frame (.error failure) →
      OpenStep f metadata globalID timeout sent
        { flow := { g with opening := .failed failure }, frame }
  | immediate {g frame consumed} : metadata.netWork ≠ .UDP →
      timeout ≤ 0 →
      NewStep (f.aim metadata globalID) [] (some metadata) sent g frame (.ok consumed) →
      OpenStep f metadata globalID timeout sent { flow := { g with opening := .started }, frame }

theorem openSession_openStep {f : Flow} {metadata : Metadata} {globalID : Option (Fixed 8)}
    {timeout : Int} {sent : Bool} (h : f.openSession metadata globalID timeout sent = some o) :
    f.opening = .reserved ∧ dialable f.packet metadata globalID = true ∧
      OpenStep f metadata globalID timeout sent o := by
  obtain ⟨hopen, h⟩ := of_guard_bind h
  refine ⟨hopen.1, hopen.2, ?_⟩
  split at h
  · next hudp =>
    cases h
    exact .udp hudp
  · next hudp =>
    split at h
    · next htimeout =>
      split at h <;> cases h
      next hr => exact .failed hudp htimeout (newStep_of_writeNewTo hr)
      next hr => exact .immediate hudp htimeout (newStep_of_writeNewTo hr)
    · next htimeout =>
      cases h
      exact .delayed hudp htimeout

/-- The steps of a writer: it is done, it calls `writeNewTo` for its chunk, it sends
the chunk in a Keep frame, or it closes the worker after an error. -/
inductive WriteStep (env : Env) (f : Flow) (k : Nat) (w : Writer) (sent : Bool) :
    Outcome → Prop where
  | finished : w.pc = .head → w.rest = [] →
      WriteStep env f k w sent { flow := f.setWriter k { w with pc := .returned none } }
  | newFailed {g frame failure} : w.pc = .head → w.rest ≠ [] →
      NewStep f w.chunk w.target sent g frame (.error failure) →
      WriteStep env f k w sent
        { flow := g.setWriter k { w with pc := .failing failure }, frame }
  | newSent {g frame} : w.pc = .head → w.rest ≠ [] →
      NewStep f w.chunk w.target sent g frame (.ok true) →
      WriteStep env f k w sent { flow := g.setWriter k w.advance, frame }
  | newSkipped {g frame} : w.pc = .head → w.rest ≠ [] →
      NewStep f w.chunk w.target sent g frame (.ok false) →
      WriteStep env f k w sent { flow := g.setWriter k { w with pc := .keep }, frame }
  | keepRefused {e} : w.pc = .keep →
      writeFrame (some f.ref) f.id statusKeep optionData (f.keepTarget w.target) none w.chunk
        sent = .error e →
      WriteStep env f k w sent
        { flow := f.setWriter k { w with pc := .failing ⟨.unencodable, e⟩ } }
  | keepSent {frame} : w.pc = .keep → sent = true →
      writeFrame (some f.ref) f.id statusKeep optionData (f.keepTarget w.target) none w.chunk
        sent = .ok frame →
      WriteStep env f k w sent { flow := f.setWriter k w.advance, frame := some frame }
  | keepFailed {frame} : w.pc = .keep → sent = false →
      writeFrame (some f.ref) f.id statusKeep optionData (f.keepTarget w.target) none w.chunk
        sent = .ok frame →
      WriteStep env f k w sent
        { flow := f.setWriter k { w with pc := .failing carrierFailure }, frame := some frame }
  | closes {failure} : w.pc = .failing failure →
      WriteStep env f k w sent
        { flow := f.setWriter k { w with pc := .closing failure }, call := .close failure }
  | returns {failure} : w.pc = .closing failure → env.torn = true →
      WriteStep env f k w sent
        { flow := f.setWriter k { w with pc := .returned (some failure.err) } }

theorem writeStep_shape {f : Flow} {sent : Bool} (h : f.writeStep env k w sent = some o) :
    WriteStep env f k w sent o := by
  unfold writeStep at h
  split at h
  · next hpc =>
    split at h
    · next hrest =>
      cases h
      exact .finished hpc hrest
    · next hrest =>
      split at h <;> cases h
      next hr => exact .newFailed hpc hrest (newStep_of_writeNewTo hr)
      next hr => exact .newSent hpc hrest (newStep_of_writeNewTo hr)
      next hr => exact .newSkipped hpc hrest (newStep_of_writeNewTo hr)
  · next hpc =>
    split at h
    · next hw =>
      cases h
      exact .keepRefused hpc hw
    · next hw =>
      split at h <;> cases h
      next hsent => exact .keepSent hpc hsent hw
      next hsent => exact .keepFailed hpc (Bool.eq_false_iff.mpr hsent) hw
  · next hpc =>
    cases h
    exact .closes hpc
  · next hpc =>
    obtain ⟨htorn, rfl⟩ := of_guard h
    exact .returns hpc htorn
  · cases h

/-- The steps of the timer's goroutine. -/
inductive TimerStep (env : Env) (f : Flow) (sent : Bool) : Outcome → Prop where
  | newFailed {g frame failure} : f.timer = .fired →
      NewStep f [] f.target sent g frame (.error failure) →
      TimerStep env f sent { flow := { g with timer := .failing failure }, frame }
  | new {g frame consumed} : f.timer = .fired →
      NewStep f [] f.target sent g frame (.ok consumed) →
      TimerStep env f sent { flow := { g with timer := .complete }, frame }
  | closes {failure} : f.timer = .failing failure →
      TimerStep env f sent { flow := { f with timer := .closing }, call := .close failure }
  | returns : f.timer = .closing → env.torn = true →
      TimerStep env f sent { flow := { f with timer := .complete } }

theorem timerStep_shape {f : Flow} {sent : Bool} (h : f.timerStep env sent = some o) :
    TimerStep env f sent o := by
  unfold timerStep at h
  split at h
  · next htimer =>
    split at h <;> cases h
    next hr => exact .newFailed htimer (newStep_of_writeNewTo hr)
    next hr => exact .new htimer (newStep_of_writeNewTo hr)
  · next htimer =>
    cases h
    exact .closes htimer
  · next htimer =>
    obtain ⟨htorn, rfl⟩ := of_guard h
    exact .returns htimer htorn
  · cases h

/-- The steps of the `once` body of `finishWithCause`. -/
inductive FinishStep (env : Env) (f : Flow) (sent : Bool) : Outcome → Prop where
  | stop {e} : f.finish = .begun e → FinishStep env f sent
      { flow := { f with newClosed := true, timer := f.timer.stop, finish := .stopped e } }
  | choose {e} : f.finish = .stopped e → FinishStep env f sent
      { flow := { f with finish := if e.sendEnd && !env.closed then .ending e else .ended e } }
  | put {e} : f.finish = .ending e → FinishStep env f sent
      { flow := { f with finish := .ended e }
        frame := (writeFrame (some f.ref) f.id statusEnd (if e.withError then optionError else 0)
          none none [] sent).toOption }
  | cause {e} : f.finish = .ended e → FinishStep env f sent
      { flow := { f with cause := e.cause, finish := .caused } }
  | done : f.finish = .caused → FinishStep env f sent
      { flow := { f with done := true, finish := .finished } }
  | remove : f.finish = .finished → FinishStep env f sent
      { flow := { f with finish := .removed env.retire }, call := .removeSession }
  | retire : f.finish = .removed true → FinishStep env f sent
      { flow := { f with finish := .retiring }, call := .close ⟨.retirement, .netClosed⟩ }
  | leave : f.finish = .removed false → FinishStep env f sent
      { flow := { f with finish := .complete } }
  | returns : f.finish = .retiring → env.torn = true → FinishStep env f sent
      { flow := { f with finish := .complete } }

theorem finishStep_shape {f : Flow} {sent : Bool} (h : f.finishStep env sent = some o) :
    FinishStep env f sent o := by
  unfold finishStep at h
  split at h
  · next hf =>
    cases h
    exact .stop hf
  · next hf =>
    cases h
    exact .choose hf
  · next hf =>
    cases h
    exact .put hf
  · next hf =>
    cases h
    exact .cause hf
  · next hf =>
    cases h
    exact .done hf
  · next hf =>
    cases h
    exact .remove hf
  · next retire hf =>
    cases retire with
    | true =>
      cases h
      exact .retire hf
    | false =>
      cases h
      exact .leave hf
  · next hf =>
    obtain ⟨htorn, rfl⟩ := of_guard h
    exact .returns hf htorn
  all_goals cases h

/-- Everything a session's goroutines can do in one step. -/
inductive Step (env : Env) (f : Flow) : FlowAction → Outcome → Prop where
  | openSession {metadata globalID timeout sent o} :
      f.opening = .reserved → dialable f.packet metadata globalID = true →
      OpenStep f metadata globalID timeout sent o →
      Step env f (.openSession metadata globalID timeout sent) o
  | abandon {failure} : f.opening = .failed failure → f.finish = .idle →
      Step env f .abandon {
        flow := { f with
          opening := .abandoned failure, finish := .complete, ender := some .failedOpen
          newClosed := true, timer := f.timer.stop, done := true, cause := some failure.err }
        call := .abandonSession }
  | abandonEnding {failure} : f.opening = .failed failure → f.finish ≠ .idle →
      Step env f .abandon
        { flow := { f with opening := .abandoned failure }, call := .abandonSession }
  | closeAbandoned {failure} : f.opening = .abandoned failure → f.finish = .complete →
      Step env f .closeAbandoned { flow := { f with opening := .lost }, call := .close failure }
  | writeReturns {payload expired} :
      Step env f (.write payload expired) { flow := f }
  | write {payload expired} : f.opening = .started → f.packet = false →
      f.done = false → Step env f (.write payload expired)
        { flow := { f with writers := f.writers ++ [{ target := f.target, rest := payload }] } }
  | writeToReturns {payload target expired} :
      Step env f (.writeTo payload target expired) { flow := f }
  | writeTo {payload target expired} : f.opening = .started →
      f.packet = true → target.netWork = .UDP → f.done = false →
      Step env f (.writeTo payload target expired)
        { flow := { f with writers := f.writers ++ [{ target := some target, rest := payload }] } }
  | writer {k sent w o} : f.writers[k]? = some w →
      WriteStep env f k w sent o → Step env f (.writeStep k sent) o
  | timerFire : f.timer = .armed → Step env f .timerFire { flow := { f with timer := .fired } }
  | timer {sent o} : TimerStep env f sent o → Step env f (.timerStep sent) o
  | close : f.opening = .started → f.finish = .idle →
      Step env f .close { flow := f.beginFinish .localClose ⟨true, false, none⟩ }
  | finish {sent o} : FinishStep env f sent o → Step env f (.finishStep sent) o

theorem step_shape {f : Flow} (h : f.step env action = some o) : Step env f action o := by
  cases action with
  | openSession metadata globalID timeout sent =>
    obtain ⟨hopening, hdial, hopen⟩ := openSession_openStep h
    exact .openSession hopening hdial hopen
  | abandon =>
    simp only [step, Flow.abandon] at h
    split at h
    · next hopening =>
      split at h <;> cases h
      next hfinish => exact .abandon hopening hfinish
      next hfinish => exact .abandonEnding hopening hfinish
    · cases h
  | closeAbandoned =>
    simp only [step, Flow.closeAbandoned] at h
    split at h
    · next hopening =>
      obtain ⟨hfinish, rfl⟩ := of_guard h
      exact .closeAbandoned hopening hfinish
    · cases h
  | write payload expired =>
    obtain ⟨hopen, h⟩ := of_guard_bind h
    split at h <;> cases h
    · exact .writeReturns
    next hdone => exact .write hopen.1 hopen.2 (Bool.eq_false_iff.mpr fun hd => hdone (.inl hd))
  | writeTo payload target expired =>
    obtain ⟨hopen, h⟩ := of_guard_bind h
    split at h <;> cases h
    · exact .writeToReturns
    next hgo =>
      exact .writeTo hopen.1 hopen.2.1 hopen.2.2.1
        (Bool.eq_false_iff.mpr fun hd => hgo (.inr (.inr (.inl hd))))
  | writeStep k sent =>
    obtain ⟨w, hw, hstep⟩ := Option.bind_eq_some_iff.mp h
    exact .writer hw (writeStep_shape hstep)
  | timerFire =>
    obtain ⟨htimer, rfl⟩ := of_guard h
    exact .timerFire htimer
  | timerStep sent => exact .timer (timerStep_shape h)
  | close =>
    obtain ⟨hopen, rfl⟩ := of_guard h
    exact .close hopen.1 hopen.2
  | finishStep sent => exact .finish (finishStep_shape h)

section Steps

variable {env : Env} {f g : Flow} {action : FlowAction} {o : Outcome} {payload : List UInt8}
variable {target : Option Metadata} {sent : Bool} {frame : Option Frame}
variable {result : Except Failure Bool}

section

variable (h : NewStep f payload target sent g frame result)
include h

theorem NewStep.flow_eq : g = f ∨ g = f.claimNew := by
  cases h with
  | closed | skipped => exact .inl rfl
  | refused | put => exact .inr rfl

/-- What claiming New leaves alone is left alone. -/
theorem NewStep.keeps {α : Type} (field : Flow → α) (hclaim : field f.claimNew = field f) :
    field g = field f := by
  rcases h.flow_eq with rfl | rfl
  · rfl
  · exact hclaim

theorem NewStep.frame_eq : ∀ fr ∈ frame, fr.owner = some f.ref ∧ fr.id = f.id := by
  cases h with
  | closed | skipped | refused => exact nofun
  | put _ _ hw =>
    rintro fr ⟨⟩
    obtain ⟨howner, hid, -⟩ := writeFrame_ok hw
    exact ⟨howner, hid⟩

end

/-- A step keeps the session's identity and signs its frame with it. -/
structure Signed (f : Flow) (o : Outcome) : Prop where
  ref : o.flow.toSessionRef = f.toSessionRef
  frame : ∀ fr ∈ o.frame, fr.owner = some f.ref ∧ fr.id = f.id

theorem WriteStep.signed (h : WriteStep env f k w sent o) : Signed f o := by
  cases h with
  | newFailed _ _ hnew | newSent _ _ hnew
  | newSkipped _ _ hnew => exact ⟨hnew.keeps toSessionRef rfl, hnew.frame_eq⟩
  | keepSent _ _ hw | keepFailed _ _ hw =>
    obtain ⟨howner, hid, -⟩ := writeFrame_ok hw
    exact ⟨rfl, by rintro fr ⟨⟩; exact ⟨howner, hid⟩⟩
  | _ => exact ⟨rfl, nofun⟩

theorem FinishStep.signed (h : FinishStep env f sent o) : Signed f o := by
  cases h with
  | put =>
    rw [writeFrame_accepted (accepted_end _) (Nat.zero_le _) (.inl rfl)]
    exact ⟨rfl, by rintro fr ⟨⟩; exact ⟨rfl, rfl⟩⟩
  | _ => exact ⟨rfl, nofun⟩

theorem TimerStep.signed (h : TimerStep env f sent o) : Signed f o := by
  cases h with
  | newFailed _ hnew | new _ hnew => exact ⟨hnew.keeps toSessionRef rfl, hnew.frame_eq⟩
  | closes | returns => exact ⟨rfl, nofun⟩

theorem Step.signed (h : Step env f action o) : Signed f o := by
  cases h with
  | openSession _ _ hopen =>
    cases hopen with
    | udp | delayed => exact ⟨rfl, nofun⟩
    | failed _ _ hnew | immediate _ _ hnew => exact ⟨hnew.keeps toSessionRef rfl, hnew.frame_eq⟩
  | writer _ hw => exact hw.signed
  | timer ht => exact ht.signed
  | finish hf => exact hf.signed
  | _ => exact ⟨rfl, nofun⟩

/-! ### The order of a session's end -/

/-- The flags of a session agree with how far its end is, and only a session that
was returned has writers. -/
structure Orderly (f : Flow) : Prop where
  stop : f.finish.pastStop = true → f.newClosed = true
  done : f.done = f.finish.pastDone
  ender : f.finish ≠ .idle → f.ender ≠ none
  writers : f.opening ≠ .started → f.writers = []

theorem orderly_fresh (s : SessionRef) : Orderly { toSessionRef := s } :=
  ⟨nofun, rfl, absurd rfl, fun _ => rfl⟩

theorem Orderly.beginFinish (h : f.Orderly) (hidle : f.finish = .idle) (ender : Ender)
    (ending : Ending) : (f.beginFinish ender ending).Orderly := by
  refine ⟨nofun, ?_, fun _ => nofun, h.writers⟩
  have hdone := h.done
  rw [hidle] at hdone
  exact hdone

theorem Orderly.claimNew (h : f.Orderly) : f.claimNew.Orderly :=
  { h with }

theorem NewStep.orderly (hnew : NewStep f payload target sent g frame result) (h : f.Orderly) :
    g.Orderly := by
  rcases hnew.flow_eq with rfl | rfl
  · exact h
  · exact h.claimNew

theorem Orderly.setWriter (h : f.Orderly) {w' : Writer} (hw : f.writers[k]? = some w) :
    (f.setWriter k w').Orderly := by
  refine ⟨h.stop, h.done, h.ender, fun hopening => ?_⟩
  rw [h.writers hopening] at hw
  cases hw

theorem WriteStep.orderly (hstep : WriteStep env f k w sent o) (hw : f.writers[k]? = some w)
    (h : f.Orderly) : o.flow.Orderly := by
  cases hstep with
  | newFailed _ _ hnew | newSent _ _ hnew
  | newSkipped _ _ hnew => exact (hnew.orderly h).setWriter ((hnew.keeps writers rfl) ▸ hw)
  | _ => exact h.setWriter hw

theorem TimerStep.orderly (hstep : TimerStep env f sent o) (h : f.Orderly) : o.flow.Orderly := by
  cases hstep with
  | newFailed _ hnew | new _ hnew =>
    have hg := hnew.orderly h
    exact { hg with }
  | closes | returns => exact { h with }

theorem FinishStep.orderly (hstep : FinishStep env f sent o) (h : f.Orderly) : o.flow.Orderly := by
  obtain ⟨hstop, hdone, hender, hwriters⟩ := h
  cases hstep with
  | stop hf =>
    rw [hf] at hdone hender
    exact ⟨fun _ => rfl, hdone, fun _ => hender nofun, hwriters⟩
  | choose hf =>
    rw [hf] at hstop hdone hender
    refine ⟨fun _ => hstop rfl, ?_, fun _ => hender nofun, hwriters⟩
    rw [hdone]
    split <;> rfl
  | put hf | cause hf | remove hf | retire hf | leave hf | returns hf =>
    rw [hf] at hstop hdone hender
    exact ⟨fun _ => hstop rfl, hdone, fun _ => hender nofun, hwriters⟩
  | done hf =>
    rw [hf] at hstop hender
    exact ⟨fun _ => hstop rfl, rfl, fun _ => hender nofun, hwriters⟩

theorem OpenStep.orderly {metadata : Metadata} {globalID : Option (Fixed 8)} {timeout : Int}
    (hstep : OpenStep f metadata globalID timeout sent o) (hopening : f.opening = .reserved)
    (h : f.Orderly) : o.flow.Orderly := by
  have hnone : f.writers = [] := h.writers (hopening ▸ nofun)
  have haim : (f.aim metadata globalID).Orderly := { h with }
  cases hstep with
  | udp | delayed => exact ⟨h.stop, h.done, h.ender, fun _ => hnone⟩
  | failed _ _ hnew | immediate _ _ hnew =>
    have hg := hnew.orderly haim
    exact ⟨hg.stop, hg.done, hg.ender, fun _ => (hnew.keeps writers rfl).trans hnone⟩

theorem Step.orderly (hstep : Step env f action o) (h : f.Orderly) : o.flow.Orderly := by
  cases hstep with
  | openSession hopening _ hopen => exact hopen.orderly hopening h
  | abandon hopening =>
    exact ⟨fun _ => rfl, rfl, fun _ => nofun, fun _ => h.writers (hopening ▸ nofun)⟩
  | abandonEnding hopening | closeAbandoned hopening =>
    exact ⟨h.stop, h.done, h.ender, fun _ => h.writers (hopening ▸ nofun)⟩
  | writeReturns | writeToReturns => exact h
  | write hopening
  | writeTo hopening => exact ⟨h.stop, h.done, h.ender, absurd hopening⟩
  | writer hw hwrite => exact hwrite.orderly hw h
  | timerFire => exact { h with }
  | timer htimer => exact htimer.orderly h
  | close _ hidle => exact h.beginFinish hidle _ _
  | finish hfinish => exact hfinish.orderly h

end Steps

end Flow

/-! ## Actions of the carrier -/

namespace Uplink

variable {u u' : Uplink} {a : Action} {order : List Nat} {ref : Nat}

/-- The frames a session has handed to the carrier. -/
def framesOf (u : Uplink) (ref : Nat) : List Frame :=
  u.wire.filter fun frame => frame.owner = some ref

/-- How an action changes session `ref`, and the frames it writes: not at all, by a
step of its own goroutines, by an End or Error frame, by the loop of `close`, or by
its creation. -/
inductive Evolves (u : Uplink) (a : Action) (ref : Nat) : Flow → List Frame → Prop where
  | same {f} : u.flows[ref]? = some f → Evolves u a ref f []
  | step {f action order o} : a = .session ref action order → u.flows[ref]? = some f →
      Flow.Step (u.env f.id) f action o → Evolves u a ref o.flow o.frame.toList
  | remote {f ending order} : a = .deliver order →
      u.flows[ref]? = some f → f.finish = .idle → ending.sendEnd = false →
      Evolves u a ref (f.beginFinish .remoteEnd ending) []
  | teardown {f cause} : u.flows[ref]? = some f → f.finish = .idle → u.teardown ≠ .idle →
      Evolves u a ref (f.beginFinish .workerClose ⟨false, false, some cause⟩) []
  | fresh {s w limit packet} :
      a = .reserve limit packet → ref = u.flows.length →
      u.worker.reserve limit packet = some (s, w) → Evolves u a ref { toSessionRef := s } []

/-- Who calls `worker.close` in an action: a session's goroutine, the outside, or the
demultiplexer with a packet it cannot deliver. -/
inductive ClosedBy (u : Uplink) (a : Action) : Failure → Prop where
  | session {f ref action order o failure} :
      a = .session ref action order → u.flows[ref]? = some f →
      Flow.Step (u.env f.id) f action o → o.call = .close failure → ClosedBy u a failure
  | external (external : External) : ClosedBy u a external.failure
  | packet {f ref frame payload e} :
      u.demux = .delivering ref frame payload → u.flows[ref]? = some f → f.packet = true →
      metadataPacketAddr (frame.target <|> f.target) = .error e →
      ClosedBy u a ⟨packetOrigin frame f, e⟩

/-- How an action changes the worker and its `close`. -/
inductive Change (u : Uplink) (a : Action) : Worker → Teardown → Option Origin → Prop where
  | same : Change u a u.worker u.teardown u.origin
  | reserve {s w limit packet} :
      a = .reserve limit packet → u.worker.reserve limit packet = some (s, w) →
      Change u a w u.teardown u.origin
  | shutdown {failure order} : u.teardown = .idle →
      order.Perm (u.worker.sessions.map SessionRef.ref) → ClosedBy u a failure →
      Change u a u.worker.shutdown (.running order failure.err) (some failure.origin)
  | removeSession {ref : Nat} {f : Flow} : u.flows[ref]? = some f → f.finish = .finished →
      Change u a (u.worker.removeSession f.id).1 u.teardown u.origin
  | abandonSession {ref : Nat} {f : Flow} {failure : Failure} : u.flows[ref]? = some f →
      f.opening = .failed failure → Change u a (u.worker.abandonSession f.id) u.teardown u.origin
  | visited {ref rest cause f} :
      u.teardown = .running (ref :: rest) cause → u.flows[ref]? = some f → f.finish = .complete →
      Change u a u.worker (.running rest cause) u.origin
  | torn {cause} : u.teardown = .running [] cause → Change u a u.worker .done u.origin

theorem enterClose_change {b : Uplink} {failure : Failure}
    (h : b.enterClose failure order = some u') (hby : ClosedBy u a failure)
    (hworker : b.worker = u.worker) (hteardown : b.teardown = u.teardown)
    (horigin : b.origin = u.origin) : Change u a u'.worker u'.teardown u'.origin := by
  unfold enterClose at h
  split at h
  · next hidle =>
    obtain ⟨hperm, rfl⟩ := of_guard h
    rw [hworker] at hperm
    rw [hteardown] at hidle
    rw [hworker]
    exact .shutdown hidle hperm hby
  · cases h
    rw [hworker, hteardown, horigin]
    exact .same

theorem enterClose_frame {failure : Failure} (h : u.enterClose failure order = some u') :
    u'.flows = u.flows ∧ u'.wire = u.wire ∧ u'.demux = u.demux := by
  unfold enterClose at h
  split at h
  · obtain ⟨-, rfl⟩ := of_guard h
    exact ⟨rfl, rfl, rfl⟩
  · cases h
    exact ⟨rfl, rfl, rfl⟩

/-- When a step calls the worker to remove or to abandon its session. -/
theorem calls_of_step {f : Flow} (h : Flow.Step env f action o) :
    (o.call = .removeSession → f.finish = .finished) ∧
      (o.call = .abandonSession → ∃ failure, f.opening = .failed failure) := by
  cases h with
  | openSession _ _ hopen => cases hopen <;> exact ⟨nofun, nofun⟩
  | writer _ hwrite => cases hwrite <;> exact ⟨nofun, nofun⟩
  | timer htimer => cases htimer <;> exact ⟨nofun, nofun⟩
  | finish hfinish =>
    cases hfinish with
    | remove hf => exact ⟨fun _ => hf, nofun⟩
    | _ => exact ⟨nofun, nofun⟩
  | abandon hopening | abandonEnding hopening => exact ⟨nofun, fun _ => ⟨_, hopening⟩⟩
  | _ => exact ⟨nofun, nofun⟩

/-- What an action does to the sessions, and the frames it writes: it adds a session, it changes
one, or it leaves them alone and writes frames of no session. -/
inductive Rewrites (u : Uplink) (a : Action) : List Flow → List Frame → Prop where
  | fresh {s w limit packet} :
      a = .reserve limit packet → u.worker.reserve limit packet = some (s, w) →
      Rewrites u a (u.flows ++ [{ toSessionRef := s }]) []
  | one {ref f frames} : Evolves u a ref f frames → Rewrites u a (u.flows.set ref f) frames
  | none {frames} : (∀ frame ∈ frames, frame.owner = none) → Rewrites u a u.flows frames

theorem session_cases (h : u.session ref action order = some u') :
    Change u (.session ref action order) u'.worker u'.teardown u'.origin ∧ u'.demux = u.demux ∧
      ∃ frames, u'.wire = u.wire ++ frames ∧
        Rewrites u (.session ref action order) u'.flows frames := by
  obtain ⟨f, hf, h⟩ := Option.bind_eq_some_iff.mp h
  obtain ⟨o, ho, h⟩ := Option.bind_eq_some_iff.mp h
  have hstep := Flow.step_shape ho
  have hone : Rewrites u (.session ref action order) (u.flows.set ref o.flow) o.frame.toList :=
    .one (.step rfl hf hstep)
  split at h
  · cases h
    exact ⟨.same, rfl, _, rfl, hone⟩
  · next failure hcall =>
    obtain ⟨hflows, hwire, hdemux⟩ := enterClose_frame h
    exact ⟨enterClose_change h (.session rfl hf hstep hcall) rfl rfl rfl, hdemux, _, hwire,
      hflows ▸ hone⟩
  · next hcall =>
    cases h
    exact ⟨.removeSession hf ((calls_of_step hstep).1 hcall), rfl, _, rfl, hone⟩
  · next hcall =>
    cases h
    obtain ⟨failure, hopening⟩ := (calls_of_step hstep).2 hcall
    exact ⟨.abandonSession hf hopening, rfl, _, rfl, hone⟩

/-- The end of a delivery: a packet without an address closes the worker, a terminal frame ends
the session unless that was under way. -/
theorem deliver_inv (h : u.deliver order = some u') :
    ∃ ref frame payload f, u.demux = .delivering ref frame payload ∧ u.flows[ref]? = some f ∧
      ((∃ e, f.packet = true ∧ metadataPacketAddr (frame.target <|> f.target) = .error e ∧
          enterClose { u with demux := .stopped } ⟨packetOrigin frame f, e⟩ order = some u') ∨
        u' = { u with demux := .reading } ∨
        ∃ ending, remoteEnding frame = some ending ∧ f.finish = .idle ∧ u' = { u with
          demux := .reading, flows := u.flows.set ref (f.beginFinish .remoteEnd ending) }) := by
  unfold deliver at h
  split at h
  · next ref frame payload hdemux =>
    obtain ⟨f, hf, h⟩ := Option.bind_eq_some_iff.mp h
    refine ⟨ref, frame, payload, f, hdemux, hf, ?_⟩
    split at h
    · next e hpacket =>
      obtain ⟨hp, hpacket⟩ : (payload ≠ [] ∧ f.packet = true) ∧
          (metadataPacketAddr (frame.target <|> f.target)).map (fun _ => ()) = .error e := by
        split at hpacket
        · next hp => exact ⟨hp, hpacket⟩
        · cases hpacket
      cases haddr : metadataPacketAddr (frame.target <|> f.target) with
      | ok address =>
        rw [haddr] at hpacket
        cases hpacket
      | error e' =>
        rw [haddr] at hpacket
        cases hpacket
        exact .inl ⟨e, hp.2, rfl, h⟩
    · split at h
      · next ending hending =>
        split at h <;> cases h
        next hidle => exact .inr (.inr ⟨ending, hending, hidle, rfl⟩)
        · exact .inr (.inl rfl)
      · cases h
        exact .inr (.inl rfl)
  · cases h

theorem deliver_cases (h : u.deliver order = some u') :
    Change u (.deliver order) u'.worker u'.teardown u'.origin ∧ u'.wire = u.wire ∧
      Rewrites u (.deliver order) u'.flows [] := by
  obtain ⟨ref, frame, payload, f, hdemux, hf,
    ⟨e, hp, haddr, hclose⟩ | rfl | ⟨ending, hending, hidle, rfl⟩⟩ := deliver_inv h
  · obtain ⟨hflows, hwire, -⟩ := enterClose_frame hclose
    exact ⟨enterClose_change hclose (.packet hdemux hf hp haddr) rfl rfl rfl, hwire,
      hflows ▸ .none nofun⟩
  · exact ⟨.same, rfl, .none nofun⟩
  · refine ⟨.same, rfl, .one (.remote rfl hf hidle ?_)⟩
    unfold remoteEnding at hending
    split at hending
    · cases hending
      rfl
    · obtain ⟨-, rfl⟩ := of_guard hending
      rfl

theorem closeStep_cases (h : u.closeStep = some u') :
    Change u .closeStep u'.worker u'.teardown u'.origin ∧ u'.demux = u.demux ∧ u'.wire = u.wire ∧
      Rewrites u .closeStep u'.flows [] := by
  unfold closeStep at h
  split at h
  · next hrun =>
    cases h
    exact ⟨.torn hrun, rfl, rfl, .none nofun⟩
  · next ref rest cause hrun =>
    obtain ⟨f, hf, h⟩ := Option.bind_eq_some_iff.mp h
    split at h
    · next hidle =>
      cases h
      refine ⟨.same, rfl, rfl, .one (.teardown hf hidle ?_)⟩
      rw [hrun]
      exact nofun
    · obtain ⟨hover, rfl⟩ := of_guard h
      exact ⟨.visited hrun hf hover, rfl, rfl, .none nofun⟩
  · cases h

/-- A frame that is not KeepAlive goes to the session that the map has for its id. The
demultiplexer's own frames belong to no session. -/
theorem receive_inv {frame : FrameMetadata} {payload : List UInt8} {sent : Bool}
    (h : u.receive frame payload sent = some u') :
    (∃ replies, (∀ reply ∈ replies, reply.owner = none) ∧
      u' = { u with wire := u.wire ++ replies } ∧ u.demux = .reading ∧
      (frame.status = statusKeepAlive ∨ u.worker.lookup frame.id = none)) ∨
    ∃ s, u.worker.lookup frame.id = some s ∧ frame.status ≠ statusKeepAlive ∧
      u' = { u with demux := .delivering s.ref frame payload } := by
  have quiet (hreading : u.demux = .reading)
      (hwhy : frame.status = statusKeepAlive ∨ u.worker.lookup frame.id = none) :
      ∃ replies, (∀ reply ∈ replies, reply.owner = none) ∧
        u = { u with wire := u.wire ++ replies } ∧ u.demux = .reading ∧
        (frame.status = statusKeepAlive ∨ u.worker.lookup frame.id = none) :=
    ⟨[], nofun, by rw [List.append_nil], hreading, hwhy⟩
  obtain ⟨hreading, h⟩ := of_guard_bind h
  split at h
  · next hstatus =>
    split at h <;> cases h
    next s hs => exact .inr ⟨s, hs, by rcases hstatus with heq | heq <;> rw [heq] <;> decide, rfl⟩
    next hnone =>
      refine .inl ⟨_, fun reply hreply => ?_, rfl, hreading, .inr hnone⟩
      cases List.mem_singleton.mp hreply
      rfl
  · split at h
    · next hend =>
      split at h <;> cases h
      next s hs => exact .inr ⟨s, hs, hend ▸ by decide, rfl⟩
      next hnone => exact .inl (quiet hreading (.inr hnone))
    · obtain ⟨halive, rfl⟩ := of_guard h
      exact .inl (quiet hreading (.inl halive))

theorem next_change (h : u.next a = some u') :
    Change u a u'.worker u'.teardown u'.origin := by
  cases a with
  | reserve limit packet =>
    cases h
    unfold Uplink.reserve
    cases hr : u.worker.reserve limit packet with
    | none => exact .same
    | some result => exact .reserve rfl hr
  | session ref action order =>
    exact (session_cases h).1
  | receive frame payload sent =>
    obtain ⟨replies, -, rfl, -⟩ | ⟨s, -, -, rfl⟩ := receive_inv h
    · exact .same
    · exact .same
  | deliver order => exact (deliver_cases h).1
  | closeWorker external order => exact enterClose_change h (.external external) rfl rfl rfl
  | closeStep => exact (closeStep_cases h).1

section

variable {frames : List Frame} (hwire : u'.wire = u.wire ++ frames)
include hwire

theorem framesOf_eq_append (ref : Nat) :
    u'.framesOf ref = u.framesOf ref ++ frames.filter fun frame => frame.owner = some ref := by
  rw [framesOf, hwire, List.filter_append]
  rfl

/-- Frames of others do not count. -/
theorem framesOf_eq (h : ∀ frame ∈ frames, frame.owner ≠ some ref) :
    u'.framesOf ref = u.framesOf ref := by
  have hnil : frames.filter (fun frame => frame.owner = some ref) = [] :=
    List.filter_eq_nil_iff.mpr (by simpa using h)
  rw [framesOf_eq_append hwire, hnil, List.append_nil]

end

theorem next_rewrites (h : u.next a = some u') :
    ∃ frames, u'.wire = u.wire ++ frames ∧ Rewrites u a u'.flows frames := by
  cases a with
  | reserve limit packet =>
    cases h
    refine ⟨[], ?_⟩
    rw [List.append_nil]
    unfold Uplink.reserve
    cases hr : u.worker.reserve limit packet with
    | none => exact ⟨rfl, .none nofun⟩
    | some result => exact ⟨rfl, .fresh rfl hr⟩
  | session ref action order => exact (session_cases h).2.2
  | receive frame payload sent =>
    obtain ⟨replies, howner, rfl, -⟩ | ⟨s, -, -, rfl⟩ := receive_inv h
    · exact ⟨replies, rfl, .none howner⟩
    · exact ⟨[], (List.append_nil _).symm, .none nofun⟩
  | deliver order =>
    obtain ⟨-, hwire, hflows⟩ := deliver_cases h
    exact ⟨[], by rw [hwire, List.append_nil], hflows⟩
  | closeWorker external order =>
    obtain ⟨hflows, hwire, -⟩ := enterClose_frame h
    exact ⟨[], by rw [hwire, List.append_nil], hflows ▸ .none nofun⟩
  | closeStep =>
    obtain ⟨-, -, hwire, hflows⟩ := closeStep_cases h
    exact ⟨[], by rw [hwire, List.append_nil], hflows⟩

/-- A session signs its frames. -/
theorem Evolves.signed {f : Flow} {frames : List Frame} (h : Evolves u a ref f frames)
    (hrefs : ∀ (ref : Nat) (f : Flow), u.flows[ref]? = some f → f.ref = ref) :
    ∀ frame ∈ frames, frame.owner = some ref ∧ ∃ f, u.flows[ref]? = some f ∧ frame.id = f.id := by
  cases h with
  | step _ hf hstep =>
    intro frame hframe
    obtain ⟨howner, hid⟩ := hstep.signed.frame frame (Option.mem_toList.mp hframe)
    rw [hrefs ref _ hf] at howner
    exact ⟨howner, _, hf, hid⟩
  | _ => exact nofun

/-- Every session is as `Evolves` says after an action, and so are its frames. -/
theorem next_evolves (h : u.next a = some u')
    (hrefs : ∀ (ref : Nat) (f : Flow), u.flows[ref]? = some f → f.ref = ref) {f' : Flow}
    (hf' : u'.flows[ref]? = some f') :
    ∃ frames, Evolves u a ref f' frames ∧ u'.framesOf ref = u.framesOf ref ++ frames := by
  obtain ⟨frames, hwire, hrewrites⟩ := next_rewrites h
  have quiet : ∀ {f : Flow}, (∀ frame ∈ frames, frame.owner ≠ some ref) → Evolves u a ref f [] →
      ∃ frames, Evolves u a ref f frames ∧ u'.framesOf ref = u.framesOf ref ++ frames := by
    intro f hother hf
    refine ⟨[], hf, ?_⟩
    rw [List.append_nil]
    exact framesOf_eq hwire hother
  generalize u'.flows = flows at hf' hrewrites
  cases hrewrites with
  | fresh ha hr =>
    refine quiet nofun ?_
    rcases Table.getElem?_concat_cases hf' with hf' | ⟨heq, rfl⟩
    · exact .same hf'
    · exact .fresh ha heq hr
  | one hevolves =>
    have hsigned := hevolves.signed hrefs
    rcases Table.getElem?_set_cases hf' with ⟨hne, hf'⟩ | ⟨rfl, rfl⟩
    · refine quiet (fun frame hframe howner => hne ?_) (.same hf')
      rw [(hsigned frame hframe).1] at howner
      exact Option.some.inj howner
    · refine ⟨frames, hevolves, ?_⟩
      rw [framesOf_eq_append hwire, List.filter_eq_self.mpr]
      intro frame hframe
      simpa using (hsigned frame hframe).1
  | none howner =>
    exact quiet (fun frame hframe => by rw [howner frame hframe]; exact nofun) (.same hf')

/-- Sessions are numbered in the order of their creation. -/
structure Indexed (u : Uplink) : Prop where
  refs : ∀ (ref : Nat) (f : Flow), u.flows[ref]? = some f → f.ref = ref
  opened : u.worker.opened = u.flows.length

theorem indexed_start (maxWorkerUses : Int) : (start maxWorkerUses).Indexed where
  refs ref f h := by simp [start] at h
  opened := rfl

theorem Change.opened {w : Worker} {t : Teardown} {origin : Option Origin}
    (h : Change u a w t origin) (hreserve : ∀ limit packet, a ≠ .reserve limit packet) :
    w.opened = u.worker.opened := by
  cases h with
  | reserve ha => exact absurd ha (hreserve _ _)
  | _ => rfl

theorem next_length (h : u.next a = some u')
    (hreserve : ∀ limit packet, a ≠ .reserve limit packet) :
    u'.flows.length = u.flows.length := by
  obtain ⟨frames, -, hrewrites⟩ := next_rewrites h
  generalize u'.flows = flows at hrewrites
  cases hrewrites with
  | fresh ha => exact absurd ha (hreserve _ _)
  | one => exact List.length_set
  | none => rfl

theorem Indexed.next (hindexed : u.Indexed) (h : u.next a = some u') :
    u'.Indexed := by
  refine ⟨fun ref f' hf' => ?_, ?_⟩
  · obtain ⟨frames, hevolves, -⟩ := next_evolves h hindexed.refs hf'
    cases hevolves with
    | same hf => exact hindexed.refs ref f' hf
    | step _ hf hstep =>
      rw [hstep.signed.ref]
      exact hindexed.refs ref _ hf
    | remote _ hf | teardown hf =>
      have href := hindexed.refs ref _ hf
      exact href
    | fresh _ href hr =>
      obtain ⟨-, -, -, rfl, -⟩ := Worker.reserve_eq_some hr
      exact hindexed.opened.trans href.symm
  · by_cases hreserve : ∃ limit packet, a = .reserve limit packet
    swap
    · have hother : ∀ limit packet, a ≠ .reserve limit packet :=
        fun limit packet ha => hreserve ⟨limit, packet, ha⟩
      rw [(next_change h).opened hother, next_length h hother]
      exact hindexed.opened
    · obtain ⟨limit, packet, rfl⟩ := hreserve
      cases h
      unfold Uplink.reserve
      cases hr : u.worker.reserve limit packet with
      | none => exact hindexed.opened
      | some result =>
        obtain ⟨-, -, -, -, hw⟩ := Worker.reserve_eq_some hr
        simp [hw, hindexed.opened]

end Uplink

end XrayMux
