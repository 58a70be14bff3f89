import CheezyCore.Foundation.Table
import CheezyCore.AntiLag.Flow

/-!
# What the steps of a flow do

`Steps` has one constructor for each way in which a thread can change what a flow owns:
its active and its reserve path, the paths that are closed, the switch gate and the
history. All other steps only move a thread on; they are the constructors of `Passes`.
`step_inv` and `next_inv` are the inversions of `Thread.step` and `State.next`.
-/

namespace AntiLag

namespace Flow

/-- The flows agree on the paths and on what they are used for. -/
structure Keeps (f f' : Flow) : Prop where
  closed : f'.closed = f.closed
  active : f'.active = f.active
  reserve : f'.reserve = f.reserve
  paths : f'.paths = f.paths

/-- They also agree on the gate and the history. -/
structure Same (f f' : Flow) : Prop extends Keeps f f' where
  gate : f'.gate = f.gate
  handed : f'.handed = f.handed
  delivered : f'.delivered = f.delivered

theorem Keeps.refl (f : Flow) : f.Keeps f := ⟨rfl, rfl, rfl, rfl⟩

theorem Same.refl (f : Flow) : f.Same f := ⟨Keeps.refl f, rfl, rfl, rfl⟩

end Flow

namespace Thread

/-- A thread moves on and the flow owns what it did. -/
inductive Passes (f : Flow) : Thread → Thread → Prop where
  | enterStop {call} : Passes f (.enter call) (call.returns .failed)
  | inspectFailed {call} : Passes f (.inspect call) (.leave call .failed)
  | inspectUnchanged {call} : Passes f (.inspect call) (.leave call .unchanged)
  | inspect {call options} : Passes f (.inspect call) (.choose call f.active f.reserve options)
  | chooseFailed {call old spare options} :
      Passes f (.choose call old spare options) (.leave call .failed)
  | chooseNext {call old spare c rest} :
      Passes f (.choose call old spare (c :: rest)) (.choose call old spare rest)
  | chooseSpare {call old p options} :
      Passes f (.choose call old (some p) options) (.install call old (some p) p)
  | installLate {call old next} :
      Passes f (.install call old (some next) next) (.leave call .failed)
  | warmRefuse {active} : Passes f (.warmStart active) .done
  | warmStart {active options} :
      Passes f (.warmStart active) (.warmChoose active f.reserve options options)
  | warmGiveUp {active old options rest} : Passes f (.warmChoose active old options rest) .warmEnd
  | warmNext {active old options c rest} :
      Passes f (.warmChoose active old options (c :: rest)) (.warmChoose active old options rest)
  | warmEnd : Passes f .warmEnd .done
  | failReturn {path write} : Passes f (.failStart path write) (failed write)
  | failEnter {path write} :
      Passes f (.failStart path write) (.enter ⟨[], some path, .failure path write⟩)
  | closeDone : Passes f (.closeRest []) .done
  | bound {write} : Passes f (.bound true write) (if write then .writeLock else .done)
  | boundLate {ok write} : Passes f (.bound ok write) .closeStart
  | awaitReady : Passes f .await .writeLock
  | awaitStop : Passes f .await .done
  | writeLock : Passes f .writeLock .writeCheck
  | writeCheck : Passes f .writeCheck .writeLook
  | writeLate : Passes f .writeCheck .writeReturn
  | reconnect : Passes f .writeLook (.enter ⟨[], none, .reconnect⟩)
  | writeLook : Passes f .writeLook .writePick
  | writePick {p} (active : f.active = some p) : Passes f .writePick (.writeOffer p)
  | writeClosed : Passes f .writePick .writeReturn
  | offerStop {p} : Passes f (.writeOffer p) .writeReturn
  | waitReturn {p} : Passes f (.writeWait p) .writeReturn
  | waitFail {p} : Passes f (.writeWait p) (.failStart p true)
  | writeReturn : Passes f .writeReturn .done
  | loopDone {p} : Passes f (.loopIdle p) .done
  | loopNext {p datagram} : Passes f (.loopReturn p datagram) (.loopIdle p)
  | received {p x} : Passes f (.receiveWait p) (.receiveOffer p x)
  | receiveFail {p} : Passes f (.receiveWait p) (.failStart p false)
  | receiveDone {p x} : Passes f (.receiveOffer p x) .done
  | readStop : Passes f .readWait .done
  | readDrop {p x} : Passes f (.readCheck p x) .readWait
  | readCheck {p x} (active : f.active = some p) (open' : f.closed = false) :
      Passes f (.readCheck p x) (.readReturn p x)

/-- A step of a thread: the flow before and after it, the thread before and after it, and
the threads it starts. -/
inductive Steps (t : ThreadId) (f : Flow) : Thread → Flow → Thread → List Thread → Prop where
  | passes {th th' f'} (moves : Passes f th th') (same : f.Same f') : Steps t f th f' th' []
  | enter {call} (free : f.gate = false) :
      Steps t f (.enter call) { f with gate := true } (.inspect call) []
  | leave {call result} :
      Steps t f (.leave call result) { f with gate := false } (call.returns result) []
  | dial {call old spare c rest} : Steps t f (.choose call old spare (c :: rest)) (f.dial c.proxy)
        (.install call old spare f.paths.length) []
  | dialLate {call old spare c rest} :
      Steps t f (.choose call old spare (c :: rest)) (f.dial c.proxy)
        (.discard call f.paths.length) []
  | install {call old spare next} (isOpen : f.closed = false) :
      Steps t f (.install call old spare next) { f with active := some next, reserve := none }
        (.closeOld call old f.reserve next) []
  | discard {call old spare next} (fresh : spare ≠ some next) :
      Steps t f (.install call old spare next) f (.discard call next) []
  | discarded {call next} :
      Steps t f (.discard call next) (f.closePath next) (.leave call .failed) []
  | closeOld {call old stale next} : Steps t f (.closeOld call old stale next) (f.closeOption old)
        (.closeStale call old stale next) []
  | closeStale {call old stale next} : Steps t f (.closeStale call old stale next)
        (if stale = some next then f else f.closeOption stale) (.leave call (.switched old))
        [.receiveWait next, .loopIdle next, .warmStart next]
  | warmDial {active options c rest} (other : f.named (some active) c.proxy.name = false) :
      Steps t f (.warmChoose active none options (c :: rest)) (f.dial c.proxy)
        (.warmSwap active none f.paths.length) []
  | warmReplace {active old options c rest} (other : f.named (some active) c.proxy.name = false) :
      Steps t f (.warmChoose active (some old) options (c :: rest)) (f.dial c.proxy)
        (.warmEnter active old f.paths.length) []
  | warmBusy {active old new} : Steps t f (.warmEnter active old new) f (.warmClose (some new)) []
  | warmEnter {active old new} (free : f.gate = false) :
      Steps t f (.warmEnter active old new) { f with gate := true }
        (.warmSwap active (some old) new) []
  | warmSwap {active old new}
      (current : f.active = some active) (isOpen : f.closed = false) (unchanged : f.reserve = old) :
      Steps t f (.warmSwap active old new) { f with reserve := some new }
        (.warmLeave old.isSome old) []
  | warmLate {active old new} :
      Steps t f (.warmSwap active old new) f (.warmLeave old.isSome (some new)) []
  | warmLeave {entered drop} :
      Steps t f (.warmLeave entered drop) (if entered then { f with gate := false } else f)
        (.warmClose drop) []
  | warmClose {drop} : Steps t f (.warmClose drop) (f.closeOption drop) .warmEnd []
  | failClear {path write} :
      Steps t f (.failClear path write)
        (if f.active = some path then { f with active := none } else f) (.failClose path write) []
  | failClose {path write} : Steps t f (.failClose path write) (f.closePath path) (failed write) []
  | close : Steps t f .closeStart { f with closed := true, active := none, reserve := none }
      (.closeRest (f.active.toList ++ f.reserve.toList)) []
  | closeNext {p rest} : Steps t f (.closeRest (p :: rest)) (f.closePath p) (.closeRest rest) []
  | hand {p datagram} :
      Steps t f (.loopCall p datagram) { f with handed := f.handed ++ [(datagram, p)] }
        (.loopReturn p datagram) []
  | deliver {p x} :
      Steps t f (.readReturn p x) { f with delivered := f.delivered ++ [(t, x, p)] } .done []

variable {t : ThreadId} {f f' : Flow} {th th' : Thread} {choice : Choice} {spawned : List Thread}

theorem Steps.quiet (moves : Passes f th th') : Steps t f th f th' [] :=
  .passes moves (Flow.Same.refl f)

theorem steps_quiet {th th' : Thread} (h : some (f, th', []) = some (f', th'', spawned))
    (moves : Passes f th th') : Steps t f th f' th'' spawned := by
  cases h
  exact .quiet moves

theorem dials_inv {call : Call} {old spare : Option PathId} {c : Candidate}
    {rest : List Candidate}
    (h : changeStep.dials f call old spare c rest choice = some (f', th', spawned)) :
    Steps t f (.choose call old spare (c :: rest)) f' th' spawned := by
  unfold changeStep.dials at h
  split at h <;> cases h
  · split
    · exact .dialLate
    · exact .dial
  · split
    · exact .quiet .chooseFailed
    · exact .quiet .chooseNext

theorem changeStep_inv (h : changeStep f th choice = some (f', th', spawned)) :
    Steps t f th f' th' spawned := by
  unfold changeStep at h
  split at h
  · split at h <;> cases h
    next hgate => exact .enter (Bool.eq_false_iff.mpr hgate)
  · exact steps_quiet h .enterStop
  · split at h
    · exact steps_quiet h .inspectFailed
    · split at h
      · exact steps_quiet h .inspectUnchanged
      · exact steps_quiet h .inspect
  · exact steps_quiet h .chooseFailed
  · split at h
    · split at h
      · exact steps_quiet h .chooseNext
      · cases h
    · split at h
      · split at h
        · split at h
          · exact steps_quiet h .chooseSpare
          · exact steps_quiet h .chooseFailed
          · cases h
        · exact dials_inv h
      · exact dials_inv h
  · split at h <;> cases h
    next hclosed =>
      split
      next hspare =>
        cases hspare
        exact .quiet .installLate
      next hspare => exact .discard hspare
    next hopen => exact .install (Bool.eq_false_iff.mpr hopen)
  · cases h
    exact .discarded
  · cases h
    exact .closeOld
  · cases h
    exact .closeStale
  · cases h
    exact .leave
  · cases h

theorem warmStep_inv (h : warmStep f th choice = some (f', th', spawned)) :
    Steps t f th f' th' spawned := by
  unfold warmStep at h
  split at h
  · split at h
    · exact steps_quiet h .warmRefuse
    · cases h
      exact .passes .warmStart ⟨⟨rfl, rfl, rfl, rfl⟩, rfl, rfl, rfl⟩
  · exact steps_quiet h .warmGiveUp
  · split at h
    · split at h
      · exact steps_quiet h .warmNext
      · cases h
    next hskip =>
      have hother := (Bool.or_eq_false_iff.mp (Bool.eq_false_iff.mpr hskip)).2
      split at h
      · split at h
        · exact steps_quiet h .warmGiveUp
        · cases h
      · split at h
        · cases h
          split
          · exact .warmReplace hother
          · exact .warmDial hother
        · exact steps_quiet h .warmNext
        · cases h
  · split at h <;> cases h
    · exact .warmBusy
    next hgate => exact .warmEnter (Bool.eq_false_iff.mpr hgate)
  · split at h <;> cases h
    next hswap => exact .warmSwap hswap.1 hswap.2.1 hswap.2.2
    · exact .warmLate
  · cases h
    exact .warmLeave
  · cases h
    exact .warmClose
  · cases h
    exact .passes .warmEnd ⟨⟨rfl, rfl, rfl, rfl⟩, rfl, rfl, rfl⟩
  · cases h

theorem endStep_inv (h : endStep f th choice = some (f', th', spawned)) :
    Steps t f th f' th' spawned := by
  unfold endStep at h
  split at h
  · split at h
    · exact steps_quiet h .failReturn
    · exact steps_quiet h .failEnter
  · cases h
    exact .failClear
  · cases h
    exact .failClose
  · cases h
    exact .close
  · exact steps_quiet h .closeDone
  · cases h
    exact .closeNext
  · split at h <;> cases h
    next hok =>
      rw [(Bool.and_eq_true_iff.mp hok).1]
      exact .passes .bound ⟨⟨rfl, rfl, rfl, rfl⟩, rfl, rfl, rfl⟩
    · exact .passes .boundLate ⟨⟨rfl, rfl, rfl, rfl⟩, rfl, rfl, rfl⟩
  · split at h <;> cases h
    split
    · exact .quiet .awaitReady
    · exact .quiet .awaitStop
  · exact steps_quiet h .awaitStop
  · cases h

theorem writeStep_inv (h : writeStep t f th choice = some (f', th', spawned)) :
    Steps t f th f' th' spawned := by
  unfold writeStep at h
  split at h
  · split at h <;> cases h
    exact .passes .writeLock ⟨⟨rfl, rfl, rfl, rfl⟩, rfl, rfl, rfl⟩
  · exact steps_quiet h .writeCheck
  · exact steps_quiet h .writeLate
  · cases h
    split
    · exact .quiet .reconnect
    · exact .quiet .writeLook
  · cases h
    split
    next p hactive =>
      split
      · exact .quiet .writeClosed
      · exact .quiet (.writePick hactive)
    · exact .quiet .writeClosed
  · split at h
    · exact steps_quiet h .offerStop
    · cases h
  · exact steps_quiet h .offerStop
  · split at h <;> cases h
    split
    · exact .quiet .waitFail
    · exact .quiet .waitReturn
  · split at h
    · exact steps_quiet h .waitReturn
    · cases h
  · exact steps_quiet h .waitReturn
  · cases h
    exact .passes .writeReturn ⟨⟨rfl, rfl, rfl, rfl⟩, rfl, rfl, rfl⟩
  · split at h
    · exact steps_quiet h .loopDone
    · cases h
  · cases h
    exact .hand
  · cases h
    exact .passes .loopNext ⟨⟨rfl, rfl, rfl, rfl⟩, rfl, rfl, rfl⟩
  · cases h

theorem readStep_inv (h : readStep t f th choice = some (f', th', spawned)) :
    Steps t f th f' th' spawned := by
  unfold readStep at h
  split at h
  · exact steps_quiet h .received
  · exact steps_quiet h .receiveFail
  · split at h
    · exact steps_quiet h .receiveDone
    · cases h
  · exact steps_quiet h .readStop
  · cases h
    split
    · exact .quiet .readDrop
    next hcheck =>
      obtain ⟨hopen, hactive⟩ := Bool.or_eq_false_iff.mp (Bool.eq_false_iff.mpr hcheck)
      exact .quiet (.readCheck (by simpa using hactive) hopen)
  · cases h
    exact .deliver
  · cases h

/-- The inversion of `step`. -/
theorem step_inv (h : step t f th choice = some (f', th', spawned)) :
    Steps t f th f' th' spawned := by
  unfold step at h
  split at h
  all_goals first
    | exact changeStep_inv h
    | exact warmStep_inv h
    | exact endStep_inv h
    | exact writeStep_inv h
    | exact readStep_inv h
    | cases h

end Thread

namespace State

/-- What an action does to the threads and the flow. -/
inductive Moves (s : State) : Action → State → Prop where
  | step {t choice th th' f' spawned}
      (at' : s.threads[t]? = some th) (steps : th.Steps t s.flow f' th' spawned) :
      Moves s (.step t choice) ⟨f', s.threads.set t th' ++ spawned⟩
  | hand {t u p} (offer : s.threads[t]? = some (.writeOffer p))
      (idle : s.threads[u]? = some (.loopIdle p)) :
      Moves s (.hand t u)
        { s with threads := (s.threads.set t (.writeWait p)).set u (.loopCall p t) }
  | pass {t u p x}
      (offer : s.threads[t]? = some (.receiveOffer p x)) (idle : s.threads[u]? = some .readWait) :
      Moves s (.pass t u)
        { s with threads := (s.threads.set t (.receiveWait p)).set u (.readCheck p x) }
  | cancel : Moves s .cancel { s with flow := { s.flow with cancelled := true } }
  | switch {name} : Moves s (.switch name) (s.spawn (.enter ⟨name, none, .switch⟩))
  | probe {name p} (active : s.flow.active = some p) :
      Moves s (.probe name) (s.spawn (.enter ⟨name, some p, .switch⟩))
  | warm {p} (active : s.flow.active = some p) : Moves s .warm (s.spawn (.warmStart p))
  | close : Moves s .close (s.spawn .closeStart)
  | write : Moves s .write (s.spawn .await)
  | read : Moves s .read (s.spawn .readWait)

/-- The inversion of `next`. -/
theorem next_inv {s s' : State} {a : Action} (h : s.next a = some s') : s.Moves a s' := by
  revert h
  fun_cases next s a with
  | case1 t choice th hth f' th' spawned hstep =>
    rintro ⟨⟩
    exact .step hth (Thread.step_inv hstep)
  | case4 t u p hidle hoffer =>
    rintro ⟨⟩
    exact .hand hoffer hidle
  | case7 t u p x hidle hoffer =>
    rintro ⟨⟩
    exact .pass hoffer hidle
  | case11 name p hactive =>
    rintro ⟨⟩
    exact .probe hactive
  | case13 p hactive =>
    rintro ⟨⟩
    exact .warm hactive
  | case9 | case10 | case15 | case16 | case17 =>
    rintro ⟨⟩
    constructor
  | _ => rintro ⟨⟩

end State

end AntiLag
