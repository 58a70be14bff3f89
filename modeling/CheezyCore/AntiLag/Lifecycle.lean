import CheezyCore.AntiLag.Steps

/-!
# The life of a path

A path is dialled by a thread, becomes the reserve or the active path of the flow, and is
gone once it is neither; it never comes back. A lifecycle gives each path its phase.
`Consistent` ties a lifecycle to a flow and its threads: the phases say what is active and
what is reserve, only paths that are gone are closed, and a path that is gone is closed or
in the hands of a thread that closes it next. `consistent_next` is the step lemma: every
action has a lifecycle that is consistent again and only goes on.
-/

namespace AntiLag

inductive Phase where
  | absent
  /-- Dialled by a thread that has not placed it yet. -/
  | dialled (t : ThreadId)
  | reserve
  | active
  | gone
  deriving DecidableEq, Repr

abbrev Lifecycle := PathId → Phase

/-- The path is active or was in the flow before. -/
def Lifecycle.Seen (phase : Lifecycle) (p : PathId) : Prop := phase p = .active ∨ phase p = .gone

namespace Thread

/-- The path the thread has dialled and not placed yet. -/
def dialled : Thread → Option PathId
  | .install _ _ spare next => if spare = some next then none else some next
  | .warmEnter _ _ new => some new
  | .warmSwap _ _ new => some new
  | _ => none

/-- The paths the thread has in hand and closes next. -/
def closing : Thread → List PathId
  | .discard _ next => [next]
  | .closeOld _ old stale next => old.toList ++ if stale = some next then [] else stale.toList
  | .closeStale _ _ stale next => if stale = some next then [] else stale.toList
  | .warmLeave _ drop | .warmClose drop => drop.toList
  | .failClose path _ => [path]
  | .closeRest paths => paths
  | _ => []

/-- The thread has the switch gate. -/
def entered : Thread → Bool
  | .inspect _ | .choose .. | .install .. | .discard .. | .closeOld .. | .closeStale ..
  | .leave .. => true
  | .warmSwap _ old _ => old.isSome
  | .warmLeave entered _ => entered
  | _ => false

end Thread

section Fits

variable (phase : Lifecycle) (f : Flow)

/-- What is known of the paths in a call of `change`. -/
structure CallFits (call : Call) : Prop where
  expected : ∀ p, call.expected = some p → phase.Seen p
  failure : ∀ p write, call.caller = .failure p write → phase.Seen p

/-- What is known to a `change` inside the gate: the active path, if there still is one, is
the one it found, and the reserve it may promote is the reserve unless the flow is closed. -/
structure ChangeFits (call : Call) (old spare : Option PathId) : Prop
    extends CallFits phase call where
  seen : ∀ p, old = some p → phase.Seen p
  current : ∀ p, f.active = some p → old = some p
  known : ∀ p, spare = some p → phase p ≠ .absent
  promotes : ∀ p, spare = some p → f.closed = true ∨ f.reserve = some p

/-- What is known of the paths a thread has in its variables. -/
def Fits (t : ThreadId) : Thread → Prop
  | .enter call | .inspect call => CallFits phase call
  | .choose call old spare _ => ChangeFits phase f call old spare
  | .install call old spare next =>
    ChangeFits phase f call old spare ∧ (spare ≠ some next → phase next = .dialled t)
  | .discard call next => CallFits phase call ∧ phase next = .gone
  | .closeOld call old stale next | .closeStale call old stale next =>
    CallFits phase call ∧ (∀ p, old = some p → phase p = .gone) ∧
      (∀ p, stale = some p → p ≠ next → phase p = .gone) ∧ phase.Seen next
  | .leave call result =>
    CallFits phase call ∧ ∀ p, result = .switched (some p) → phase p = .gone
  | .warmStart active | .warmChoose active _ _ _ => phase.Seen active
  | .warmEnter active _ new | .warmSwap active _ new =>
    phase.Seen active ∧ phase new = .dialled t ∧ f.name new ≠ f.name active
  | .warmLeave _ drop | .warmClose drop => ∀ p, drop = some p → phase p = .gone
  | .failStart path _ | .failClear path _ => phase.Seen path
  | .failClose path _ => phase path = .gone
  | .closeRest paths => ∀ p ∈ paths, phase p = .gone
  | .writeOffer p | .writeWait p | .loopIdle p | .loopCall p _ | .loopReturn p _
  | .receiveWait p | .receiveOffer p _ | .readCheck p _ | .readReturn p _ => phase.Seen p
  | _ => True

/-- The phases say what the flow has. -/
structure Placed : Prop where
  absent : ∀ p, phase p = .absent ↔ f.paths.length ≤ p
  active : ∀ p, f.active = some p ↔ phase p = .active
  reserve : ∀ p, f.reserve = some p ↔ phase p = .reserve
  retired : ∀ p, f.isRetired p = true → phase p = .gone
  closed : f.closed = true → f.active = none ∧ f.reserve = none
  names : ∀ a r, f.active = some a → f.reserve = some r → f.name a ≠ f.name r

structure Consistent (threads : List Thread) : Prop extends Placed phase f where
  gone : ∀ p, phase p = .gone →
    f.isRetired p = true ∨
      ∃ (t : ThreadId) (th : Thread), threads[t]? = some th ∧ p ∈ th.closing
  dialled : ∀ p (t : ThreadId), phase p = .dialled t →
    ∃ th : Thread, threads[t]? = some th ∧ th.dialled = some p
  fits : ∀ (t : ThreadId) (th : Thread), threads[t]? = some th → Fits phase f t th
  gate : ∀ (t : ThreadId) (th : Thread), threads[t]? = some th → th.entered = true → f.gate = true
  alone : ∀ (t : ThreadId) (th : Thread) (t' : ThreadId) (th' : Thread),
    threads[t]? = some th → threads[t']? = some th' →
    th.entered = true → th'.entered = true → t = t'

end Fits

/-- The phases only go on. -/
structure Grows (phase phase' : Lifecycle) : Prop where
  known : ∀ p, phase p ≠ .absent → phase' p ≠ .absent
  seen : ∀ p, phase.Seen p → phase'.Seen p
  gone : ∀ p, phase p = .gone → phase' p = .gone

theorem Grows.trans {phase phase' phase'' : Lifecycle} (h : Grows phase phase')
    (h' : Grows phase' phase'') : Grows phase phase'' where
  known p hp := h'.known p (h.known p hp)
  seen p hp := h'.seen p (h.seen p hp)
  gone p hp := h'.gone p (h.gone p hp)

/-- The phases only go on, and the paths of other threads stay theirs. -/
structure Evolves (t : ThreadId) (phase phase' : Lifecycle) : Prop
    extends Grows phase phase' where
  dialled : ∀ p u, u ≠ t → phase p = .dialled u → phase' p = .dialled u

/-- What a step of a thread leaves to the other threads. -/
structure Frame (t : ThreadId) (th : Thread) (phase phase' : Lifecycle) (f f' : Flow) : Prop
    extends Evolves t phase phase' where
  names : ∀ p, p < f.paths.length → f'.name p = f.name p
  closed : f.closed = true → f'.closed = true
  active : th.entered = false → ∀ p, f'.active = some p → f.active = some p
  reserve : th.entered = false → ∀ p, f.reserve = some p → f'.closed = true ∨ f'.reserve = some p
  retired : ∀ p, f.isRetired p = true → f'.isRetired p = true

section FrameRules

variable {phase phase' : Lifecycle} {f f' : Flow} {t u : ThreadId} {th th' : Thread} {call : Call}

theorem CallFits.grows (h : CallFits phase call) (grows : Grows phase phase') :
    CallFits phase' call where
  expected p hp := grows.seen p (h.expected p hp)
  failure p write hp := grows.seen p (h.failure p write hp)

section

variable {old spare : Option PathId} (h : ChangeFits phase f call old spare)
include h

theorem ChangeFits.grows (grows : Grows phase phase')
    (current : ∀ p, f'.active = some p → f.active = some p)
    (promotes : ∀ p, f.closed = true ∨ f.reserve = some p →
      f'.closed = true ∨ f'.reserve = some p) : ChangeFits phase' f' call old spare where
  toCallFits := h.toCallFits.grows grows
  seen p hp := grows.seen p (h.seen p hp)
  current p hp := h.current p (current p hp)
  known p hp := grows.known p (h.known p hp)
  promotes p hp := promotes p (h.promotes p hp)

theorem ChangeFits.frame (frame : Frame t th phase phase' f f') (outside : th.entered = false) :
    ChangeFits phase' f' call old spare := by
  apply h.grows frame.toGrows (frame.active outside)
  rintro p (hclosed | hreserve)
  · exact .inl (frame.closed hclosed)
  · exact frame.reserve outside p hreserve

end

theorem Placed.lt_of_seen (placed : Placed phase f) {p : PathId} (h : phase.Seen p) :
    p < f.paths.length := by
  by_contra hge
  have habsent := (placed.absent p).mpr (Nat.le_of_not_lt hge)
  obtain h | h := h
  · cases habsent.symm.trans h
  · cases habsent.symm.trans h

theorem Placed.lt_of_dialled (placed : Placed phase f) {p : PathId} (h : phase p = .dialled t) :
    p < f.paths.length := by
  by_contra hge
  cases ((placed.absent p).mpr (Nat.le_of_not_lt hge)).symm.trans h

/-- What a thread knows of its paths is not touched by a step of another one. -/
theorem Fits.frame (h : Fits phase f u th') (placed : Placed phase f)
    (frame : Frame t th phase phase' f f') (other : u ≠ t)
    (outside : th'.entered = true → th.entered = false) : Fits phase' f' u th' := by
  have evolves := frame.toEvolves
  cases th' with
  | enter call | inspect call => exact CallFits.grows h evolves.toGrows
  | choose call old spare options => exact ChangeFits.frame h frame (outside rfl)
  | install call old spare next =>
    exact ⟨h.1.frame frame (outside rfl), fun hne => evolves.dialled next u other (h.2 hne)⟩
  | discard call next => exact ⟨h.1.grows evolves.toGrows, evolves.gone next h.2⟩
  | closeOld call old stale next | closeStale call old stale next =>
    obtain ⟨hcall, hold, hstale, hnext⟩ := h
    exact ⟨hcall.grows evolves.toGrows, fun p hp => evolves.gone p (hold p hp),
      fun p hp hne => evolves.gone p (hstale p hp hne), evolves.seen next hnext⟩
  | leave call result =>
    exact ⟨h.1.grows evolves.toGrows, fun p hp => evolves.gone p (h.2 p hp)⟩
  | warmStart active | warmChoose active old options rest => exact evolves.seen active h
  | warmEnter active old new | warmSwap active old new =>
    obtain ⟨hactive, hnew, hname⟩ := h
    refine ⟨evolves.seen active hactive, evolves.dialled new u other hnew, ?_⟩
    rw [frame.names _ (placed.lt_of_seen hactive), frame.names _ (placed.lt_of_dialled hnew)]
    exact hname
  | warmLeave entered drop | warmClose drop
  | closeRest paths => exact fun p hp => evolves.gone p (h p hp)
  | failStart path write | failClear path write => exact evolves.seen path h
  | failClose path write => exact evolves.gone path h
  | writeOffer p | writeWait p | loopIdle p | loopCall p datagram | loopReturn p datagram
  | receiveWait p | receiveOffer p x | readCheck p x | readReturn p x => exact evolves.seen p h
  | _ => trivial

end FrameRules

section Threads

variable {phase phase' : Lifecycle} {f f' : Flow} {threads : List Thread} {t : ThreadId}
variable {th th' : Thread}

section Step

variable (h : Consistent phase f threads) (hth : threads[t]? = some th)
  (placed : Placed phase' f') (frame : Frame t th phase phase' f f') (fits : Fits phase' f' t th')
  (gone : ∀ p, phase' p = .gone →
    f'.isRetired p = true ∨ p ∈ th'.closing ∨ (phase p = .gone ∧ p ∉ th.closing))
  (dialled : ∀ p u, phase' p = .dialled u →
    (u ≠ t ∧ phase p = .dialled u) ∨ (u = t ∧ th'.dialled = some p))
include h hth placed frame fits gone dialled

/-- One thread makes a step: what has to be shown of the flow, of the thread and of the
gate, so that all is consistent again. -/
theorem Consistent.step
    (gate : th'.entered = true → f'.gate = true ∧ (th.entered = true ∨ f.gate = false))
    (keeps : f.gate = true → th.entered = false → f'.gate = true) :
    Consistent phase' f' (threads.set t th') := by
  have hlt : t < threads.length := Table.lt_length hth
  have hself : (threads.set t th')[t]? = some th' := List.getElem?_set_self hlt
  have hother : ∀ u, u ≠ t → (threads.set t th')[u]? = threads[u]? :=
    fun u hu => List.getElem?_set_ne (Ne.symm hu)
  have houtside : ∀ u thu, u ≠ t → threads[u]? = some thu → thu.entered = true →
      th.entered = false := by
    intro u thu hu hthu hentered
    by_contra hth'
    exact hu (h.alone u thu t th hthu hth hentered (by simpa using hth'))
  refine { toPlaced := placed, gone := ?_, dialled := ?_, fits := ?_, gate := ?_, alone := ?_ }
  · intro p hp
    obtain hretired | hclosing | ⟨hgone, hnot⟩ := gone p hp
    · exact .inl hretired
    · exact .inr ⟨t, th', hself, hclosing⟩
    · obtain hretired | ⟨u, thu, hthu, hclosing⟩ := h.gone p hgone
      · exact .inl (frame.retired p hretired)
      · have hu : u ≠ t := by
          rintro rfl
          cases hthu.symm.trans hth
          exact hnot hclosing
        exact .inr ⟨u, thu, (hother u hu).trans hthu, hclosing⟩
  · intro p u hp
    obtain ⟨hu, hp⟩ | ⟨rfl, hp⟩ := dialled p u hp
    · obtain ⟨thu, hthu, hdialled⟩ := h.dialled p u hp
      exact ⟨thu, (hother u hu).trans hthu, hdialled⟩
    · exact ⟨th', hself, hp⟩
  · intro u thu hthu
    obtain ⟨hu, hthu⟩ | ⟨rfl, rfl⟩ := Table.getElem?_set_cases hthu
    · exact (h.fits u thu hthu).frame h.toPlaced frame (Ne.symm hu)
        (houtside u thu (Ne.symm hu) hthu)
    · exact fits
  · intro u thu hthu hentered
    obtain ⟨hu, hthu⟩ | ⟨rfl, rfl⟩ := Table.getElem?_set_cases hthu
    · exact keeps (h.gate u thu hthu hentered) (houtside u thu (Ne.symm hu) hthu hentered)
    · exact (gate hentered).1
  · -- two threads at the gate: none of them is the one that just came
    have hcome : ∀ u thu, t ≠ u → threads[u]? = some thu → thu.entered = true →
        th'.entered = true → False := by
      intro u thu hu hthu hentered hentered'
      obtain hth' | hfree := (gate hentered').2
      · exact hu (h.alone t th u thu hth hthu hth' hentered)
      · cases hfree.symm.trans (h.gate u thu hthu hentered)
    intro u thu u' thu' hthu hthu' hentered hentered'
    obtain ⟨hu, hwas⟩ | ⟨rfl, rfl⟩ := Table.getElem?_set_cases hthu
    · obtain ⟨hu', hwas'⟩ | ⟨rfl, rfl⟩ := Table.getElem?_set_cases hthu'
      · exact h.alone u thu u' thu' hwas hwas' hentered hentered'
      · exact (hcome u thu hu hwas hentered hentered').elim
    · obtain ⟨hu', hwas'⟩ | ⟨rfl, rfl⟩ := Table.getElem?_set_cases hthu'
      · exact (hcome u' thu' hu' hwas' hentered' hentered).elim
      · rfl

/-- A thread that stays inside or outside the gate. -/
theorem Consistent.stay (hentered : th'.entered = th.entered) (hgate : f'.gate = f.gate) :
    Consistent phase' f' (threads.set t th') := by
  apply h.step hth placed frame fits gone dialled
  · intro hin
    rw [hentered] at hin
    exact ⟨hgate.trans (h.gate t th hth hin), .inl hin⟩
  · intro htaken _
    exact hgate.trans htaken

end Step

theorem Consistent.spawn (h : Consistent phase f threads)
    (fits : Fits phase f threads.length th) (outside : th.entered = false) :
    Consistent phase f (threads ++ [th]) := by
  have hkeep : ∀ (u : ThreadId) (thu : Thread), threads[u]? = some thu →
      (threads ++ [th])[u]? = some thu := by
    intro u thu hthu
    exact Table.getElem?_append hthu _
  refine { toPlaced := h.toPlaced, gone := ?_, dialled := ?_, fits := ?_, gate := ?_, alone := ?_ }
  · intro p hp
    obtain hretired | ⟨u, thu, hthu, hclosing⟩ := h.gone p hp
    · exact .inl hretired
    · exact .inr ⟨u, thu, hkeep u thu hthu, hclosing⟩
  · intro p u hp
    obtain ⟨thu, hthu, hdialled⟩ := h.dialled p u hp
    exact ⟨thu, hkeep u thu hthu, hdialled⟩
  · intro u thu hthu
    obtain hthu | ⟨rfl, rfl⟩ := Table.getElem?_concat_cases hthu
    · exact h.fits u thu hthu
    · exact fits
  · intro u thu hthu hentered
    obtain hthu | ⟨rfl, rfl⟩ := Table.getElem?_concat_cases hthu
    · exact h.gate u thu hthu hentered
    · cases outside.symm.trans hentered
  · intro u thu u' thu' hthu hthu' hentered hentered'
    obtain hthu | ⟨rfl, rfl⟩ := Table.getElem?_concat_cases hthu
    · obtain hthu' | ⟨rfl, rfl⟩ := Table.getElem?_concat_cases hthu'
      · exact h.alone u thu u' thu' hthu hthu' hentered hentered'
      · cases outside.symm.trans hentered'
    · cases outside.symm.trans hentered

end Threads

section Flows

/-! ### What happens to the phases -/

variable {phase phase' : Lifecycle} {f f' : Flow} {t : ThreadId} {th : Thread} {p : PathId}

theorem Evolves.refl (t : ThreadId) (phase : Lifecycle) : Evolves t phase phase :=
  ⟨⟨fun _ h => h, fun _ h => h, fun _ h => h⟩, fun _ _ _ h => h⟩

theorem Placed.keeps (h : Placed phase f) (keeps : f.Keeps f') : Placed phase f' where
  absent p := by rw [keeps.paths]; exact h.absent p
  active p := by rw [keeps.active]; exact h.active p
  reserve p := by rw [keeps.reserve]; exact h.reserve p
  retired p := by rw [Flow.isRetired, keeps.paths]; exact h.retired p
  closed := by rw [keeps.closed, keeps.active, keeps.reserve]; exact h.closed
  names := by
    rw [keeps.active, keeps.reserve]
    simp only [Flow.name, keeps.paths]
    exact h.names

theorem Frame.of_paths (evolves : Evolves t phase phase') (hpaths : f'.paths = f.paths)
    (closed : f.closed = true → f'.closed = true)
    (active : th.entered = false → ∀ p, f'.active = some p → f.active = some p)
    (reserve : th.entered = false → ∀ p, f.reserve = some p →
      f'.closed = true ∨ f'.reserve = some p) : Frame t th phase phase' f f' where
  toEvolves := evolves
  names p _ := by rw [Flow.name, hpaths, Flow.name]
  closed := closed
  active := active
  reserve := reserve
  retired p hp := by rw [Flow.isRetired, hpaths]; exact hp

theorem Frame.keeps (evolves : Evolves t phase phase') (keeps : f.Keeps f') :
    Frame t th phase phase' f f' :=
  .of_paths evolves keeps.paths (keeps.closed.trans)
    (fun _ _ h => keeps.active.symm.trans h) fun _ _ h => .inr (keeps.reserve.trans h)

theorem Fits.keeps (h : Fits phase f t th) (keeps : f.Keeps f') : Fits phase f' t th := by
  have hchange : ∀ call old spare, ChangeFits phase f call old spare →
      ChangeFits phase f' call old spare := by
    intro call old spare hchange
    apply hchange.grows (Evolves.refl t phase).toGrows
    · exact fun p hp => keeps.active.symm.trans hp
    · rw [keeps.closed, keeps.reserve]
      exact fun p hp => hp
  have hname : ∀ p, f'.name p = f.name p := fun p => by rw [Flow.name, keeps.paths, Flow.name]
  cases th with
  | choose call old spare options => exact hchange call old spare h
  | install call old spare next => exact ⟨hchange call old spare h.1, h.2⟩
  | warmEnter active old new | warmSwap active old new =>
    refine ⟨h.1, h.2.1, ?_⟩
    rw [hname, hname]
    exact h.2.2
  | _ => exact h

/-- The phases after the active and the reserve path have changed. -/
def Lifecycle.shift (phase : Lifecycle) (f' : Flow) : Lifecycle := fun p =>
  if f'.active = some p then .active
  else if f'.reserve = some p then .reserve
  else if phase p = .active ∨ phase p = .reserve then .gone
  else phase p

/-- What a thread may make the active and the reserve path: one that was it, or one it has
dialled, and for the active path also the reserve. -/
structure Shifts (t : ThreadId) (phase : Lifecycle) (f f' : Flow) : Prop where
  paths : f'.paths = f.paths
  active : ∀ p, f'.active = some p →
    phase p = .active ∨ phase p = .reserve ∨ phase p = .dialled t
  reserve : ∀ p, f'.reserve = some p → phase p = .reserve ∨ phase p = .dialled t
  distinct : ∀ p, f'.active = some p → f'.reserve ≠ some p
  closed : f'.closed = true → f'.active = none ∧ f'.reserve = none
  names : ∀ a r, f'.active = some a → f'.reserve = some r → f.name a ≠ f.name r

theorem shift_active (phase : Lifecycle) (f' : Flow) (p : PathId) :
    f'.active = some p ↔ phase.shift f' p = .active := by
  fun_cases Lifecycle.shift phase f' p with
  | case1 hactive => exact iff_of_true hactive rfl
  | case2 hactive | case3 hactive => exact iff_of_false hactive nofun
  | case4 hactive _ hnot => exact iff_of_false hactive fun h => hnot (.inl h)

theorem shift_reserve (shifts : Shifts t phase f f') (p : PathId) :
    f'.reserve = some p ↔ phase.shift f' p = .reserve := by
  fun_cases Lifecycle.shift phase f' p with
  | case1 hactive => exact iff_of_false (shifts.distinct p hactive) nofun
  | case2 _ hreserve => exact iff_of_true hreserve rfl
  | case3 _ hreserve => exact iff_of_false hreserve nofun
  | case4 _ hreserve hnot => exact iff_of_false hreserve fun h => hnot (.inr h)

/-- The phase of a path that is not in the flow afterwards. -/
theorem shift_out (hactive : f'.active ≠ some p) (hreserve : f'.reserve ≠ some p) :
    phase.shift f' p = if phase p = .active ∨ phase p = .reserve then .gone else phase p := by
  rw [Lifecycle.shift, if_neg hactive, if_neg hreserve]

theorem shift_known (hp : phase p ≠ .absent) : phase.shift f' p ≠ .absent := by
  fun_cases Lifecycle.shift phase f' p with
  | case4 => exact hp
  | _ => nofun

section

variable (shifts : Shifts t phase f f')
include shifts

/-- A path with another phase than those a thread may place keeps it. -/
theorem shift_keeps (hactive : phase p ≠ .active) (hreserve : phase p ≠ .reserve)
    (hdialled : phase p ≠ .dialled t) : phase.shift f' p = phase p := by
  rw [shift_out, if_neg]
  · rintro (h | h)
    · exact hactive h
    · exact hreserve h
  · intro h
    obtain h | h | h := shifts.active p h
    · exact hactive h
    · exact hreserve h
    · exact hdialled h
  · intro h
    obtain h | h := shifts.reserve p h
    · exact hreserve h
    · exact hdialled h

theorem Placed.shift (h : Placed phase f) : Placed (phase.shift f') f' where
  absent p := by
    rw [shifts.paths]
    constructor
    · intro hp
      by_contra hlt
      exact shift_known (fun habsent => hlt ((h.absent p).mp habsent)) hp
    · intro hp
      have habsent := (h.absent p).mpr hp
      rw [shift_keeps shifts] <;> simp [habsent]
  active := shift_active phase f'
  reserve := shift_reserve shifts
  retired p hp := by
    rw [Flow.isRetired, shifts.paths] at hp
    have hgone := h.retired p hp
    rw [shift_keeps shifts] <;> simp [hgone]
  closed := shifts.closed
  names := by
    simp only [Flow.name, shifts.paths]
    exact shifts.names

theorem Evolves.shift : Evolves t phase (phase.shift f') where
  known _ hp := shift_known hp
  seen p hp := by
    obtain hp | hp := hp
    · by_cases hactive : f'.active = some p
      · exact .inl ((shift_active phase f' p).mp hactive)
      · have hreserve : f'.reserve ≠ some p := by
          intro hreserve
          obtain h | h := shifts.reserve p hreserve
          · cases hp.symm.trans h
          · cases hp.symm.trans h
        exact .inr (by rw [shift_out hactive hreserve, if_pos (.inl hp)])
    · exact .inr (by rw [shift_keeps shifts] <;> simp [hp])
  gone p hp := by rw [shift_keeps shifts] <;> simp [hp]
  dialled p u hu hp := by rw [shift_keeps shifts] <;> simp [hp, hu]

end

/-- A path is gone after the change because it was before, or because the change took it
out of the flow. -/
theorem gone_of_shift (h : Placed phase f) (hp : phase.shift f' p = .gone) :
    phase p = .gone ∨ ((f.active = some p ∨ f.reserve = some p) ∧
      f'.active ≠ some p ∧ f'.reserve ≠ some p) := by
  revert hp
  fun_cases Lifecycle.shift phase f' p with
  | case1 | case2 => nofun
  | case3 hactive hreserve hwas =>
    exact fun _ => .inr ⟨hwas.imp (h.active p).mpr (h.reserve p).mpr, hactive, hreserve⟩
  | case4 => exact .inl

/-- A path that is still in the hands of the thread that dialled it was so before. -/
theorem dialled_of_shift (hp : phase.shift f' p = .dialled t) :
    phase p = .dialled t ∧ f'.active ≠ some p ∧ f'.reserve ≠ some p := by
  revert hp
  fun_cases Lifecycle.shift phase f' p with
  | case1 | case2 | case3 => nofun
  | case4 hactive hreserve => exact fun hp => ⟨hp, hactive, hreserve⟩

end Flows

end AntiLag
