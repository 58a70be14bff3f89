import CheezyCore.AntiLag.Lifecycle

/-!
# The lifecycle goes on with every step

The step lemma of `Consistent`, one rule for each way in which a thread can change what a
flow owns: a step that leaves it alone, the closing of a path in hand, a path that was
dialled or given up, and a change of the active or the reserve path. `consistent_next` puts
them together for every action and `advances_run` for every run.
-/

namespace AntiLag

variable {member : Proxy}

namespace Flow

variable {f : Flow} {p q : PathId}

@[simp] theorem length_closePath (f : Flow) (p : PathId) :
    (f.closePath p).paths.length = f.paths.length := List.length_modify ..

theorem name_closePath (f : Flow) (p q : PathId) : (f.closePath p).name q = f.name q := by
  unfold name closePath
  rw [List.getElem?_modify]
  cases f.paths[q]? with
  | none => rfl
  | some path =>
    split <;> rfl

theorem isRetired_closePath : (f.closePath p).isRetired q = true ↔
    f.isRetired q = true ∨ (q = p ∧ p < f.paths.length) := by
  unfold isRetired closePath
  rw [List.getElem?_modify]
  by_cases hq : p = q
  · subst hq
    cases hpath : f.paths[p]? with
    | none =>
      have hle := List.getElem?_eq_none_iff.mp hpath
      simp [Nat.not_lt.mpr hle]
    | some path =>
      have hlt := Table.lt_length hpath
      simp [hlt]
  · have hne : ¬ q = p := fun h => hq h.symm
    cases f.paths[q]? <;> simp [hq, hne]

theorem name_dial (h : p < f.paths.length) : (f.dial member).name p = f.name p := by
  rw [name, dial, List.getElem?_append_left h, name]

theorem name_dial_self (f : Flow) (member : Proxy) :
    (f.dial member).name f.paths.length = some member.name := by
  simp [name, dial]

theorem isRetired_dial (f : Flow) (member : Proxy) (p : PathId) :
    (f.dial member).isRetired p = f.isRetired p := by
  unfold isRetired dial
  rcases Nat.lt_or_ge p f.paths.length with hlt | hge
  · rw [List.getElem?_append_left hlt]
  · rw [List.getElem?_append_right hge, List.getElem?_eq_none hge]
    cases p - f.paths.length <;> rfl

end Flow

variable {q : PathId} {x : Phase}

section Rules

variable {phase phase' : Lifecycle} {f f' : Flow} {threads : List Thread} {t : ThreadId}
variable {th th' : Thread} {p : PathId}

theorem fits_returns {call : Call} (h : CallFits phase call) (result : Changed) :
    Fits phase f t (call.returns result) := by
  fun_cases Call.returns call result with
  | case5 path write hcaller =>
    cases write <;> trivial
  | case6 path write hcaller => exact h.failure path write hcaller
  | _ => trivial

theorem entered_returns (call : Call) (result : Changed) :
    (call.returns result).entered = false := by
  fun_cases Call.returns call result with
  | case5 path write =>
    cases write <;> rfl
  | _ => rfl

/-- A thread that has no path in hand. -/
def Thread.Empty (th : Thread) : Prop := th.closing = [] ∧ th.dialled = none

theorem empty_returns (call : Call) (result : Changed) : (call.returns result).Empty := by
  fun_cases Call.returns call result with
  | case5 path write =>
    cases write <;> exact ⟨rfl, rfl⟩
  | _ => exact ⟨rfl, rfl⟩

theorem empty_failed (write : Bool) : (Thread.failed write).Empty := by
  cases write <;> exact ⟨rfl, rfl⟩

/-- A thread that only moves on has no path in hand, before and after. -/
theorem Thread.Passes.empty (h : Thread.Passes f th th') : th.Empty ∧ th'.Empty := by
  cases h with
  | enterStop => exact ⟨⟨rfl, rfl⟩, empty_returns _ _⟩
  | chooseSpare => exact ⟨⟨rfl, rfl⟩, rfl, if_pos rfl⟩
  | installLate => exact ⟨⟨rfl, if_pos rfl⟩, rfl, rfl⟩
  | failReturn => exact ⟨⟨rfl, rfl⟩, empty_failed _⟩
  | bound =>
    refine ⟨⟨rfl, rfl⟩, ?_⟩
    split <;> exact ⟨rfl, rfl⟩
  | _ => exact ⟨⟨rfl, rfl⟩, rfl, rfl⟩

theorem Thread.Passes.entered (h : Thread.Passes f th th') : th'.entered = th.entered := by
  cases h with
  | enterStop => exact entered_returns _ _
  | failReturn =>
    unfold Thread.failed
    split <;> rfl
  | bound => split <;> rfl
  | _ => rfl

theorem Thread.Passes.fits (moves : Thread.Passes f th th') (placed : Placed phase f)
    (h : Fits phase f t th) : Fits phase f t th' := by
  have hactive : ∀ p, f.active = some p → phase.Seen p :=
    fun p hp => .inl ((placed.active p).mp hp)
  cases moves with
  | enterStop => exact fits_returns h _
  | inspectFailed | inspectUnchanged => exact ⟨h, fun p hp => by cases hp⟩
  | inspect =>
    refine ⟨h, hactive, fun p hp => hp, fun p hp => ?_, fun p hp => .inr hp⟩
    simp [(placed.reserve p).mp hp]
  | chooseFailed => exact ⟨h.toCallFits, fun p hp => by cases hp⟩
  | chooseNext | warmStart | warmNext | waitFail | loopNext | received | receiveFail
  | readCheck => exact h
  | chooseSpare => exact ⟨h, absurd rfl⟩
  | installLate => exact ⟨h.1.toCallFits, fun p hp => by cases hp⟩
  | failReturn =>
    unfold Thread.failed
    split <;> trivial
  | failEnter =>
    refine ⟨fun p hp => ?_, fun p write hp => ?_⟩
    · cases hp
      exact h
    · cases hp
      exact h
  | bound => split <;> trivial
  | reconnect => exact ⟨(fun p hp => by cases hp), (fun p write hp => by cases hp)⟩
  | writePick hp => exact hactive _ hp
  | _ => trivial

section

variable (h : Consistent phase f threads) (hth : threads[t]? = some th)
include h hth

/-- A path that a thread has dialled is its own. -/
theorem Consistent.dialled_self (hp : phase p = .dialled t) : th.dialled = some p := by
  obtain ⟨thu, hthu, hmine⟩ := h.dialled p t hp
  cases hthu.symm.trans hth
  exact hmine

/-- A step that neither places a path nor closes one. -/
theorem Consistent.quiet (keeps : f.Keeps f') (fits : Fits phase f t th')
    (hclosing : ∀ p, p ∈ th.closing → p ∈ th'.closing) (hdialled : th'.dialled = th.dialled)
    (gate : th'.entered = true → f'.gate = true ∧ (th.entered = true ∨ f.gate = false))
    (stays : f.gate = true → th.entered = false → f'.gate = true) :
    Consistent phase f' (threads.set t th') := by
  apply h.step hth (h.toPlaced.keeps keeps) (.keeps (.refl t phase) keeps) (fits.keeps keeps)
    _ _ gate stays
  · intro p hp
    by_cases hmem : p ∈ th.closing
    · exact .inr (.inl (hclosing p hmem))
    · exact .inr (.inr ⟨hp, hmem⟩)
  · intro p u hp
    by_cases hu : u = t
    · subst hu
      exact .inr ⟨rfl, hdialled.trans (h.dialled_self hth hp)⟩
    · exact .inl ⟨hu, hp⟩

end

theorem Placed.closePath (h : Placed phase f) (hq : phase q = .gone) :
    Placed phase (f.closePath q) where
  __ := h
  absent p := by rw [Flow.length_closePath]; exact h.absent p
  retired p hp := by
    obtain hp | ⟨rfl, -⟩ := Flow.isRetired_closePath.mp hp
    · exact h.retired p hp
    · exact hq
  names a r ha hr := by
    rw [Flow.name_closePath, Flow.name_closePath]
    exact h.names a r ha hr

theorem Frame.closePath (q : PathId) : Frame t th phase phase f (f.closePath q) where
  toEvolves := .refl t phase
  names p _ := Flow.name_closePath f q p
  closed h := h
  active _ _ h := h
  reserve _ _ h := .inr h
  retired _ hp := Flow.isRetired_closePath.mpr (.inl hp)

/-- A thread closes a path it has in hand, or moves on if there is none. -/
theorem Consistent.closes (h : Consistent phase f threads) (hth : threads[t]? = some th)
    (drop : Option PathId) (hdrop : th.closing = drop.toList ++ th'.closing)
    (hempty : th.dialled = none) (hentered : th'.entered = th.entered)
    (hgone : ∀ p, drop = some p → phase p = .gone) (fits : Fits phase (f.closeOption drop) t th') :
    Consistent phase (f.closeOption drop) (threads.set t th') := by
  have hother : ∀ p u, phase p = .dialled u →
      (u ≠ t ∧ phase p = .dialled u) ∨ (u = t ∧ th'.dialled = some p) := by
    intro p u hp
    refine .inl ⟨?_, hp⟩
    rintro rfl
    cases hempty.symm.trans (h.dialled_self hth hp)
  cases drop with
  | none =>
    apply h.stay hth h.toPlaced (.keeps (.refl t phase) (.refl f)) fits _ hother hentered rfl
    intro p hp
    by_cases hmem : p ∈ th.closing
    · rw [hdrop] at hmem
      exact .inr (.inl hmem)
    · exact .inr (.inr ⟨hp, hmem⟩)
  | some q =>
    have hq := hgone q rfl
    apply h.stay hth (h.toPlaced.closePath hq) (.closePath q) fits _ hother hentered rfl
    intro p hp
    by_cases hmem : p ∈ th.closing
    · rw [hdrop] at hmem
      obtain rfl | hmem := List.mem_cons.mp hmem
      · exact .inl (Flow.isRetired_closePath.mpr
          (.inr ⟨rfl, h.toPlaced.lt_of_seen (.inr hq)⟩))
      · exact .inr (.inl hmem)
    · exact .inr (.inr ⟨hp, hmem⟩)

/-- A new phase for a path that no other thread knows of. -/
theorem Evolves.update (hq : phase q = .absent ∨ phase q = .dialled t)
    (hx : x = .dialled t ∨ x = .gone) : Evolves t phase (Function.update phase q x) := by
  have hne : ∀ p, phase p ≠ .absent → phase p ≠ .dialled t →
      Function.update phase q x p = phase p := by
    intro p habsent hdialled
    rw [Function.update_of_ne]
    rintro rfl
    obtain hq | hq := hq
    · exact habsent hq
    · exact hdialled hq
  refine ⟨⟨?_, ?_, ?_⟩, ?_⟩
  · intro p hp
    by_cases hpq : p = q
    · rw [hpq]
      obtain rfl | rfl := hx <;> simp
    · rw [Function.update_of_ne hpq]
      exact hp
  · intro p hp
    obtain hp | hp := hp
    · exact .inl (by rw [hne p] <;> simp [hp])
    · exact .inr (by rw [hne p] <;> simp [hp])
  · intro p hp
    rw [hne p] <;> simp [hp]
  · intro p u hu hp
    rw [hne p] <;> simp [hp, hu]

/-- The flow may have one more path, the given one. -/
structure Marks (q : PathId) (f f' : Flow) : Prop where
  closed : f'.closed = f.closed
  active : f'.active = f.active
  reserve : f'.reserve = f.reserve
  gate : f'.gate = f.gate
  absent : ∀ p, f'.paths.length ≤ p ↔ f.paths.length ≤ p ∧ p ≠ q
  names : ∀ p, p < f.paths.length → f'.name p = f.name p
  retired : ∀ p, f'.isRetired p = f.isRetired p

theorem Marks.dial (f : Flow) (member : Proxy) : Marks f.paths.length f (f.dial member) where
  closed := rfl
  active := rfl
  reserve := rfl
  gate := rfl
  absent p := by
    simp only [Flow.dial, List.length_append, List.length_singleton]
    omega
  names _ hp := Flow.name_dial hp
  retired p := Flow.isRetired_dial f member p

theorem Marks.refl (hq : q < f.paths.length) : Marks q f f where
  closed := rfl
  active := rfl
  reserve := rfl
  gate := rfl
  absent p := by
    refine ⟨fun hle => ⟨hle, ?_⟩, And.left⟩
    rintro rfl
    exact Nat.not_lt.mpr hle hq
  names _ _ := rfl
  retired _ := rfl

theorem Placed.marks (h : Placed phase f) (marks : Marks q f f')
    (hq : phase q = .absent ∨ phase q = .dialled t) (hx : x = .dialled t ∨ x = .gone) :
    Placed (Function.update phase q x) f' := by
  have hnot : x ≠ .absent ∧ x ≠ .active ∧ x ≠ .reserve := by
    obtain rfl | rfl := hx
    · exact ⟨by simp, by simp, by simp⟩
    · exact ⟨by simp, by simp, by simp⟩
  have hout : phase q ≠ .active ∧ phase q ≠ .reserve ∧ phase q ≠ .gone := by
    obtain hq | hq := hq
    · simp [hq]
    · simp [hq]
  have hlt : ∀ p, phase p ≠ .absent → p < f.paths.length :=
    fun p hp => Nat.lt_of_not_le fun hle => hp ((h.absent p).mpr hle)
  refine { absent := ?_, active := ?_, reserve := ?_, retired := ?_, closed := ?_, names := ?_ }
  · intro p
    rw [marks.absent]
    by_cases hp : p = q
    · subst hp
      rw [Function.update_self]
      exact ⟨fun hxa => absurd hxa hnot.1, fun hle => absurd rfl hle.2⟩
    · rw [Function.update_of_ne hp, h.absent]
      exact ⟨fun hle => ⟨hle, hp⟩, And.left⟩
  · intro p
    rw [marks.active, h.active]
    by_cases hp : p = q
    · subst hp
      rw [Function.update_self]
      exact ⟨fun hp => absurd hp hout.1, fun hp => absurd hp hnot.2.1⟩
    · rw [Function.update_of_ne hp]
  · intro p
    rw [marks.reserve, h.reserve]
    by_cases hp : p = q
    · subst hp
      rw [Function.update_self]
      exact ⟨fun hp => absurd hp hout.2.1, fun hp => absurd hp hnot.2.2⟩
    · rw [Function.update_of_ne hp]
  · intro p hp
    rw [marks.retired] at hp
    have hgone := h.retired p hp
    rw [Function.update_of_ne]
    · exact hgone
    · rintro rfl
      exact hout.2.2 hgone
  · rw [marks.closed, marks.active, marks.reserve]
    exact h.closed
  · intro a r ha hr
    rw [marks.active] at ha
    rw [marks.reserve] at hr
    rw [marks.names a (hlt a (by simp [(h.active a).mp ha])),
      marks.names r (hlt r (by simp [(h.reserve r).mp hr]))]
    exact h.names a r ha hr

section

variable (h : Consistent phase f threads)
include h

/-- A thread dials a path, or gives up one it has dialled. -/
theorem Consistent.marks (hth : threads[t]? = some th) (marks : Marks q f f')
    (hq : phase q = .absent ∨ phase q = .dialled t)
    (hx : (x = .dialled t ∧ th'.dialled = some q) ∨ (x = .gone ∧ q ∈ th'.closing))
    (hclosing : th.closing = []) (hdialled : ∀ p, th.dialled = some p → p = q)
    (hentered : th'.entered = th.entered) (fits : Fits (Function.update phase q x) f' t th') :
    Consistent (Function.update phase q x) f' (threads.set t th') := by
  have frame : Frame t th phase (Function.update phase q x) f f' :=
    { toEvolves := .update hq (hx.imp And.left And.left)
      names := marks.names
      closed := marks.closed.trans
      active := fun _ p hp => marks.active.symm.trans hp
      reserve := fun _ p hp => .inr (marks.reserve.trans hp)
      retired := fun p hp => (marks.retired p).trans hp }
  apply h.stay hth (h.toPlaced.marks marks hq (hx.imp And.left And.left)) frame fits
    _ _ hentered marks.gate
  · intro p hp
    by_cases hpq : p = q
    · subst hpq
      rw [Function.update_self] at hp
      obtain ⟨hx, -⟩ | ⟨-, hmem⟩ := hx
      · cases hx.symm.trans hp
      · exact .inr (.inl hmem)
    · rw [Function.update_of_ne hpq] at hp
      exact .inr (.inr ⟨hp, by simp [hclosing]⟩)
  · intro p u hp
    by_cases hpq : p = q
    · subst hpq
      rw [Function.update_self] at hp
      obtain ⟨hx, hmine⟩ | ⟨hx, -⟩ := hx
      · cases hx.symm.trans hp
        exact .inr ⟨rfl, hmine⟩
      · cases hx.symm.trans hp
    · rw [Function.update_of_ne hpq] at hp
      refine .inl ⟨?_, hp⟩
      rintro rfl
      exact hpq (hdialled p (h.dialled_self hth hp))

/-- A thread changes the active or the reserve path. -/
theorem Consistent.shifts (hth : threads[t]? = some th) (shifts : Shifts t phase f f')
    (hclosing : th.closing = [])
    (hplaces : ∀ p, th.dialled = some p → f'.active = some p ∨ f'.reserve = some p)
    (htaken : ∀ p, f.active = some p ∨ f.reserve = some p →
      f'.active ≠ some p → f'.reserve ≠ some p → p ∈ th'.closing)
    (hclosed : f.closed = true → f'.closed = true)
    (hactive : th.entered = false → ∀ p, f'.active = some p → f.active = some p)
    (hreserve : th.entered = false → ∀ p, f.reserve = some p →
      f'.closed = true ∨ f'.reserve = some p) (hentered : th'.entered = th.entered)
    (hgate : f'.gate = f.gate) (fits : Fits (phase.shift f') f' t th') :
    Consistent (phase.shift f') f' (threads.set t th') := by
  apply h.stay hth (h.toPlaced.shift shifts)
    (.of_paths (.shift shifts) shifts.paths hclosed hactive hreserve) fits _ _ hentered hgate
  · intro p hp
    obtain hgone | ⟨hwas, hout, hout'⟩ := gone_of_shift h.toPlaced hp
    · exact .inr (.inr ⟨hgone, by simp [hclosing]⟩)
    · exact .inr (.inl (htaken p hwas hout hout'))
  · intro p u hp
    obtain ⟨hwas, hout, hout'⟩ := dialled_of_shift hp
    refine .inl ⟨?_, hwas⟩
    rintro rfl
    obtain hin | hin := hplaces p (h.dialled_self hth hwas)
    · exact hout hin
    · exact hout' hin

theorem Consistent.spawnAll {spawned : List Thread} (fits : ∀ th ∈ spawned, ∀ u, Fits phase f u th)
    (outside : ∀ th ∈ spawned, th.entered = false) : Consistent phase f (threads ++ spawned) := by
  induction spawned generalizing threads with
  | nil =>
    rw [List.append_nil]
    exact h
  | cons th rest ih =>
    rw [List.append_cons]
    apply ih
    · exact h.spawn (fits th List.mem_cons_self _) (outside th List.mem_cons_self)
    · exact fun th' hmem => fits th' (List.mem_cons_of_mem th hmem)
    · exact fun th' hmem => outside th' (List.mem_cons_of_mem th hmem)

end

end Rules

section Steps

variable {phase : Lifecycle} {f f' : Flow} {threads : List Thread} {t : ThreadId}
variable {th th' : Thread} {spawned : List Thread}

/-- There are phases for the flow and the threads, and they only went on. -/
def Advances (phase : Lifecycle) (f : Flow) (threads : List Thread) : Prop :=
  ∃ phase', Consistent phase' f threads ∧ Grows phase phase'

theorem Consistent.advances (h : Consistent phase f threads) : Advances phase f threads :=
  ⟨phase, h, (Evolves.refl 0 phase).toGrows⟩

theorem advances_shift (shifts : Shifts t phase f f')
    (h : Consistent (phase.shift f') f' threads) : Advances phase f' threads :=
  ⟨_, h, (Evolves.shift shifts).toGrows⟩

section

variable (h : Consistent phase f threads)
include h

/-- A thread dials a path. -/
theorem advances_dial (hth : threads[t]? = some th) (hempty : th.Empty)
    (hx : (x = .dialled t ∧ th'.dialled = some f.paths.length) ∨
      (x = .gone ∧ f.paths.length ∈ th'.closing)) (hentered : th'.entered = th.entered)
    (fits : ∀ phase', Grows phase phase' → phase' f.paths.length = x →
      Fits phase' (f.dial member) t th') : Advances phase (f.dial member) (threads.set t th') := by
  have hq : phase f.paths.length = .absent ∨ phase f.paths.length = .dialled t :=
    .inl ((h.absent f.paths.length).mpr le_rfl)
  have evolves : Evolves t phase (Function.update phase f.paths.length x) :=
    .update hq (hx.imp And.left And.left)
  refine ⟨_, h.marks hth (.dial f member) hq hx hempty.1 ?_ hentered ?_, evolves.toGrows⟩
  · intro p hp
    cases hempty.2.symm.trans hp
  · exact fits _ evolves.toGrows (Function.update_self ..)

/-- A thread gives up the path it has dialled and closes it next. -/
theorem advances_drop (hth : threads[t]? = some th) (hq : phase q = .dialled t)
    (hmine : th.dialled = some q) (hempty : th.closing = []) (hclosing : q ∈ th'.closing)
    (hentered : th'.entered = th.entered)
    (fits : ∀ phase', Grows phase phase' → phase' q = .gone → Fits phase' f t th') :
    Advances phase f (threads.set t th') := by
  have evolves : Evolves t phase (Function.update phase q .gone) := .update (.inr hq) (.inr rfl)
  refine ⟨_, h.marks hth (.refl (h.lt_of_dialled hq)) (.inr hq) (.inr ⟨rfl, hclosing⟩) hempty
    ?_ hentered ?_, evolves.toGrows⟩
  · intro p hp
    cases hmine.symm.trans hp
    rfl
  · exact fits _ evolves.toGrows (Function.update_self ..)

/-- A `change` makes the path it chose the active one. -/
theorem advances_install {call : Call} {old spare : Option PathId} {next : PathId}
    (hth : threads[t]? = some (.install call old spare next)) (isOpen : f.closed = false) :
    Advances phase { f with active := some next, reserve := none }
      (threads.set t (.closeOld call old f.reserve next)) := by
  obtain ⟨hchange, hdialled⟩ := h.fits t _ hth
  have hnext : phase next = .reserve ∨ phase next = .dialled t := by
    by_cases hspare : spare = some next
    · obtain hclosed | hreserve := hchange.promotes next hspare
      · cases isOpen.symm.trans hclosed
      · exact .inl ((h.reserve next).mp hreserve)
    · exact .inr (hdialled hspare)
  have hnew : ∀ p, phase p = .active → some next ≠ some p := by
    rintro p hp ⟨⟩
    rw [hp] at hnext
    obtain h | h := hnext <;> cases h
  have shifts : Shifts t phase f { f with active := some next, reserve := none } :=
    { paths := rfl
      active := by
        rintro p ⟨⟩
        exact .inr hnext
      reserve := fun p hp => by cases hp
      distinct := fun p _ hp => by cases hp
      closed := fun hclosed => by cases isOpen.symm.trans hclosed
      names := fun a r _ hr => by cases hr }
  have evolves := Evolves.shift shifts
  refine advances_shift shifts (h.shifts hth shifts rfl ?_ ?_ (fun hp => hp) ?_ ?_ rfl rfl ?_)
  · intro p hp
    simp only [Thread.dialled] at hp
    split at hp
    · cases hp
    · exact .inl hp
  · -- the active path is the one that was found, and the reserve is at hand
    intro p hp hout _
    simp only [Thread.closing, List.mem_append]
    obtain hp | hp := hp
    · exact .inl (by simp [hchange.current p hp])
    · refine .inr ?_
      rw [if_neg fun hr => hout (hr.symm.trans hp), hp]
      exact List.mem_singleton_self p
  · rintro ⟨⟩
  · rintro ⟨⟩
  · refine ⟨hchange.toCallFits.grows evolves.toGrows, ?_, ?_, .inl (if_pos rfl)⟩
    · intro p hp
      obtain hactive | hgone := hchange.seen p hp
      · rw [shift_out (hnew p hactive) (by simp), if_pos (.inl hactive)]
      · exact evolves.gone p hgone
    · intro p hp hne
      rw [shift_out (fun hnext => hne (Option.some.inj hnext).symm) (by simp),
        if_pos (.inr ((h.reserve p).mp hp))]

/-- `warm` makes the path it dialled the reserve. -/
theorem advances_warmSwap {active : PathId} {old : Option PathId} {new : PathId}
    (hth : threads[t]? = some (.warmSwap active old new)) (current : f.active = some active)
    (isOpen : f.closed = false) (unchanged : f.reserve = old) :
    Advances phase { f with reserve := some new }
      (threads.set t (.warmLeave old.isSome old)) := by
  obtain ⟨hactive, hdialled, hname⟩ := h.fits t _ hth
  have shifts : Shifts t phase f { f with reserve := some new } :=
    { paths := rfl
      active := fun p hp => .inl ((h.active p).mp hp)
      reserve := by
        rintro p ⟨⟩
        exact .inr hdialled
      distinct := by
        rintro p hp ⟨⟩
        cases hdialled.symm.trans ((h.active new).mp hp)
      closed := fun hclosed => by cases isOpen.symm.trans hclosed
      names := by
        rintro a r ha ⟨⟩
        cases current.symm.trans ha
        exact hname.symm }
  have hout : ∀ p, f.reserve = some p → some new ≠ some p := by
    rintro p hp ⟨⟩
    cases hdialled.symm.trans ((h.reserve new).mp hp)
  refine advances_shift shifts (h.shifts hth shifts rfl ?_ ?_ (fun hp => hp) ?_ ?_ rfl rfl ?_)
  · rintro p ⟨⟩
    exact .inr rfl
  · intro p hp hout _
    obtain hp | hp := hp
    · exact absurd hp hout
    · rw [unchanged] at hp
      exact Option.mem_toList.mpr hp
  · exact fun _ p hp => hp
  · -- outside the gate there was no reserve
    intro hentered p hp
    rw [unchanged] at hp
    rw [hp] at hentered
    cases hentered
  · intro p hp
    have hreserve := unchanged.trans hp
    have hphase := (h.reserve p).mp hreserve
    rw [shift_out _ (hout p hreserve), if_pos (.inr hphase)]
    intro hp
    cases hphase.symm.trans ((h.active p).mp hp)

/-- `fail` takes a path out of the flow, if it is the active one. -/
theorem advances_failClear {path : PathId} {write : Bool}
    (hth : threads[t]? = some (.failClear path write)) :
    Advances phase (if f.active = some path then { f with active := none } else f)
      (threads.set t (.failClose path write)) := by
  have hseen : phase.Seen path := h.fits t _ hth
  split
  next hactive =>
    have shifts : Shifts t phase f { f with active := none } :=
      { paths := rfl
        active := fun p hp => by cases hp
        reserve := fun p hp => .inl ((h.reserve p).mp hp)
        distinct := fun p hp => by cases hp
        closed := fun hclosed => ⟨rfl, (h.closed hclosed).2⟩
        names := fun a r ha => by cases ha }
    refine advances_shift shifts (h.shifts hth shifts rfl ?_ ?_ (fun hp => hp) ?_ ?_ rfl rfl ?_)
    · rintro p ⟨⟩
    · intro p hp _ hout
      obtain hp | hp := hp
      · cases hactive.symm.trans hp
        exact List.mem_singleton_self path
      · exact absurd hp hout
    · rintro _ p ⟨⟩
    · exact fun _ p hp => .inr hp
    · have hphase := (h.active path).mp hactive
      have hreserve : f.reserve ≠ some path := by
        intro hp
        cases hphase.symm.trans ((h.reserve path).mp hp)
      have hout : ({ f with active := none } : Flow).active ≠ some path := by rintro ⟨⟩
      exact (shift_out hout hreserve).trans (if_pos (.inl hphase))
  next hactive =>
    have hgone : phase path = .gone := hseen.resolve_left fun hp => hactive ((h.active path).mpr hp)
    have hfits : Fits phase f t (.failClose path write) := hgone
    refine (h.quiet hth (.refl f) hfits ?_ rfl ?_ fun hgate _ => hgate).advances
    · rintro p ⟨⟩
    · rintro ⟨⟩

/-- `close` takes the active and the reserve path out of the flow. -/
theorem advances_close (hth : threads[t]? = some .closeStart) :
    Advances phase { f with closed := true, active := none, reserve := none }
      (threads.set t (.closeRest (f.active.toList ++ f.reserve.toList))) := by
  have shifts : Shifts t phase f { f with closed := true, active := none, reserve := none } :=
    { paths := rfl
      active := fun p hp => by cases hp
      reserve := fun p hp => by cases hp
      distinct := fun p hp => by cases hp
      closed := fun _ => ⟨rfl, rfl⟩
      names := fun a r ha => by cases ha }
  have hmem : ∀ p, p ∈ f.active.toList ++ f.reserve.toList ↔
      f.active = some p ∨ f.reserve = some p := by
    intro p
    rw [List.mem_append, Option.mem_toList, Option.mem_toList]
  refine advances_shift shifts (h.shifts hth shifts rfl ?_ ?_ (fun _ => rfl) ?_ ?_ rfl rfl ?_)
  · rintro p ⟨⟩
  · exact fun p hp _ _ => (hmem p).mpr hp
  · rintro _ p ⟨⟩
  · exact fun _ p _ => .inl rfl
  · intro p hp
    have hphase := ((hmem p).mp hp).imp (h.active p).mp (h.reserve p).mp
    exact (shift_out (by simp) (by simp)).trans (if_pos hphase)

end

/-- The path that `warm` dials has another name than the active one. -/
theorem name_warm {active : PathId} (h : Placed phase f) (hactive : phase.Seen active)
    (other : f.named (some active) member.name = false) :
    (f.dial member).name f.paths.length ≠ (f.dial member).name active := by
  rw [Flow.name_dial_self, Flow.name_dial (h.lt_of_seen hactive)]
  intro hname
  rw [Flow.named, ← hname, beq_self_eq_true] at other
  cases other

/-- A step of one thread, as far as that thread and the flow go. -/
theorem advances_steps (h : Consistent phase f threads) (hth : threads[t]? = some th)
    (steps : Thread.Steps t f th f' th' spawned) : Advances phase f' (threads.set t th') := by
  have hfits := h.fits t th hth
  cases steps
  case dial call old spare c rest =>
    have hspare : spare ≠ some f.paths.length :=
      fun hp => hfits.known _ hp ((h.absent f.paths.length).mpr le_rfl)
    refine advances_dial h hth ⟨rfl, rfl⟩ (.inl ⟨rfl, if_neg hspare⟩) rfl ?_
    intro phase' grows hnew
    exact ⟨hfits.grows grows (fun _ hp => hp) (fun _ hp => hp), fun _ => hnew⟩
  case dialLate =>
    refine advances_dial h hth ⟨rfl, rfl⟩ (.inr ⟨rfl, List.mem_singleton_self _⟩) rfl ?_
    intro phase' grows hnew
    exact ⟨hfits.toCallFits.grows grows, hnew⟩
  case install isOpen => exact advances_install h hth isOpen
  case discard fresh =>
    refine advances_drop h hth (hfits.2 fresh) (if_neg fresh) rfl (List.mem_singleton_self _)
      rfl ?_
    intro phase' grows hgone
    exact ⟨hfits.1.toCallFits.grows grows, hgone⟩
  case warmDial other | warmReplace other =>
    refine advances_dial h hth ⟨rfl, rfl⟩ (.inl ⟨rfl, rfl⟩) rfl ?_
    intro phase' grows hnew
    exact ⟨grows.seen _ hfits, hnew, name_warm h.toPlaced hfits other⟩
  case warmBusy | warmLate =>
    refine advances_drop h hth hfits.2.1 rfl rfl (List.mem_singleton_self _) rfl ?_
    rintro phase' - hgone p ⟨⟩
    exact hgone
  case warmSwap current isOpen unchanged => exact advances_warmSwap h hth current isOpen unchanged
  case failClear => exact advances_failClear h hth
  case close => exact advances_close h hth
  all_goals apply Consistent.advances
  case passes same moves =>
    have hempty := moves.empty
    refine h.quiet hth same.toKeeps (moves.fits h.toPlaced hfits) ?_ ?_ ?_ ?_
    · intro p hp
      rw [hempty.1.1] at hp
      cases hp
    · rw [hempty.1.2, hempty.2.2]
    · intro hin
      rw [moves.entered] at hin
      exact ⟨same.gate.trans (h.gate t th hth hin), .inl hin⟩
    · exact fun hgate _ => same.gate.trans hgate
  case enter free | warmEnter free =>
    exact h.quiet hth ⟨rfl, rfl, rfl, rfl⟩ hfits (fun p hp => hp) rfl
      (fun _ => ⟨rfl, .inr free⟩) fun _ _ => rfl
  case leave call result =>
    refine h.quiet hth ⟨rfl, rfl, rfl, rfl⟩ (fits_returns hfits.1 result) ?_
      (empty_returns call result).2 ?_ ?_
    · rintro p ⟨⟩
    · intro hin
      rw [entered_returns] at hin
      cases hin
    · rintro - ⟨⟩
  case discarded call next =>
    refine h.closes hth (some next) rfl rfl rfl ?_ ⟨hfits.1, ?_⟩
    · rintro p ⟨⟩
      exact hfits.2
    · rintro p ⟨⟩
  case closeOld call old stale next =>
    exact h.closes hth old rfl rfl rfl hfits.2.1 hfits
  case closeStale call old stale next =>
    obtain ⟨hcall, hold, hstale, -⟩ := hfits
    have hresult : ∀ f : Flow, Fits phase f t (.leave call (.switched old)) := by
      intro f
      refine ⟨hcall, ?_⟩
      rintro p ⟨⟩
      exact hold p rfl
    split
    next hpromoted =>
      refine h.closes hth none ?_ rfl rfl ?_ (hresult f)
      · exact if_pos hpromoted
      · rintro p ⟨⟩
    next hother =>
      refine h.closes hth stale ?_ rfl rfl ?_ (hresult _)
      · exact (if_neg hother).trans (List.append_nil _).symm
      · intro p hp
        refine hstale p hp ?_
        rintro rfl
        exact hother hp
  case warmLeave entered drop =>
    refine h.quiet hth ?_ hfits (fun p hp => hp) rfl ?_ ?_
    · split <;> exact ⟨rfl, rfl, rfl, rfl⟩
    · rintro ⟨⟩
    · rintro hgate ⟨⟩
      exact hgate
  case warmClose =>
    exact h.closes hth _ (List.append_nil _).symm rfl rfl hfits trivial
  case failClose path write =>
    have hempty := empty_failed write
    refine h.closes hth (some path) ?_ rfl ?_ ?_ ?_
    · rw [hempty.1]
      rfl
    · cases write <;> rfl
    · rintro p ⟨⟩
      exact hfits
    · cases write <;> trivial
  case closeNext p rest =>
    refine h.closes hth (some p) rfl rfl rfl ?_ ?_
    · rintro q ⟨⟩
      exact hfits p List.mem_cons_self
    · exact fun q hq => hfits q (List.mem_cons_of_mem p hq)
  case hand =>
    exact h.quiet hth ⟨rfl, rfl, rfl, rfl⟩ hfits (fun p hp => hp) rfl (by rintro ⟨⟩)
      fun hgate _ => hgate
  case deliver =>
    exact h.quiet hth ⟨rfl, rfl, rfl, rfl⟩ trivial (fun p hp => hp) rfl (by rintro ⟨⟩)
      fun hgate _ => hgate

/-- The threads that a step starts serve a path that has been made active. -/
theorem Thread.Steps.spawned_fits (steps : Thread.Steps t f th f' th' spawned)
    (h : Fits phase f t th) {phase' : Lifecycle} (grows : Grows phase phase') :
    ∀ th ∈ spawned, (∀ u, Fits phase' f' u th) ∧ th.entered = false := by
  cases steps with
  | @closeStale call old stale next =>
    have hnext : phase'.Seen next := grows.seen next h.2.2.2
    simp only [List.mem_cons, List.not_mem_nil, or_false]
    rintro th (rfl | rfl | rfl)
    · exact ⟨fun _ => hnext, rfl⟩
    · exact ⟨fun _ => hnext, rfl⟩
    · exact ⟨fun _ => hnext, rfl⟩
  | _ => exact fun _ hmem => nomatch hmem

/-- The step lemma of one thread. -/
theorem consistent_steps (h : Consistent phase f threads) (hth : threads[t]? = some th)
    (steps : Thread.Steps t f th f' th' spawned) :
    Advances phase f' (threads.set t th' ++ spawned) := by
  obtain ⟨phase', h', grows⟩ := advances_steps h hth steps
  have hspawned := steps.spawned_fits (h.fits t th hth) grows
  exact ⟨phase', h'.spawnAll (fun th hmem => (hspawned th hmem).1)
    fun th hmem => (hspawned th hmem).2, grows⟩

end Steps

section Runs

variable {phase : Lifecycle} {s s' : State} {a : Action}

/-- A thread outside the gate goes on with the same paths, none of them in hand. -/
theorem Consistent.goes {f : Flow} {threads : List Thread} {t : ThreadId} {th th' : Thread}
    (h : Consistent phase f threads) (hth : threads[t]? = some th) (fits : Fits phase f t th')
    (hempty : th.Empty) (hempty' : th'.Empty) (outside : th'.entered = false) :
    Consistent phase f (threads.set t th') := by
  refine h.quiet hth (.refl f) fits ?_ (hempty'.2.trans hempty.2.symm) ?_ fun hgate _ => hgate
  · intro p hp
    rw [hempty.1] at hp
    cases hp
  · intro hin
    cases outside.symm.trans hin

theorem Consistent.keeps {f f' : Flow} {threads : List Thread} (h : Consistent phase f threads)
    (keeps : f.Keeps f') (hgate : f'.gate = f.gate) : Consistent phase f' threads where
  __ := h
  toPlaced := h.toPlaced.keeps keeps
  gone p hp := by
    rw [Flow.isRetired, keeps.paths]
    exact h.gone p hp
  fits t th hth := (h.fits t th hth).keeps keeps
  gate t th hth hin := hgate.trans (h.gate t th hth hin)

/-- The step lemma of the flow. -/
theorem consistent_next (h : Consistent phase s.flow s.threads) (hnext : s.next a = some s') :
    Advances phase s'.flow s'.threads := by
  have hactive : ∀ p, s.flow.active = some p → phase.Seen p :=
    fun p hp => .inl ((h.active p).mp hp)
  cases State.next_inv hnext
  case step hth steps => exact consistent_steps h hth steps
  all_goals apply Consistent.advances
  case hand t u p offer idle | pass t u p x offer idle =>
    have hseen : phase.Seen p := h.fits t _ offer
    have hne : t ≠ u := by
      rintro rfl
      cases offer.symm.trans idle
    refine Consistent.goes ?_ ((List.getElem?_set_ne hne).trans idle) hseen ⟨rfl, rfl⟩
      ⟨rfl, rfl⟩ rfl
    exact h.goes offer hseen ⟨rfl, rfl⟩ ⟨rfl, rfl⟩ rfl
  case cancel =>
    exact h.keeps ⟨rfl, rfl, rfl, rfl⟩ rfl
  case switch =>
    refine h.spawn ⟨?_, ?_⟩ rfl
    · rintro q ⟨⟩
    · rintro q write ⟨⟩
  case probe name p active =>
    refine h.spawn ⟨?_, ?_⟩ rfl
    · rintro q ⟨⟩
      exact hactive p active
    · rintro q write ⟨⟩
  case warm p active =>
    refine h.spawn ?_ rfl
    exact hactive p active
  case close | write | read =>
    exact h.spawn trivial rfl

theorem consistent_start (write : Bool) :
    Consistent (fun _ => .absent) (State.start write).flow (State.start write).threads := by
  have honly : ∀ (t : ThreadId) (th : Thread), (State.start write).threads[t]? = some th →
      t = 0 ∧ th = .enter ⟨[], none, .initial write⟩ := by
    intro t th hth
    cases t with
    | zero => exact ⟨rfl, (Option.some.inj hth).symm⟩
    | succ t => cases hth
  constructor
  · constructor
    · exact fun p => ⟨fun _ => Nat.zero_le p, fun _ => rfl⟩
    · rintro p
      exact ⟨fun hp => (by cases hp), fun hp => (by cases hp)⟩
    · rintro p
      exact ⟨fun hp => (by cases hp), fun hp => (by cases hp)⟩
    · rintro p ⟨⟩
    · exact fun _ => ⟨rfl, rfl⟩
    · rintro a r ⟨⟩
  · rintro p ⟨⟩
  · rintro p t ⟨⟩
  · intro t th hth
    obtain ⟨-, rfl⟩ := honly t th hth
    exact ⟨fun p hp => (by cases hp), fun p write hp => (by cases hp)⟩
  · intro t th hth hin
    obtain ⟨-, rfl⟩ := honly t th hth
    cases hin
  · intro t th t' th' hth hth' _ _
    exact (honly t th hth).1.trans (honly t' th' hth').1.symm

/-- The run lemma: a run goes on from phases to later ones. -/
theorem advances_run {actions : List Action} (hs : Consistent phase s.flow s.threads)
    (h : Transition.run State.next s actions = some s') : Advances phase s'.flow s'.threads := by
  refine Transition.run_invariant (P := fun s' => Advances phase s'.flow s'.threads) ?_
    hs.advances h
  rintro s a s' ⟨phase', hs, grows⟩ hnext
  obtain ⟨phase'', hs', grows'⟩ := consistent_next hs hnext
  exact ⟨phase'', hs', grows.trans grows'⟩

/-- There are phases for every reachable state. -/
theorem consistent_run {write : Bool} {actions : List Action}
    (h : Transition.run State.next (State.start write) actions = some s) :
    ∃ phase, Consistent phase s.flow s.threads := by
  obtain ⟨phase, hs, -⟩ := advances_run (consistent_start write) h
  exact ⟨phase, hs⟩

end Runs

end AntiLag
