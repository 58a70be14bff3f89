import CheezyCore.AntiLag.LifecycleSteps

/-!
# A switch happens or leaves no trace

A call of `change` takes the switch gate, looks at the flow, picks or dials a path, installs
it and closes what it replaced. It may give up at every step before the installation. The
other goroutines run between its steps; all that is asked of them is that a path is neither
forgotten nor opened again, as no step of the system does.
-/

namespace AntiLag

variable {found f f' g : Flow} {p q : PathId} {call : Call} {steps : List (Flow × Flow)}
variable {th : Thread}

/-- What other goroutines leave of a flow. -/
structure Flow.Later (f g : Flow) : Prop where
  paths : f.paths.length ≤ g.paths.length
  retired : ∀ p, f.isRetired p = true → g.isRetired p = true

namespace Thread

/-- The steps of a call from the one that finds the flow to its return, the last one first: the
flows before and after them. -/
inductive Runs (call : Call) (found : Flow) : List (Flow × Flow) → Thread → Prop where
  | inspect {choice f' th spawned} :
      changeStep found (.inspect call) choice = some (f', th, spawned) →
      Runs call found [(found, f')] th
  | step {last steps th f choice f' th' spawned} : Runs call found (last :: steps) th →
      (∀ call result, th ≠ .leave call result) → last.2.Later f →
      changeStep f th choice = some (f', th', spawned) →
      Runs call found ((f, f') :: last :: steps) th'

/-- A step that leaves the active and the reserve path and closes none of the paths found. -/
structure Quiet (found : Flow) (s : Flow × Flow) : Prop where
  active : s.2.active = s.1.active
  reserve : s.2.reserve = s.1.reserve
  retired : ∀ p < found.paths.length, s.2.isRetired p = s.1.isRetired p

/-- A step that installs the path and takes out the reserve. -/
structure Commits (s : Flow × Flow) (stale : Option PathId) (next : PathId) : Prop where
  stale : s.1.reserve = stale
  active : s.2.active = some next
  reserve : s.2.reserve = none

/-- The path is closed if the flow had it. -/
def Closed (f g : Flow) (p : Option PathId) : Prop :=
  ∀ q, p = some q → q < f.paths.length → g.isRetired q = true

/-- What the call has done when it comes to a thread state with the flow `g`. -/
def Knows (found : Flow) (steps : List (Flow × Flow)) (g : Flow) : Thread → Prop
  | .choose _ old _ _ => old = found.active ∧ ∀ s ∈ steps, Quiet found s
  | .install _ old spare next => old = found.active ∧ (∀ s ∈ steps, Quiet found s) ∧
      (spare ≠ some next → found.paths.length ≤ next)
  | .discard _ next => (∀ s ∈ steps, Quiet found s) ∧ found.paths.length ≤ next
  | .closeOld _ old stale next => old = found.active ∧
      ∃ s ∈ steps, Commits s stale next ∧ s.1.paths.length ≤ g.paths.length
  | .closeStale _ old stale next => old = found.active ∧ Closed found g old ∧
      ∃ s ∈ steps, Commits s stale next ∧ s.1.paths.length ≤ g.paths.length
  | .leave _ (.switched old) => old = found.active ∧ Closed found g old ∧
      ∃ s ∈ steps, ∃ stale next, Commits s stale next ∧
        (stale ≠ some next → Closed s.1 g stale)
  | .leave _ _ => ∀ s ∈ steps, Quiet found s
  | _ => False

theorem quiet_of_keeps (h : f.Keeps f') : Quiet found (f, f') :=
  ⟨h.active, h.reserve, fun p _ => by rw [Flow.isRetired, h.paths]; rfl⟩

theorem quiet_closePath (h : found.paths.length ≤ p) : Quiet found (f, f.closePath p) where
  active := rfl
  reserve := rfl
  retired q hq := by
    have hne : q ≠ p := by omega
    exact Bool.eq_iff_iff.mpr (by simp [Flow.isRetired_closePath, hne])

theorem quiet_dial (member : Proxy) : Quiet found (f, f.dial member) :=
  ⟨rfl, rfl, fun p _ => Flow.isRetired_dial f member p⟩

theorem later_of_paths (h : f'.paths = f.paths) : f.Later f' :=
  ⟨h ▸ Nat.le_refl _, fun p hp => by rwa [Flow.isRetired, h]⟩

theorem later_dial (f : Flow) (member : Proxy) : f.Later (f.dial member) :=
  ⟨by simp [Flow.dial], fun p hp => by rwa [Flow.isRetired_dial]⟩

theorem later_closeOption (f : Flow) (old : Option PathId) : f.Later (f.closeOption old) := by
  cases old with
  | none => exact later_of_paths rfl
  | some p =>
    exact ⟨(Flow.length_closePath f p).ge, fun q hq => Flow.isRetired_closePath.mpr (.inl hq)⟩

/-- No step of the system forgets a path or opens it again. -/
theorem later_next {s s' : State} {a : Action} (h : s.next a = some s') :
    s.flow.Later s'.flow := by
  cases State.next_inv h with
  | step _ steps =>
    cases steps with
    | passes _ same => exact later_of_paths same.paths
    | dial | dialLate | warmDial | warmReplace => exact later_dial s.flow _
    | discarded | failClose | closeNext => exact later_closeOption s.flow (some _)
    | closeOld | warmClose => exact later_closeOption s.flow _
    | closeStale =>
      dsimp only
      split
      · exact later_of_paths rfl
      · exact later_closeOption s.flow _
    | warmLeave | failClear =>
      dsimp only
      split
      · exact later_of_paths rfl
      · exact later_of_paths rfl
    | _ => exact later_of_paths rfl
  | _ => exact later_of_paths rfl

theorem closed_closeOption (h : found.paths.length ≤ f.paths.length) (old : Option PathId) :
    Closed found (f.closeOption old) old := by
  rintro q rfl hq
  exact Flow.isRetired_closePath.mpr (.inr ⟨rfl, Nat.lt_of_lt_of_le hq h⟩)

theorem Closed.later {old : Option PathId} (h : Closed found f old) (later : f.Later g) :
    Closed found g old :=
  fun q hold hq => later.retired q (h q hold hq)

theorem Knows.step {choice : Choice} {th' : Thread} {spawned : List Thread} {last : Flow × Flow}
    (h : Knows found (last :: steps) last.2 th) (hfound : found.paths.length ≤ last.2.paths.length)
    (inside : ∀ call result, th ≠ .leave call result) (later : last.2.Later f)
    (hstep : changeStep f th choice = some (f', th', spawned)) :
    found.paths.length ≤ f'.paths.length ∧ Knows found ((f, f') :: last :: steps) f' th' := by
  have hlength := Nat.le_trans hfound later.paths
  have quiet (hnew : Quiet found (f, f')) (hold : ∀ s ∈ last :: steps, Quiet found s) :
      ∀ s ∈ (f, f') :: last :: steps, Quiet found s :=
    List.forall_mem_cons.mpr ⟨hnew, hold⟩
  have moves := changeStep_inv (t := 0) hstep
  cases th with
  | choose call old spare options =>
    obtain ⟨hold, hquiet⟩ := h
    cases moves with
    | passes moves same =>
      have hnew := quiet (quiet_of_keeps same.toKeeps) hquiet
      refine ⟨same.paths ▸ hlength, ?_⟩
      cases moves with
      | chooseFailed => exact hnew
      | chooseNext => exact ⟨hold, hnew⟩
      | chooseSpare => exact ⟨hold, hnew, absurd rfl⟩
    | @dial _ _ _ c =>
      have hnew := quiet (quiet_dial c.proxy) hquiet
      exact ⟨Nat.le_trans hlength (later_dial f c.proxy).paths, hold, hnew, fun _ => hlength⟩
    | @dialLate _ _ _ c =>
      have hnew := quiet (quiet_dial c.proxy) hquiet
      exact ⟨Nat.le_trans hlength (later_dial f c.proxy).paths, hnew, hlength⟩
  | install call old spare next =>
    obtain ⟨hold, hquiet, hfresh⟩ := h
    cases moves with
    | passes moves same =>
      cases moves
      exact ⟨same.paths ▸ hlength, quiet (quiet_of_keeps same.toKeeps) hquiet⟩
    | install =>
      exact ⟨hlength, hold, _, List.mem_cons_self, ⟨rfl, rfl, rfl⟩, Nat.le_refl _⟩
    | discard fresh =>
      exact ⟨hlength, quiet (quiet_of_keeps (.refl f)) hquiet, hfresh fresh⟩
  | discard call next =>
    obtain ⟨hquiet, hfresh⟩ := h
    cases moves with
    | passes moves => cases moves
    | discarded => exact ⟨by simpa using hlength, quiet (quiet_closePath hfresh) hquiet⟩
  | closeOld call old stale next =>
    obtain ⟨hold, s, hs, hcommits, hle⟩ := h
    cases moves with
    | passes moves => cases moves
    | closeOld =>
      have hclose := later_closeOption f old
      exact ⟨Nat.le_trans hlength hclose.paths, hold, closed_closeOption hlength old, s,
        List.mem_cons_of_mem _ hs, hcommits, (hle.trans later.paths).trans hclose.paths⟩
  | closeStale call old stale next =>
    obtain ⟨hold, hclosed, s, hs, hcommits, hle⟩ := h
    cases moves with
    | passes moves => cases moves
    | closeStale =>
      have hclose : f.Later (if stale = some next then f else f.closeOption stale) := by
        split
        · exact later_of_paths rfl
        · exact later_closeOption f stale
      refine ⟨Nat.le_trans hlength hclose.paths, hold, (hclosed.later later).later hclose, s,
        List.mem_cons_of_mem _ hs, stale, next, hcommits, fun hne => ?_⟩
      rw [if_neg hne]
      exact closed_closeOption (Nat.le_trans hle later.paths) stale
  | leave call result => exact absurd rfl (inside call result)
  | _ => exact h.elim

/-- The call has nothing to do: its path is not the active one any more, or the one it asks for
is. -/
def Stale (call : Call) (f : Flow) : Prop :=
  (call.expected ≠ none ∧ f.active ≠ call.expected) ∨ f.named f.active call.name = true

theorem knows_inspect {choice : Choice} {spawned : List Thread}
    (h : changeStep found (.inspect call) choice = some (f', th, spawned)) :
    f' = found ∧ Knows found [(found, f')] f' th ∧
      (Stale call found → ∃ result, th = .leave call result) := by
  have hquiet : ∀ s ∈ [(found, found)], Quiet found s :=
    List.forall_mem_singleton.mpr (quiet_of_keeps (.refl found))
  cases choice with
  | options options =>
    unfold changeStep at h
    dsimp only at h
    split at h
    · cases h
      exact ⟨rfl, hquiet, fun _ => ⟨_, rfl⟩⟩
    · split at h <;> cases h
      · exact ⟨rfl, hquiet, fun _ => ⟨_, rfl⟩⟩
      next hfresh =>
        refine ⟨rfl, ⟨rfl, hquiet⟩, fun hstale => absurd ?_ hfresh⟩
        simpa [Stale, Option.isSome_iff_ne_none] using hstale
  | _ => cases h

theorem Runs.knows (h : Runs call found ((f, f') :: steps) th) :
    found.paths.length ≤ f'.paths.length ∧ Knows found ((f, f') :: steps) f' th := by
  generalize hall : (f, f') :: steps = all at h
  induction h generalizing f f' steps with
  | inspect h =>
    cases hall
    obtain ⟨rfl, hknows, -⟩ := knows_inspect h
    exact ⟨Nat.le_refl _, hknows⟩
  | step _ inside later h ih =>
    cases hall
    obtain ⟨hfound, hknows⟩ := ih rfl
    exact hknows.step hfound inside later h

theorem Runs.of_stale (h : Runs call found steps th) (stale : Stale call found) :
    steps = [(found, found)] ∧ ∃ result, th = .leave call result := by
  induction h with
  | inspect h =>
    obtain ⟨rfl, -, hleave⟩ := knows_inspect h
    exact ⟨rfl, hleave stale⟩
  | step _ inside _ _ ih =>
    obtain ⟨-, result, hleave⟩ := ih
    exact absurd hleave (inside call result)

/-- The thread is in a call of `change` that has found the flow. -/
def Tracks (call : Call) (found : Flow) (t : ThreadId) (steps : List (Flow × Flow)) (s : State) :
    Prop :=
  ∃ last rest th, steps = last :: rest ∧ Runs call found steps th ∧ s.threads[t]? = some th ∧
    last.2.Later s.flow

/-- A call is followed from the step in which it finds the flow. -/
theorem tracks_inspect {t : ThreadId} {s s' : State} {choice : Choice}
    (hth : s.threads[t]? = some (.inspect call)) (hnext : s.next (.step t choice) = some s') :
    Tracks call s.flow t [(s.flow, s'.flow)] s' := by
  have hlt : t < s.threads.length := (List.getElem?_eq_some_iff.mp hth).1
  simp only [State.next, hth] at hnext
  split at hnext <;> cases hnext
  next f' th' spawned hstep =>
    refine ⟨_, [], th', rfl, .inspect hstep, ?_, later_of_paths rfl⟩
    change (s.threads.set t th' ++ spawned)[t]? = some th'
    rw [List.getElem?_append_left (by simpa using hlt), List.getElem?_set_self hlt]

/-- The steps of the system from the one in which a call finds the flow to its return are those
of a run of the call, with what others do in between. -/
theorem tracks_next {t : ThreadId} {s s' : State} {a : Action}
    (h : Tracks call found t steps s) (hnext : s.next a = some s')
    (inside : ∀ call result, s.threads[t]? ≠ some (.leave call result)) :
    Tracks call found t steps s' ∨ Tracks call found t ((s.flow, s'.flow) :: steps) s' := by
  obtain ⟨last, rest, th, rfl, hruns, hth, hlater⟩ := h
  have hknows := hruns.knows.2
  have hmoved := later_next hnext
  have hafter : last.2.Later s'.flow :=
    ⟨hlater.paths.trans hmoved.paths, fun p hp => hmoved.retired p (hlater.retired p hp)⟩
  have hlt : t < s.threads.length := (List.getElem?_eq_some_iff.mp hth).1
  have other {u : ThreadId} {th' : Thread} (hu : s.threads[u]? = some th')
      (hne : ¬ Knows found (last :: rest) last.2 th') : u ≠ t := by
    rintro rfl
    cases hu.symm.trans hth
    exact hne hknows
  have stays (h : s'.threads[t]? = some th) : Tracks call found t (last :: rest) s' :=
    ⟨last, rest, th, rfl, hruns, h, hafter⟩
  have hspawn (th' : Thread) : (s.threads ++ [th'])[t]? = some th := by
    rw [List.getElem?_append_left hlt, hth]
  cases a with
  | step u choice =>
    simp only [State.next] at hnext
    split at hnext
    next thread hu =>
      split at hnext <;> cases hnext
      next f' th' spawned hstep =>
        by_cases hut : u = t
        · subst hut
          cases hu.symm.trans hth
          have hchange : changeStep s.flow th choice = some (f', th', spawned) := by
            cases th with
            | choose | install | discard | closeOld | closeStale => exact hstep
            | leave call result => exact absurd hth (inside call result)
            | _ => exact hknows.elim
          refine .inr ⟨_, last :: rest, th', rfl, .step hruns ?_ hlater hchange, ?_,
            later_of_paths rfl⟩
          · rintro call result rfl
            exact inside call result hth
          · change (s.threads.set u th' ++ spawned)[u]? = some th'
            rw [List.getElem?_append_left (by simpa using hlt), List.getElem?_set_self hlt]
        · refine .inl (stays ?_)
          change (s.threads.set u th' ++ spawned)[t]? = some th
          rw [List.getElem?_append_left (by simpa using hlt), List.getElem?_set_ne hut, hth]
    · cases hnext
  | hand u v =>
    cases State.next_inv hnext with
    | hand hu hv =>
      refine .inl (stays ?_)
      rw [List.getElem?_set_ne (other hv id), List.getElem?_set_ne (other hu id), hth]
  | pass u v =>
    cases State.next_inv hnext with
    | pass hu hv =>
      refine .inl (stays ?_)
      rw [List.getElem?_set_ne (other hv id), List.getElem?_set_ne (other hu id), hth]
  | cancel =>
    cases hnext
    exact .inl (stays hth)
  | _ =>
    cases State.next_inv hnext
    exact .inl (stays (hspawn _))

/-- A call that returns an error, or finds nothing to do, leaves the active and the reserve path
alone in all its steps and closes no path that was there. One that has nothing to do takes no
other step. One that switches has closed the path that was active, and the reserve it took out if
that is not the new active path. Taking the gate and giving it back change no path. -/
theorem change_atomic (call : Call) :
    (∀ found steps result, Runs call found steps (.leave call result) →
      (result = .failed ∨ result = .unchanged → ∀ s ∈ steps, Quiet found s) ∧
      (Stale call found → steps = [(found, found)]) ∧
      ∀ old, result = .switched old → old = found.active ∧
        ∃ last ∈ steps.head?, Closed found last.2 old ∧ ∃ s ∈ steps, ∃ stale next,
          Commits s stale next ∧ (stale ≠ some next → Closed s.1 last.2 stale)) ∧
    ∀ f choice f' th spawned result, changeStep f (.enter call) choice = some (f', th, spawned) ∨
      changeStep f (.leave call result) choice = some (f', th, spawned) → f.Keeps f' := by
  refine ⟨fun found steps result h => ?_, fun f choice f' th spawned result h => ?_⟩
  · have hstale := h.of_stale
    cases steps with
    | nil => cases h
    | cons last steps =>
      have hknows := h.knows.2
      refine ⟨?_, fun stale => (hstale stale).1, ?_⟩
      · rintro (rfl | rfl)
        · exact hknows
        · exact hknows
      · rintro old rfl
        exact ⟨hknows.1, last, rfl, hknows.2⟩
  · obtain h | h := h
    · cases changeStep_inv (t := 0) h with
      | passes _ same => exact same.toKeeps
      | enter => exact ⟨rfl, rfl, rfl, rfl⟩
    · cases changeStep_inv (t := 0) h with
      | passes moves => cases moves
      | leave => exact ⟨rfl, rfl, rfl, rfl⟩

/-- A flow with an active path, and a call that dials another one. -/
def onePath : Flow :=
  { (State.start true).flow with active := some 0, paths := [⟨⟨0, [1]⟩, false⟩] }

def toSecond : Call := ⟨[2], none, .switch⟩

theorem change_atomic_toSecond :
    ∃ steps, Runs toSecond onePath steps (.leave toSecond (.switched (some 0))) ∧
      ∃ last ∈ steps.head?, last.2.active = some 1 ∧ Closed onePath last.2 (some 0) := by
  have go {steps f th f' th' spawned} {last : Flow × Flow} (choice : Choice)
      (h : Runs toSecond onePath (last :: steps) th) (inside : ∀ call r, th ≠ .leave call r)
      (hf : last.2 = f) (hstep : changeStep f th choice = some (f', th', spawned)) :
      Runs toSecond onePath ((f, f') :: last :: steps) th' :=
    .step h inside (hf ▸ later_of_paths rfl) hstep
  have hfound := Runs.inspect (show changeStep onePath (.inspect toSecond)
    (.options [⟨⟨1, [2]⟩, false, 0⟩]) = some (_, _, _) from rfl)
  have h := go .go (go .go (go .go (go (.dialled false) hfound nofun rfl rfl) nofun rfl rfl) nofun
    rfl rfl) nofun rfl rfl
  obtain ⟨last, hlast, hclosed, -⟩ := (((change_atomic toSecond).1 _ _ _ h).2.2 _ rfl).2
  refine ⟨_, h, last, hlast, ?_, hclosed⟩
  cases hlast
  rfl

end Thread

end AntiLag
