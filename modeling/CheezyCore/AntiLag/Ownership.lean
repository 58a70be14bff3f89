import CheezyCore.AntiLag.LifecycleSteps

/-!
# Every path of a flow has one owner

In every interleaving a path is at most one of active, reserve and closed. While it is none
of them a running operation has it in hand: the one that dialled it and has not placed it,
or one that took it out of the flow and closes it with its next steps. The second case is
why a path may be without an owner although the operation that dialled it is over.
-/

namespace AntiLag

/-- How many of the three a path is: active, the reserve, closed. -/
def Flow.uses (f : Flow) (p : PathId) : Nat :=
  (if f.active = some p then 1 else 0) + (if f.reserve = some p then 1 else 0) +
    (if f.isRetired p then 1 else 0)

variable {phase : Lifecycle} {f : Flow} {s s' : State} {t : ThreadId} {th : Thread} {p : PathId}

/-- The phase of a path says what it is used for. -/
theorem Placed.uses_le_one (h : Placed phase f) (p : PathId) : f.uses p ≤ 1 := by
  have hactive := h.active p
  have hreserve := h.reserve p
  have hretired := h.retired p
  unfold Flow.uses
  split <;> split <;> split <;> simp_all

theorem Placed.uses_eq_one (h : Placed phase f)
    (hp : phase p = .active ∨ phase p = .reserve ∨ f.isRetired p = true) : f.uses p = 1 := by
  have hle := h.uses_le_one p
  unfold Flow.uses at hle ⊢
  rw [← h.active, ← h.reserve] at hp
  obtain hp | hp | hp := hp
  · rw [if_pos hp] at hle ⊢
    omega
  · rw [if_pos hp] at hle ⊢
    omega
  · rw [if_pos hp] at hle ⊢
    omega

/-- A path that is used for nothing is in the hands of a thread. -/
theorem Consistent.uses_or_held {threads : List Thread} (h : Consistent phase f threads)
    (hp : p < f.paths.length) :
    f.uses p = 1 ∨ ∃ (t : ThreadId) (th : Thread), threads[t]? = some th ∧
      (th.dialled = some p ∨ p ∈ th.closing) := by
  cases hphase : phase p with
  | absent => exact absurd hp (Nat.not_lt.mpr ((h.absent p).mp hphase))
  | dialled t =>
    obtain ⟨th, hth, hmine⟩ := h.dialled p t hphase
    exact .inr ⟨t, th, hth, .inl hmine⟩
  | reserve => exact .inl (h.uses_eq_one (.inr (.inl hphase)))
  | active => exact .inl (h.uses_eq_one (.inl hphase))
  | gone =>
    obtain hretired | ⟨t, th, hth, hclosing⟩ := h.gone p hphase
    · exact .inl (h.uses_eq_one (.inr (.inr hretired)))
    · exact .inr ⟨t, th, hth, .inr hclosing⟩

/-- The steps after which a thread has closed the paths it has in hand. -/
def Thread.delay : Thread → Nat
  | .discard .. | .closeStale .. | .warmClose _ | .failClose .. => 1
  | .closeOld .. | .warmLeave .. => 2
  | .closeRest paths => paths.length
  | _ => 0

theorem closing_of_step {f' : Flow} {th' : Thread} {spawned : List Thread}
    (hth : s.threads[t]? = some th) (hstep : th.step t s.flow .go = some (f', th', spawned))
    (h : f'.isRetired p = true ∨
      (p < f'.paths.length ∧ p ∈ th'.closing ∧ th'.delay < th.delay)) :
    ∃ s', s.next (.step t .go) = some s' ∧
      (s'.flow.isRetired p = true ∨ (p < s'.flow.paths.length ∧
        ∃ th', s'.threads[t]? = some th' ∧ p ∈ th'.closing ∧ th'.delay < th.delay)) := by
  refine ⟨⟨f', s.threads.set t th' ++ spawned⟩, ?_, h.imp_right ?_⟩
  · simp only [State.next, hth, hstep]
  · rintro ⟨hp, hcloser⟩
    refine ⟨hp, th', ?_, hcloser⟩
    have hlt : t < s.threads.length := Table.lt_length hth
    rw [List.getElem?_append_left (by rw [List.length_set]; exact hlt)]
    exact List.getElem?_set_self hlt

section

variable (hth : s.threads[t]? = some th) (hp : p ∈ th.closing) (hlt : p < s.flow.paths.length)
include hth hp hlt

/-- A thread that has a path to close can go on, and closes it or comes closer to it. -/
theorem closing_step : ∃ s', s.next (.step t .go) = some s' ∧
      (s'.flow.isRetired p = true ∨ (p < s'.flow.paths.length ∧
        ∃ th', s'.threads[t]? = some th' ∧ p ∈ th'.closing ∧ th'.delay < th.delay)) := by
  have hself : (s.flow.closePath p).isRetired p = true :=
    Flow.isRetired_closePath.mpr (.inr ⟨rfl, hlt⟩)
  have hdrop : ∀ drop : Option PathId, p ∈ drop.toList →
      (s.flow.closeOption drop).isRetired p = true := by
    intro drop hmem
    cases Option.mem_toList.mp hmem
    exact hself
  cases th with
  | discard call next | failClose path write =>
    cases List.mem_singleton.mp hp
    exact closing_of_step hth rfl (.inl hself)
  | closeOld call old stale next =>
    refine closing_of_step hth rfl ?_
    obtain hp | hp := List.mem_append.mp hp
    · exact .inl (hdrop old hp)
    · refine .inr ⟨?_, hp, Nat.lt_succ_self 1⟩
      cases old with
      | none => exact hlt
      | some q =>
        rw [Flow.closeOption, Flow.length_closePath]
        exact hlt
  | closeStale call old stale next =>
    refine closing_of_step hth rfl (.inl ?_)
    simp only [Thread.closing] at hp
    split at hp
    · cases hp
    next hother =>
      rw [if_neg hother]
      exact hdrop stale hp
  | warmLeave entered drop =>
    refine closing_of_step hth rfl (.inr ⟨?_, hp, Nat.lt_succ_self 1⟩)
    split <;> exact hlt
  | warmClose drop =>
    exact closing_of_step hth rfl (.inl (hdrop drop hp))
  | closeRest paths =>
    cases paths with
    | nil => cases hp
    | cons q rest =>
      refine closing_of_step hth rfl ?_
      obtain rfl | hp := List.mem_cons.mp hp
      · exact .inl hself
      · refine .inr ⟨?_, hp, Nat.lt_succ_self rest.length⟩
        rw [Flow.length_closePath]
        exact hlt
  | _ => cases hp

/-- Once a path is in the hands of a thread to be closed, the steps of that thread alone
close it: there is nothing it could wait for. -/
theorem closing_run :
    ∃ n s', Transition.run State.next s (List.replicate n (.step t .go)) = some s' ∧
      s'.flow.isRetired p = true := by
  induction hdelay : th.delay using Nat.strongRecOn generalizing s th with
  | ind delay ih =>
    obtain ⟨middle, hnext, hretired | ⟨hlt', th', hth', hp', hcloser⟩⟩ :=
      closing_step hth hp hlt
    · exact ⟨1, middle, Transition.run_cons_some hnext, hretired⟩
    · obtain ⟨n, s', hrun, hretired⟩ := ih th'.delay (hdelay ▸ hcloser) hth' hp' hlt' rfl
      refine ⟨n + 1, s', ?_, hretired⟩
      rw [List.replicate_succ, Transition.run_cons_some hnext]
      exact hrun

end

/-- At every moment of every run a path is at most one of active, reserve and closed. It is
one of them, except while the thread that dialled it has not placed it and while a thread
that took it out of the flow is about to close it, which that thread then does by its own
steps. The active and the reserve path have different names, and a closed flow has neither. -/
theorem paths_owned {write : Bool} {actions : List Action}
    (h : Transition.run State.next (State.start write) actions = some s) :
    (∀ p, p < s.flow.paths.length → s.flow.uses p ≤ 1 ∧
      (s.flow.uses p = 1 ∨
        (∃ (t : ThreadId) (th : Thread), s.threads[t]? = some th ∧ th.dialled = some p) ∨
        ∃ (t : ThreadId) (th : Thread), s.threads[t]? = some th ∧ p ∈ th.closing ∧
          ∃ n s', Transition.run State.next s (List.replicate n (.step t .go)) = some s' ∧
            s'.flow.isRetired p = true)) ∧
    (∀ a r, s.flow.active = some a → s.flow.reserve = some r → s.flow.name a ≠ s.flow.name r) ∧
    (s.flow.closed = true → s.flow.active = none ∧ s.flow.reserve = none) ∧
    ∀ p, s.flow.isRetired p = true → s.flow.active ≠ some p ∧ s.flow.reserve ≠ some p := by
  obtain ⟨phase, hs⟩ := consistent_run h
  refine ⟨?_, hs.names, hs.closed, ?_⟩
  · intro p hp
    refine ⟨hs.uses_le_one p, ?_⟩
    obtain huses | ⟨t, th, hth, hdialled | hclosing⟩ := hs.uses_or_held hp
    · exact .inl huses
    · exact .inr (.inl ⟨t, th, hth, hdialled⟩)
    · exact .inr (.inr ⟨t, th, hth, hclosing, closing_run hth hclosing hp⟩)
  · intro p hretired
    have hgone := hs.retired p hretired
    constructor
    · intro hp
      cases hgone.symm.trans ((hs.active p).mp hp)
    · intro hp
      cases hgone.symm.trans ((hs.reserve p).mp hp)

/-- The flow is opened and its initial change ends; a second change follows. -/
def secondChange : List Action := opened 1 ++ [.switch []] ++ changes 4 2

theorem paths_owned_secondChange :
    ∃ s, Transition.run State.next (State.start false) secondChange = some s ∧
      s.flow.uses 0 ≤ 1 ∧ s.flow.uses 1 ≤ 1 := by
  refine ⟨_, (and_iff_left_of_imp fun h => ?_).mpr rfl⟩
  have huses := (paths_owned h).1
  exact ⟨(huses 0 (by decide)).1, (huses 1 (by decide)).1⟩

/-- Between the two critical sections of a `change` the path it replaced is neither in the
flow nor closed, although the `change` that dialled it is long over. -/
theorem replaced_path_unowned :
    ∃ s, Transition.run State.next (State.start false) secondChange = some s ∧
      s.threads[0]? = some .done ∧ 0 < s.flow.paths.length ∧ s.flow.uses 0 = 0 :=
  ⟨_, rfl, rfl, by decide, by decide⟩

end AntiLag
