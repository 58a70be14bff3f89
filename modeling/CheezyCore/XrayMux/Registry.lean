import CheezyCore.XrayMux.UplinkSteps

/-!
# The session map of a carrier

Sessions are numbered in the order of their creation and, as long as the use limit
fits 16 bits, have different ids. A session that was returned to its caller stays in
the map until it is done, or until `worker.close` takes it over to end it. `Tracked`
is the invariant behind this; it holds in every execution of the carrier.
-/

namespace XrayMux

open BigEndian

namespace Flow

/-- A session that is not opened yet, or with a TCP target. -/
def IsTCP (f : Flow) : Prop := f.opening ≠ .reserved → ∀ m, f.target = some m → m.netWork = .TCP

section Monotone

variable {env : Env} {f g : Flow} {action : FlowAction} {o : Outcome} {payload : List UInt8}
variable {target : Option Metadata} {sent : Bool} {frame : Option Frame}
variable {result : Except Failure Bool}

/-- What never changes back: a closed session stays closed, a lost one is not returned, a
returned one not lost, and a session keeps its target and its terminal cause. -/
structure Onward (f g : Flow) : Prop where
  done : f.done = true → g.done = true
  opening : g.opening = .reserved ∨ g.opening = .started →
    f.opening = .reserved ∨ f.opening = .started
  target : g.IsTCP → f.IsTCP
  cause : f.finish.pastCause = true → g.finish.pastCause = true
  started : f.opening = .started → g.opening = .started

theorem Onward.refl (f : Flow) : Onward f f := ⟨id, id, id, id, id⟩

theorem onward_beginFinish (hidle : f.finish = .idle) (ender : Ender) (ending : Ending) :
    Onward f (f.beginFinish ender ending) := by
  refine ⟨id, id, id, fun h => ?_, id⟩
  rw [hidle] at h
  cases h

theorem NewStep.onward (hnew : NewStep f payload target sent g frame result) : Onward f g := by
  rcases hnew.flow_eq with rfl | rfl
  · exact .refl _
  · exact ⟨id, id, id, id, id⟩

theorem OpenStep.onward {metadata : Metadata} {globalID : Option (Fixed 8)} {timeout : Int}
    (hstep : OpenStep f metadata globalID timeout sent o) (hreserved : f.opening = .reserved) :
    Onward f o.flow := by
  have htcp : f.IsTCP := absurd hreserved
  have hunopened : ∀ {opening : Opening}, f.opening = .started → opening = .started :=
    fun hstarted => absurd (hreserved.symm.trans hstarted) nofun
  cases hstep with
  | udp | delayed => exact ⟨id, fun _ => .inl hreserved, fun _ => htcp, id, hunopened⟩
  | failed _ _ hnew | immediate _ _ hnew =>
    have hg := hnew.onward
    exact ⟨hg.done, fun _ => .inl hreserved, fun _ => htcp, hg.cause, hunopened⟩

theorem Onward.setWriter (h : Onward f g) (k : Nat) (w : Writer) : Onward f (g.setWriter k w) :=
  { h with }

theorem WriteStep.onward {k : Nat} {w : Writer} (hstep : WriteStep env f k w sent o) :
    Onward f o.flow := by
  cases hstep with
  | newFailed _ _ hnew | newSent _ _ hnew | newSkipped _ _ hnew => exact hnew.onward.setWriter _ _
  | _ => exact (Onward.refl f).setWriter _ _

theorem TimerStep.onward (hstep : TimerStep env f sent o) : Onward f o.flow := by
  cases hstep with
  | newFailed _ hnew | new _ hnew =>
    have hg := hnew.onward
    exact { hg with }
  | closes | returns => exact ⟨id, id, id, id, id⟩

theorem FinishStep.onward (hstep : FinishStep env f sent o) : Onward f o.flow := by
  -- Before the cause is set there is nothing to keep.
  have early : ∀ {g : Flow}, f.finish.pastCause = false →
      f.finish.pastCause = true → g.finish.pastCause = true := by
    intro g hfalse htrue
    rw [hfalse] at htrue
    cases htrue
  cases hstep with
  | stop hf | choose hf | put hf => exact ⟨id, id, id, early (hf ▸ rfl), id⟩
  | done => exact ⟨fun _ => rfl, id, id, fun _ => rfl, id⟩
  | _ => exact ⟨id, id, id, fun _ => rfl, id⟩

section

variable (hstep : Step env f action o)
include hstep

theorem Step.onward : Onward f o.flow := by
  cases hstep with
  | openSession hreserved _ hopen => exact hopen.onward hreserved
  | abandon hfailed =>
    exact ⟨fun _ => rfl, fun h => h.elim nofun nofun, fun htcp _ => htcp nofun,
      fun _ => rfl, fun hstarted => absurd (hfailed.symm.trans hstarted) nofun⟩
  | abandonEnding hfailed =>
    exact ⟨id, fun h => h.elim nofun nofun, fun htcp _ => htcp nofun, id,
      fun hstarted => absurd (hfailed.symm.trans hstarted) nofun⟩
  | closeAbandoned habandoned =>
    exact ⟨id, fun h => h.elim nofun nofun, fun htcp _ => htcp nofun, id,
      fun hstarted => absurd (habandoned.symm.trans hstarted) nofun⟩
  | writer _ hwrite => exact hwrite.onward
  | timer htimer => exact htimer.onward
  | finish hfinish => exact hfinish.onward
  | writeReturns | writeToReturns => exact .refl f
  | write | writeTo | timerFire => exact ⟨id, id, id, id, id⟩
  | close _ hidle => exact onward_beginFinish hidle _ _

/-- A session's own goroutines end it by `Close`, or because it could not be opened. -/
theorem Step.ender_cases : o.flow.ender = f.ender ∨ o.flow.ender = some .localClose ∨
      (o.flow.ender = some .failedOpen ∧ o.flow.opening ≠ .reserved ∧
        o.flow.opening ≠ .started) := by
  cases hstep with
  | openSession _ _ hopen =>
    cases hopen with
    | udp | delayed => exact .inl rfl
    | failed _ _ hnew | immediate _ _ hnew => exact .inl (hnew.keeps ender rfl)
  | abandon => exact .inr (.inr ⟨rfl, nofun, nofun⟩)
  | writer _ hwrite =>
    cases hwrite with
    | newFailed _ _ hnew | newSent _ _ hnew | newSkipped _ _ hnew =>
      exact .inl (hnew.keeps ender rfl)
    | _ => exact .inl rfl
  | timer htimer =>
    cases htimer with
    | newFailed _ hnew | new _ hnew => exact .inl (hnew.keeps ender rfl)
    | closes | returns => exact .inl rfl
  | finish hfinish => cases hfinish <;> exact .inl rfl
  | close => exact .inr (.inl rfl)
  | _ => exact .inl rfl

/-- What else ends a session is not a step of its own. -/
theorem Step.ender_eq {ender : Ender} (h : o.flow.ender = some ender)
    (hother : ender ≠ .localClose ∧ ender ≠ .failedOpen) : f.ender = some ender := by
  rcases hstep.ender_cases with hsame | hlocal | ⟨hfailed, -⟩
  · exact hsame ▸ h
  · exact absurd (Option.some.inj (h.symm.trans hlocal)) hother.1
  · exact absurd (Option.some.inj (h.symm.trans hfailed)) hother.2

end

end Monotone

end Flow

/-- The sessions that the loop of `worker.close` has still to visit. -/
def Teardown.pending : Teardown → List Nat
  | .running pending _ => pending
  | _ => []

namespace Uplink

variable {u u' : Uplink} {a : Action} {maxUses : Int} {ref : Nat} {f' f : Flow}

/-- `worker.close` does not become idle again. -/
theorem next_idle (hnext : u.next a = some u') (hidle : u'.teardown = .idle) :
    u.teardown = .idle := by
  have hchange := next_change hnext
  generalize u'.worker = w, u'.teardown = t, u'.origin = origin at hchange hidle
  cases hchange with
  | shutdown | visited | torn => cases hidle
  | _ => exact hidle

/-- A session of a table after an action keeps its flags in order. -/
theorem next_orderly (hnext : u.next a = some u') (hindexed : u.Indexed)
    (h : ∀ (ref : Nat) (f : Flow), u.flows[ref]? = some f → f.Orderly)
    (hf' : u'.flows[ref]? = some f') : f'.Orderly := by
  obtain ⟨frames, hevolves, -⟩ := next_evolves hnext hindexed.refs hf'
  cases hevolves with
  | same hf => exact h ref f' hf
  | step _ hf hstep => exact hstep.orderly (h ref _ hf)
  | remote _ hf hidle | teardown hf hidle => exact (h ref _ hf).beginFinish hidle _ _
  | fresh => exact Flow.orderly_fresh _

/-- The invariant of a carrier. A returned session is in the map, waits for the loop of
`close`, or is done: when `close` is over, it is done. -/
structure Tracked (maxUses : Int) (u : Uplink) : Prop where
  indexed : u.Indexed
  counting : Lifetime.Counting maxUses ⟨u.worker, u.flows.map Flow.toSessionRef⟩
  orderly : ∀ (ref : Nat) (f : Flow), u.flows[ref]? = some f → f.Orderly
  held : ∀ (ref : Nat) (f : Flow), u.flows[ref]? = some f →
    f.opening = .reserved ∨ f.opening = .started →
    f.done = true ∨ f.toSessionRef ∈ u.worker.sessions ∨ ref ∈ u.teardown.pending
  empty : u.teardown ≠ .idle → u.worker.sessions = [] ∧ u.worker.closed = true
  claimed : ∀ (ref : Nat) (f : Flow), u.flows[ref]? = some f →
    f.ender = some .workerClose → u.teardown ≠ .idle

theorem tracked_start (maxWorkerUses : Int) :
    (start maxWorkerUses).Tracked (poolMaxUses maxWorkerUses) where
  indexed := indexed_start maxWorkerUses
  counting := Lifetime.counting_start maxWorkerUses
  orderly ref f h := by simp [start] at h
  held ref f h := by simp [start] at h
  empty h := absurd rfl h
  claimed ref f h := by simp [start] at h

/-- When `worker.close` is over, every session that was returned is done. -/
theorem Tracked.done_of_torn (h : u.Tracked maxUses) (hf : u.flows[ref]? = some f)
    (hstarted : f.opening = .started) (htorn : u.teardown = .done) : f.done = true := by
  rcases h.held ref f hf (.inr hstarted) with hdone | hmem | hpending
  · exact hdone
  · rw [(h.empty (htorn ▸ nofun)).1] at hmem
    cases hmem
  · rw [htorn] at hpending
    cases hpending

/-- A session after an action is a new one, or goes on from before. -/
theorem Evolves.onward {frames : List Frame} (h : Evolves u a ref f' frames) :
    (∃ f, u.flows[ref]? = some f ∧ f.Onward f' ∧ f'.toSessionRef = f.toSessionRef) ∨
      ∃ s w limit packet, a = .reserve limit packet ∧ ref = u.flows.length ∧
        u.worker.reserve limit packet = some (s, w) ∧ f' = { toSessionRef := s } := by
  cases h with
  | same hf => exact .inl ⟨_, hf, .refl _, rfl⟩
  | step _ hf hstep => exact .inl ⟨_, hf, hstep.onward, hstep.signed.ref⟩
  | remote _ hf hidle
  | teardown hf hidle => exact .inl ⟨_, hf, Flow.onward_beginFinish hidle _ _, rfl⟩
  | fresh ha href hr => exact .inr ⟨_, _, _, _, ha, href, hr, rfl⟩

theorem next_refs (h : u.next a = some u') (hindexed : u.Indexed)
    (hreserve : ∀ limit packet, a ≠ .reserve limit packet) :
    u'.flows.map Flow.toSessionRef = u.flows.map Flow.toSessionRef := by
  refine List.ext_getElem? fun ref => ?_
  rw [List.getElem?_map, List.getElem?_map]
  cases hf' : u'.flows[ref]? with
  | none =>
    rw [List.getElem?_eq_none_iff, next_length h hreserve] at hf'
    rw [List.getElem?_eq_none_iff.mpr hf']
  | some f' =>
    obtain ⟨frames, hevolves, -⟩ := next_evolves h hindexed.refs hf'
    rcases hevolves.onward with ⟨f, hf, -, heq⟩ | ⟨s, w, limit, packet, ha, -⟩
    · rw [hf, Option.map_some, Option.map_some, heq]
    · exact absurd ha (hreserve limit packet)

section

variable (h : u.Tracked maxUses)
include h

theorem Tracked.counting_next (hmax : maxUses ≤ 65535) (hnext : u.next a = some u') :
    Lifetime.Counting maxUses ⟨u'.worker, u'.flows.map Flow.toSessionRef⟩ := by
  by_cases hreserve : ∃ limit packet, a = .reserve limit packet
  · obtain ⟨limit, packet, rfl⟩ := hreserve
    cases hnext
    unfold Uplink.reserve
    cases hr : u.worker.reserve limit packet with
    | none => exact h.counting
    | some result =>
      simp only [List.map_append, List.map_cons, List.map_nil]
      exact h.counting.reserve hmax hr
  · have hother : ∀ limit packet, a ≠ .reserve limit packet :=
      fun limit packet ha => hreserve ⟨limit, packet, ha⟩
    have hchange := next_change hnext
    rw [next_refs hnext h.indexed hother]
    generalize u'.worker = w, u'.teardown = t, u'.origin = origin at hchange
    cases hchange with
    | same | visited | torn => exact h.counting
    | reserve ha => exact absurd ha (hother _ _)
    | shutdown => exact h.counting.of_sessions rfl rfl fun s hs => absurd hs List.not_mem_nil
    | removeSession | abandonSession =>
      exact h.counting.of_sessions rfl rfl fun s hs => (Worker.mem_without.mp hs).1

/-- Sessions have different ids. -/
theorem Tracked.ref_eq {i j : Nat} {g : Flow} (hf : u.flows[i]? = some f)
    (hg : u.flows[j]? = some g) (hid : f.id = g.id) : i = j := by
  have hi := h.counting.ids i f.toSessionRef (by simp [hf])
  have hj := h.counting.ids j g.toSessionRef (by simp [hg])
  rw [hid] at hi
  omega

theorem Tracked.held_next (hmax : maxUses ≤ 65535) (hnext : u.next a = some u')
    (hf' : u'.flows[ref]? = some f') (hopen : f'.opening = .reserved ∨ f'.opening = .started) :
    f'.done = true ∨ f'.toSessionRef ∈ u'.worker.sessions ∨ ref ∈ u'.teardown.pending := by
  obtain ⟨frames, hevolves, -⟩ := next_evolves hnext h.indexed.refs hf'
  rcases hevolves.onward with ⟨f, hf, honward, heq⟩ | ⟨s, w, limit, packet, rfl, -, hr, rfl⟩
  · rw [heq]
    have hopen' := honward.opening hopen
    have hmap : (u.flows.map Flow.toSessionRef)[ref]? = some f.toSessionRef := by simp [hf]
    -- Deleting another session's id leaves this one in the map.
    have hstays : ∀ {j : Nat} {g : Flow}, u.flows[j]? = some g → j ≠ ref →
        f.toSessionRef ∈ u.worker.sessions →
        f.toSessionRef ∈ Worker.without u.worker.sessions g.id := by
      intro j g hg hne hmem
      refine Worker.mem_without.mpr ⟨hmem, fun hid => hne ?_⟩
      exact (h.ref_eq hf hg hid).symm
    have hchange := next_change hnext
    generalize u'.worker = w, u'.teardown = t, u'.origin = origin at hchange
    rcases h.held ref f hf hopen' with hdone | hmem | hpending
    · exact .inl (honward.done hdone)
    · cases hchange with
      | same | visited | torn => exact .inr (.inl hmem)
      | reserve _ hr =>
        obtain ⟨-, -, hlt, -, rfl⟩ := Worker.reserve_eq_some hr
        refine .inr (.inl (List.mem_append_left _ (Worker.mem_without.mpr ⟨hmem, fun hid => ?_⟩)))
        have hbound := h.counting.bound
        have hlength := h.counting.length
        have hids := h.counting.ids ref _ hmap
        have hlt' : ref < (u.flows.map Flow.toSessionRef).length := Table.lt_length hmap
        simp only at hbound hlength hids
        rw [hid, Lifetime.toNat_succ (by omega)] at hids
        omega
      | shutdown _ hperm =>
        refine .inr (.inr ?_)
        have href := h.indexed.refs ref f hf
        exact hperm.mem_iff.mpr (List.mem_map.mpr ⟨_, hmem, href⟩)
      | @removeSession j g hg hfinished =>
        by_cases hj : j = ref
        · subst hj
          rw [hf] at hg
          cases hg
          refine .inl (honward.done ?_)
          rw [(h.orderly j f hf).done, hfinished]
          rfl
        · exact .inr (.inl (hstays hg hj hmem))
      | @abandonSession j g failure hg hfailed =>
        by_cases hj : j = ref
        · subst hj
          rw [hf] at hg
          cases hg
          rw [hfailed] at hopen'
          exact absurd hopen' (by simp)
        · exact .inr (.inl (hstays hg hj hmem))
    · cases hchange with
      | shutdown hidle =>
        rw [hidle] at hpending
        cases hpending
      | @visited j rest cause g hrun hg hover =>
        rw [hrun] at hpending
        rcases List.mem_cons.mp hpending with rfl | hrest
        · rw [hf] at hg
          cases hg
          refine .inl (honward.done ?_)
          rw [(h.orderly ref f hf).done, hover]
          rfl
        · exact .inr (.inr hrest)
      | torn hrun =>
        rw [hrun] at hpending
        cases hpending
      | _ => exact .inr (.inr hpending)
  · cases hnext
    refine .inr (.inl ?_)
    obtain ⟨-, -, -, -, hw⟩ := Worker.reserve_eq_some hr
    simp [Uplink.reserve, hr, hw]

theorem Tracked.empty_next (hnext : u.next a = some u') (hrun : u'.teardown ≠ .idle) :
    u'.worker.sessions = [] ∧ u'.worker.closed = true := by
  have hchange := next_change hnext
  generalize u'.worker = w, u'.teardown = t, u'.origin = origin at hchange hrun
  have hwithout : ∀ {id}, u.teardown ≠ .idle → Worker.without u.worker.sessions id = [] := by
    intro id hne
    rw [(h.empty hne).1]
    rfl
  cases hchange with
  | same => exact h.empty hrun
  | reserve _ hr =>
    obtain ⟨hclosed, -⟩ := Worker.reserve_eq_some hr
    rw [(h.empty hrun).2] at hclosed
    cases hclosed
  | shutdown => exact ⟨rfl, rfl⟩
  | removeSession | abandonSession => exact ⟨hwithout hrun, (h.empty hrun).2⟩
  | visited hbefore | torn hbefore => exact h.empty (hbefore ▸ nofun)

end

theorem next_flow (hnext : u.next a = some u') (hindexed : u.Indexed)
    (hf : u.flows[ref]? = some f) :
    ∃ f', u'.flows[ref]? = some f' ∧ f'.toSessionRef = f.toSessionRef := by
  by_cases hreserve : ∃ limit packet, a = .reserve limit packet
  · obtain ⟨limit, packet, rfl⟩ := hreserve
    cases hnext
    refine ⟨f, ?_, rfl⟩
    unfold Uplink.reserve
    cases hr : u.worker.reserve limit packet with
    | none => exact hf
    | some result =>
      exact Table.getElem?_append hf _
  · have hrefs := next_refs hnext hindexed fun limit packet ha => hreserve ⟨limit, packet, ha⟩
    have hget : (u'.flows.map Flow.toSessionRef)[ref]? = some f.toSessionRef := by
      rw [hrefs, List.getElem?_map, hf, Option.map_some]
    rw [List.getElem?_map, Option.map_eq_some_iff] at hget
    exact hget

/-- A session was ended by the worker before, or the worker is closing. -/
theorem Evolves.worker_ender {frames : List Frame} (h : Evolves u a ref f' frames)
    (hender : f'.ender = some .workerClose) :
    (∃ f, u.flows[ref]? = some f ∧ f.ender = some .workerClose) ∨ u.teardown ≠ .idle := by
  cases h with
  | same hf => exact .inl ⟨f', hf, hender⟩
  | step _ hf hstep => exact .inl ⟨_, hf, hstep.ender_eq hender ⟨nofun, nofun⟩⟩
  | remote | fresh => cases hender
  | teardown _ _ hrun => exact .inr hrun

theorem Tracked.claimed_next (h : u.Tracked maxUses) (hnext : u.next a = some u')
    (hf' : u'.flows[ref]? = some f') (hender : f'.ender = some .workerClose) :
    u'.teardown ≠ .idle := by
  refine fun hidle => absurd (next_idle hnext hidle) ?_
  obtain ⟨frames, hevolves, -⟩ := next_evolves hnext h.indexed.refs hf'
  rcases hevolves.worker_ender hender with ⟨f, hf, hwas⟩ | hrun
  · exact h.claimed ref f hf hwas
  · exact hrun

theorem Tracked.next (h : u.Tracked maxUses) (hmax : maxUses ≤ 65535)
    (hnext : u.next a = some u') : u'.Tracked maxUses where
  indexed := h.indexed.next hnext
  counting := h.counting_next hmax hnext
  orderly _ _ hf' := next_orderly hnext h.indexed h.orderly hf'
  held _ _ hf' hopen := h.held_next hmax hnext hf' hopen
  empty hrun := h.empty_next hnext hrun
  claimed _ _ hf' hender := h.claimed_next hnext hf' hender

/-- A session comes into the map by its creation only. -/
theorem next_mapped (hnext : u.next a = some u') (hindexed : u.Indexed)
    (hf : u.flows[ref]? = some f) (hmem : f.toSessionRef ∈ u'.worker.sessions) :
    f.toSessionRef ∈ u.worker.sessions := by
  have hchange := next_change hnext
  generalize u'.worker = w, u'.teardown = t, u'.origin = origin at hchange hmem
  cases hchange with
  | same | visited | torn => exact hmem
  | reserve _ hr =>
    obtain ⟨-, -, -, hs, rfl⟩ := Worker.reserve_eq_some hr
    rcases List.mem_append.mp hmem with hold | hnew
    · exact (Worker.mem_without.mp hold).1
    · have href : f.ref = u.worker.opened := by rw [List.mem_singleton.mp hnew, hs]
      rw [hindexed.refs ref f hf, hindexed.opened] at href
      have hlt := Table.lt_length hf
      omega
  | shutdown => cases hmem
  | removeSession | abandonSession => exact (Worker.mem_without.mp hmem).1

/-- A session in the map is one of the carrier's sessions. -/
theorem Tracked.flow_of_mem (h : u.Tracked maxUses) {s : SessionRef}
    (hs : s ∈ u.worker.sessions) : ∃ f, u.flows[s.ref]? = some f ∧ f.toSessionRef = s := by
  obtain ⟨ref, href⟩ := List.mem_iff_getElem?.mp (h.counting.live s hs)
  obtain ⟨f, hf, heq⟩ := Option.map_eq_some_iff.mp (List.getElem?_map ▸ href)
  have hindex := h.indexed.refs ref f hf
  rw [← heq, hindex]
  exact ⟨f, hf, rfl⟩

end Uplink

end XrayMux
