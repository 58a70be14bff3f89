import Mathlib.Data.List.Nodup
import CheezyCore.AntiLag.LifecycleSteps

/-!
# No replay and no mixing of generations

What becomes of a datagram that was passed to `WriteTo` and of a packet that a path
received, in every interleaving with changes of the active path. `Comes` says how a thread
came to be where it is after an action; the three properties are invariants on top of it.
-/

namespace AntiLag

namespace Thread

/-- The thread has neither a datagram to hand over nor a packet to return. -/
def idle : Thread → Bool
  | .writeOffer _ | .loopCall .. | .readCheck .. | .readReturn .. => false
  | _ => true

end Thread

/-- A `change` after which its caller goes on to write. -/
def Call.writes (call : Call) : Bool :=
  match call.caller with
  | .initial _ | .reconnect => true
  | _ => false

/-- The thread is a `WriteTo` that may still hand over its datagram. -/
def Thread.writes : Thread → Bool
  | .enter call | .inspect call | .choose call .. | .install call .. | .discard call _
  | .closeOld call .. | .closeStale call .. | .leave call _ => call.writes
  | .bound .. | .await | .writeLock | .writeCheck | .writeLook | .writePick
  | .writeOffer _ => true
  | _ => false

section Steps

variable {t : ThreadId} {f f' : Flow} {th th' : Thread} {spawned : List Thread}

theorem idle_returns (call : Call) (result : Changed) : (call.returns result).idle = true := by
  fun_cases Call.returns call result with
  | case5 path write =>
    cases write <;> rfl
  | _ => rfl

theorem writes_returns {call : Call} {result : Changed}
    (h : (call.returns result).writes = true) : call.writes = true := by
  unfold Call.writes
  unfold Call.returns at h
  split at h
  · cases h
  next hcaller => rw [hcaller]
  next hcaller => rw [hcaller]
  · revert h
    unfold Thread.failed
    split
    · split <;> nofun
    · nofun

theorem idle_failed (write : Bool) : (Thread.failed write).idle = true := by
  cases write <;> rfl

theorem writes_failed (write : Bool) : (Thread.failed write).writes = false := by
  cases write <;> rfl

section

variable (steps : Thread.Steps t f th f' th' spawned)
include steps

/-- A thread takes a datagram to the active path, and a packet from it. -/
theorem Thread.Steps.idle : th'.idle = true ∨ (∃ p, th' = .writeOffer p ∧ f.active = some p) ∨
      ∃ p x, th = .readCheck p x ∧ th' = .readReturn p x ∧ f.active = some p ∧
        f.closed = false := by
  cases steps with
  | passes moves =>
    cases moves with
    | enterStop => exact .inl (idle_returns _ _)
    | failReturn => exact .inl (idle_failed _)
    | bound =>
      refine .inl ?_
      split <;> rfl
    | writePick active => exact .inr (.inl ⟨_, rfl, active⟩)
    | readCheck active isOpen => exact .inr (.inr ⟨_, _, rfl, rfl, active, isOpen⟩)
    | _ => exact .inl rfl
  | leave => exact .inl (idle_returns _ _)
  | failClose => exact .inl (idle_failed _)
  | _ => exact .inl rfl

theorem Thread.Steps.writes (h : th'.writes = true) : th.writes = true := by
  cases steps with
  | passes moves =>
    cases moves with
    | enterStop => exact writes_returns h
    | failReturn => exact absurd h (by simp [writes_failed])
    | bound => rfl
    | _ => first | exact h | rfl
  | leave => exact writes_returns h
  | failClose => exact absurd h (by simp [writes_failed])
  | _ => exact h

theorem Thread.Steps.spawned_idle : ∀ th ∈ spawned, th.idle = true := by
  cases steps with
  | closeStale =>
    simp only [List.mem_cons, List.not_mem_nil, or_false]
    rintro th (rfl | rfl | rfl) <;> rfl
  | _ => exact fun _ hmem => nomatch hmem

end

/-- What a step adds to the history. -/
inductive Records (t : ThreadId) (f : Flow) : Thread → Flow → Thread → Prop where
  | nothing {th th' : Thread} {f' : Flow} (handed : f'.handed = f.handed)
      (delivered : f'.delivered = f.delivered) : Records t f th f' th'
  | hand {p d} :
      Records t f (.loopCall p d) { f with handed := f.handed ++ [(d, p)] } (.loopReturn p d)
  | deliver {p x} :
      Records t f (.readReturn p x) { f with delivered := f.delivered ++ [(t, x, p)] } .done

theorem Thread.Steps.records (steps : Thread.Steps t f th f' th' spawned) :
    Records t f th f' th' := by
  have hclose : ∀ (drop : Option PathId) (th th' : Thread),
      Records t f th (f.closeOption drop) th' := by
    intro drop th th'
    cases drop <;> exact .nothing rfl rfl
  cases steps with
  | passes moves same => exact .nothing same.handed same.delivered
  | closeOld | warmClose => exact hclose _ _ _
  | closeStale =>
    split
    · exact .nothing rfl rfl
    · exact hclose _ _ _
  | warmLeave | failClear => split <;> exact .nothing rfl rfl
  | hand => exact .hand
  | deliver => exact .deliver
  | _ => exact .nothing rfl rfl

end Steps

variable {d t : ThreadId}

section Actions

variable {s s' : State} {a : Action}

/-- How a thread came to be where it is after an action. -/
inductive Comes (s : State) (a : Action) (s' : State) (t : ThreadId) (th' : Thread) : Prop where
  | stays (was : s.threads[t]? = some th') (other : ∀ choice, a ≠ .step t choice)
  | steps {choice th spawned} (is : a = .step t choice)
      (was : s.threads[t]? = some th) (steps : th.Steps t s.flow s'.flow th' spawned)
  | calls {d p} (is : a = .hand d t)
      (offer : s.threads[d]? = some (.writeOffer p)) (calls : th' = .loopCall p d)
  | takes {u p x} (is : a = .pass u t)
      (takes : th' = .readCheck p x)
  /-- It has just begun, or goes on waiting after it handed something over. -/
  | idles (idle : th'.idle = true) (begins : th'.writes = true → s.threads.length ≤ t)

theorem comes_spawn {th th' : Thread} (hidle : th.idle = true)
    (hother : ∀ choice, a ≠ .step t choice) (hth : (s.spawn th).threads[t]? = some th') :
    Comes s a s' t th' := by
  obtain hth | ⟨rfl, rfl⟩ := Table.getElem?_concat_cases hth
  · exact .stays hth hother
  · exact .idles hidle fun _ => le_rfl

section

variable (moves : s.Moves a s')
include moves

theorem State.Moves.comes {th' : Thread} (hth : s'.threads[t]? = some th') :
    Comes s a s' t th' := by
  cases moves with
  | @step u choice th thu f' spawned was steps =>
    rcases Nat.lt_or_ge t (s.threads.set u thu).length with hlt | hge
    · rw [List.getElem?_append_left hlt] at hth
      obtain ⟨hu, hth⟩ | ⟨rfl, rfl⟩ := Table.getElem?_set_cases hth
      · refine .stays hth ?_
        rintro _ ⟨⟩
        exact hu rfl
      · exact .steps rfl was steps
    · rw [List.getElem?_append_right hge] at hth
      rw [List.length_set] at hge
      exact .idles (steps.spawned_idle th' (List.mem_of_getElem? hth)) fun _ => hge
  | @hand d u p offer idle =>
    obtain ⟨hu, hth⟩ | ⟨rfl, rfl⟩ := Table.getElem?_set_cases hth
    · obtain ⟨hd, hth⟩ | ⟨rfl, rfl⟩ := Table.getElem?_set_cases hth
      · exact .stays hth (by rintro choice ⟨⟩)
      · exact .idles rfl (by rintro ⟨⟩)
    · exact .calls rfl offer rfl
  | @pass u v p x offer idle =>
    obtain ⟨hv, hth⟩ | ⟨rfl, rfl⟩ := Table.getElem?_set_cases hth
    · obtain ⟨hu, hth⟩ | ⟨rfl, rfl⟩ := Table.getElem?_set_cases hth
      · exact .stays hth (by rintro choice ⟨⟩)
      · exact .idles rfl (by rintro ⟨⟩)
    · exact .takes rfl rfl
  | cancel => exact .stays hth (by rintro choice ⟨⟩)
  | _ => exact comes_spawn rfl (by rintro choice ⟨⟩) hth

theorem State.Moves.length_le : s.threads.length ≤ s'.threads.length := by
  cases moves <;> simp [State.spawn]

/-- What an action adds to the history. -/
theorem State.Moves.records :
    (s'.flow.handed = s.flow.handed ∧ s'.flow.delivered = s.flow.delivered) ∨
    ∃ t choice th th', a = .step t choice ∧ s.threads[t]? = some th ∧ s'.threads[t]? = some th' ∧
      Records t s.flow th s'.flow th' := by
  cases moves with
  | @step t choice th th' f' spawned was steps =>
    refine .inr ⟨t, choice, th, th', rfl, was, ?_, steps.records⟩
    have hlt : t < s.threads.length := Table.lt_length was
    rw [List.getElem?_append_left (by rw [List.length_set]; exact hlt)]
    exact List.getElem?_set_self hlt
  | _ => exact .inl ⟨rfl, rfl⟩

/-- The datagrams that are handed over after an action. -/
theorem State.Moves.handed_cases :
    s'.flow.handed = s.flow.handed ∨ ∃ (u : ThreadId) (p : PathId) (d : ThreadId),
      s.threads[u]? = some (.loopCall p d) ∧ s'.threads[u]? = some (.loopReturn p d) ∧
        s'.flow.handed = s.flow.handed ++ [(d, p)] := by
  obtain ⟨hhanded, -⟩ | ⟨u, choice, th, th', -, was, now, records⟩ := moves.records
  · exact .inl hhanded
  · generalize hf : s'.flow = f' at records
    cases records with
    | nothing handed => exact .inl handed
    | hand => exact .inr ⟨u, _, _, was, now, rfl⟩
    | deliver => exact .inl rfl

/-- A writer calls its path only after it met the `WriteTo` of the datagram. -/
theorem State.Moves.calls {u : ThreadId} {p : PathId} (h : s'.threads[u]? = some (.loopCall p d)) :
    s.threads[u]? = some (.loopCall p d) ∨
      (a = .hand d u ∧ s.threads[d]? = some (.writeOffer p)) := by
  cases moves.comes h with
  | stays was => exact .inl was
  | steps _ _ steps =>
    obtain hidle | ⟨q, hq, -⟩ | ⟨q, x, -, hq, -⟩ := steps.idle
    · cases hidle
    · cases hq
    · cases hq
  | calls is offer calls =>
    cases calls
    exact .inr ⟨is, offer⟩
  | takes _ takes => cases takes
  | idles idle => cases idle

end

end Actions

variable {actions : List Action}

section Once

/-- The datagram was handed to a path, or the writer of one is about to. -/
def State.Sent (s : State) (d : ThreadId) : Prop :=
  d ∈ s.flow.handed.map Prod.fst ∨
    ∃ (u : ThreadId) (p : PathId), s.threads[u]? = some (.loopCall p d)

/-- The `WriteTo` has not begun, or may still hand over its datagram. -/
def State.Open (s : State) (d : ThreadId) : Prop :=
  ∀ th : Thread, s.threads[d]? = some th → th.writes = true

/-- No datagram is handed over twice. -/
structure Once (s : State) : Prop where
  nodup : (s.flow.handed.map Prod.fst).Nodup
  calling : ∀ (u : ThreadId) (p : PathId) (d : ThreadId),
    s.threads[u]? = some (.loopCall p d) → d ∉ s.flow.handed.map Prod.fst
  alone : ∀ (u : ThreadId) (p : PathId) (u' : ThreadId) (p' : PathId) (d : ThreadId),
    s.threads[u]? = some (.loopCall p d) → s.threads[u']? = some (.loopCall p' d) → u = u'
  unsent : ∀ d, s.Open d → ¬ s.Sent d

variable {s s' : State} {a : Action}

theorem open_of_offer {p : PathId} (h : s.threads[d]? = some (.writeOffer p)) : s.Open d := by
  intro th hth
  cases h.symm.trans hth
  rfl

/-- A `WriteTo` that is still open was so before and has not met a writer. -/
theorem State.Moves.open (moves : s.Moves a s') (h : s'.Open d) :
    s.Open d ∧ ∀ u, a ≠ .hand d u := by
  have hsome : ∀ th, s.threads[d]? = some th → ∃ th', s'.threads[d]? = some th' := by
    intro th hth
    have hlt := Table.lt_length hth
    exact ⟨_, List.getElem?_eq_getElem (hlt.trans_le moves.length_le)⟩
  constructor
  · intro th hth
    obtain ⟨th', hth'⟩ := hsome th hth
    have hwrites := h th' hth'
    cases moves.comes hth' with
    | stays was =>
      cases was.symm.trans hth
      exact hwrites
    | steps _ was steps =>
      cases was.symm.trans hth
      exact steps.writes hwrites
    | calls _ _ calls =>
      cases calls
      cases hwrites
    | takes _ takes =>
      cases takes
      cases hwrites
    | idles _ begins =>
      exact absurd (Table.lt_length hth) (Nat.not_lt.mpr (begins hwrites))
  · rintro u rfl
    cases moves with
    | @hand _ _ p offer idle =>
      have hne : d ≠ u := by
        rintro rfl
        cases offer.symm.trans idle
      have hlt : d < s.threads.length := Table.lt_length offer
      have hwait : ((s.threads.set d (.writeWait p)).set u (.loopCall p d))[d]? =
          some (.writeWait p) := by
        rw [List.getElem?_set_ne (Ne.symm hne)]
        exact List.getElem?_set_self hlt
      cases h _ hwait

theorem State.Moves.handed_mem (moves : s.Moves a s') (h : d ∈ s'.flow.handed.map Prod.fst) :
    s.Sent d := by
  obtain hhanded | ⟨u, p, d', was, -, hhanded⟩ := moves.handed_cases
  · rw [hhanded] at h
    exact .inl h
  · rw [hhanded, List.map_append, List.mem_append] at h
    obtain h | h := h
    · exact .inl h
    · cases List.mem_singleton.mp h
      exact .inr ⟨u, p, was⟩

/-- A datagram is sent because it was, or because its `WriteTo` has just met a writer. -/
theorem State.Moves.sent (moves : s.Moves a s') (h : s'.Sent d) :
    s.Sent d ∨ ∃ u, a = .hand d u := by
  obtain hmem | ⟨u, p, hcall⟩ := h
  · exact .inl (moves.handed_mem hmem)
  · obtain was | ⟨is, -⟩ := moves.calls hcall
    · exact .inl (.inr ⟨u, p, was⟩)
    · exact .inr ⟨u, is⟩

theorem Once.next (h : Once s) (hnext : s.next a = some s') : Once s' := by
  have moves := State.next_inv hnext
  refine { nodup := ?_, calling := ?_, alone := ?_, unsent := ?_ }
  · obtain hhanded | ⟨u, p, d, was, -, hhanded⟩ := moves.handed_cases
    · rw [hhanded]
      exact h.nodup
    · rw [hhanded, List.map_append, List.map_singleton, ← List.concat_eq_append]
      exact List.Nodup.concat (h.calling u p d was) h.nodup
  · intro u p d hcall hmem
    obtain was | ⟨is, offer⟩ := moves.calls hcall
    · -- the writer that has just called its path is another one
      obtain hhanded | ⟨u', p', d', was', now', hhanded⟩ := moves.handed_cases
      · rw [hhanded] at hmem
        exact h.calling u p d was hmem
      · rw [hhanded, List.map_append, List.mem_append] at hmem
        obtain hmem | hmem := hmem
        · exact h.calling u p d was hmem
        · cases List.mem_singleton.mp hmem
          cases h.alone u p u' p' _ was was'
          cases hcall.symm.trans now'
    · exact h.unsent d (open_of_offer offer) (moves.handed_mem hmem)
  · intro u p u' p' d hcall hcall'
    obtain was | ⟨is, offer⟩ := moves.calls hcall
    · obtain was' | ⟨is', offer'⟩ := moves.calls hcall'
      · exact h.alone u p u' p' d was was'
      · exact absurd (.inr ⟨u, p, was⟩) (h.unsent d (open_of_offer offer'))
    · obtain was' | ⟨is', offer'⟩ := moves.calls hcall'
      · exact absurd (.inr ⟨u', p', was'⟩) (h.unsent d (open_of_offer offer))
      · cases is.symm.trans is'
        rfl
  · intro d hopen hsent
    obtain ⟨hopen, hmet⟩ := moves.open hopen
    obtain hsent | ⟨u, is⟩ := moves.sent hsent
    · exact h.unsent d hopen hsent
    · exact hmet u is

theorem once_start (write : Bool) : Once (State.start write) := by
  have hcall : ∀ (u : ThreadId) (p : PathId) (d : ThreadId),
      (State.start write).threads[u]? ≠ some (.loopCall p d) := by
    intro u p d h
    cases u <;> cases h
  refine { nodup := List.nodup_nil, calling := ?_, alone := ?_, unsent := ?_ }
  · exact fun u p d h => absurd h (hcall u p d)
  · exact fun u p u' p' d h => absurd h (hcall u p d)
  · rintro d - (hmem | ⟨u, p, h⟩)
    · cases hmem
    · exact hcall u p d h

theorem once_run {write : Bool}
    (h : Transition.run State.next (State.start write) actions = some s) : Once s :=
  Transition.run_invariant (fun _ _ _ hs hnext => hs.next hnext) (once_start write) h

end Once

section Switches

variable {s s' : State} {a : Action} {o : PathId} {n : ThreadId}

/-- A path that left the flow, seen from the `WriteTo`s that began later: none of them has
picked it, none is in the hands of its writer, and none was handed to it. -/
structure Avoids (n : ThreadId) (o : PathId) (s : State) : Prop where
  gone : ∃ phase, Consistent phase s.flow s.threads ∧ phase o = .gone
  offer : ∀ d, n ≤ d → s.threads[d]? ≠ some (.writeOffer o)
  call : ∀ (u d : ThreadId), n ≤ d → s.threads[u]? ≠ some (.loopCall o d)
  handed : ∀ d, n ≤ d → (d, o) ∉ s.flow.handed

theorem Avoids.next (h : Avoids n o s) (hnext : s.next a = some s') : Avoids n o s' := by
  have moves := State.next_inv hnext
  obtain ⟨phase, hs, hgone⟩ := h.gone
  obtain ⟨phase', hs', grows⟩ := consistent_next hs hnext
  refine { gone := ⟨phase', hs', grows.gone o hgone⟩, offer := ?_, call := ?_, handed := ?_ }
  · intro d hd hoffer
    cases moves.comes hoffer with
    | stays was => exact h.offer d hd was
    | steps _ _ steps =>
      obtain hidle | ⟨q, hq, hactive⟩ | ⟨q, x, -, hq, -⟩ := steps.idle
      · cases hidle
      · -- a `WriteTo` picks the active path, and that is not gone
        cases hq
        cases hgone.symm.trans ((hs.active o).mp hactive)
      · cases hq
    | calls _ _ calls => cases calls
    | takes _ takes => cases takes
    | idles idle => cases idle
  · intro u d hd hcall
    obtain was | ⟨-, offer⟩ := moves.calls hcall
    · exact h.call u d hd was
    · exact h.offer d hd offer
  · intro d hd hmem
    obtain hhanded | ⟨u, p, d', was, -, hhanded⟩ := moves.handed_cases
    · rw [hhanded] at hmem
      exact h.handed d hd hmem
    · rw [hhanded, List.mem_append] at hmem
      obtain hmem | hmem := hmem
      · exact h.handed d hd hmem
      · cases List.mem_singleton.mp hmem
        exact h.call u d hd was

/-- A path that is gone is avoided by every `WriteTo` that has not begun. -/
theorem avoids_of_gone {phase : Lifecycle} (hs : Consistent phase s.flow s.threads) (once : Once s)
    (hgone : phase o = .gone) : Avoids s.threads.length o s := by
  have hnone : ∀ d : ThreadId, s.threads.length ≤ d → ∀ th, s.threads[d]? ≠ some th := by
    intro d hd th hth
    exact absurd (Table.lt_length hth) (Nat.not_lt.mpr hd)
  have hunsent : ∀ d : ThreadId, s.threads.length ≤ d → ¬ s.Sent d :=
    fun d hd => once.unsent d fun th hth => absurd hth (hnone d hd th)
  refine { gone := ⟨phase, hs, hgone⟩, offer := ?_, call := ?_, handed := ?_ }
  · exact fun d hd => hnone d hd _
  · exact fun u d hd hcall => hunsent d hd (.inr ⟨u, o, hcall⟩)
  · exact fun d hd hmem => hunsent d hd (.inl (List.mem_map_of_mem hmem))

theorem Avoids.run (h : Avoids n o s)
    (hrun : Transition.run State.next s actions = some s') : Avoids n o s' :=
  Transition.run_invariant (fun _ _ _ hs hnext => hs.next hnext) h hrun

end Switches

section Reads

variable {start s s' : State} {a : Action}

/-- In the run there is a step of the thread that found the path of the packet active and
the flow open, and the thread has not moved since. -/
def Checked (start : State) (actions : List Action) (t : ThreadId) (p : PathId) (x : Packet) :
    Prop :=
  ∃ past choice rest middle, actions = past ++ .step t choice :: rest ∧
    Transition.run State.next start past = some middle ∧
    middle.threads[t]? = some (.readCheck p x) ∧ middle.flow.active = some p ∧
    middle.flow.closed = false ∧ ∀ choice, .step t choice ∉ rest

/-- The packets that are about to be returned and those that were. -/
structure Reads (start : State) (actions : List Action) (s : State) : Prop where
  returning : ∀ (t : ThreadId) (p : PathId) (x : Packet),
    s.threads[t]? = some (.readReturn p x) → Checked start actions t p x
  delivered : ∀ (t : ThreadId) (x : Packet) (p : PathId), (t, x, p) ∈ s.flow.delivered →
    ∃ past choice rest, actions = past ++ .step t choice :: rest ∧ Checked start past t p x

theorem Checked.concat {p : PathId} {x : Packet} (h : Checked start actions t p x)
    (other : ∀ choice, a ≠ .step t choice) : Checked start (actions ++ [a]) t p x := by
  obtain ⟨past, choice, rest, middle, rfl, hrun, hcheck, hactive, hopen, hrest⟩ := h
  refine ⟨past, choice, rest ++ [a], middle, ?_, hrun, hcheck, hactive, hopen, ?_⟩
  · rw [List.append_assoc, List.cons_append]
  · intro choice hmem
    obtain hmem | hmem := List.mem_append.mp hmem
    · exact hrest choice hmem
    · exact other choice (List.mem_singleton.mp hmem).symm

theorem Reads.next
    (hrun : Transition.run State.next start actions = some s) (h : Reads start actions s)
    (hnext : s.next a = some s') : Reads start (actions ++ [a]) s' := by
  have moves := State.next_inv hnext
  refine { returning := ?_, delivered := ?_ }
  · intro t p x hreturn
    cases moves.comes hreturn with
    | stays was other => exact (h.returning t p x was).concat other
    | steps is was steps =>
      obtain hidle | ⟨q, hq, -⟩ | ⟨q, y, rfl, hq, hactive, hopen⟩ := steps.idle
      · cases hidle
      · cases hq
      · cases hq
        subst is
        exact ⟨actions, _, [], s, rfl, hrun, was, hactive, hopen, fun _ hmem => nomatch hmem⟩
    | calls _ _ calls => cases calls
    | takes _ takes => cases takes
    | idles idle => cases idle
  · intro t x p hmem
    have hwas : (t, x, p) ∈ s.flow.delivered → ∃ past choice rest,
        actions ++ [a] = past ++ .step t choice :: rest ∧ Checked start past t p x := by
      intro hmem
      obtain ⟨past, choice, rest, rfl, hchecked⟩ := h.delivered t x p hmem
      exact ⟨past, choice, rest ++ [a], by rw [List.append_assoc, List.cons_append], hchecked⟩
    obtain ⟨-, hdelivered⟩ | ⟨u, choice, th, th', is, was, now, records⟩ := moves.records
    · rw [hdelivered] at hmem
      exact hwas hmem
    · generalize s'.flow = f' at records hmem
      cases records with
      | nothing _ delivered =>
        rw [delivered] at hmem
        exact hwas hmem
      | hand => exact hwas hmem
      | deliver =>
        rcases Table.mem_concat hmem with hmem | hmem
        · exact hwas hmem
        · cases hmem
          subst is
          exact ⟨actions, choice, [], rfl, h.returning t p x was⟩

theorem reads_run {write : Bool}
    (h : Transition.run State.next (State.start write) actions = some s) :
    Reads (State.start write) actions s := by
  apply Transition.run_history _ _ h
  · refine ⟨?_, ?_⟩
    · intro t p x hreturn
      cases t <;> cases hreturn
    · rintro t x p ⟨⟩
  · exact fun past s' a t hrun hs hnext => hs.next hrun hnext

end Reads

/-- In every run: a datagram is handed over at most once, to one path; a `WriteTo` that
begins when a `change` is over is never handed to the path that it replaced; and a packet
is returned only after the same call of `WaitReadFrom` found its path active in the open
flow, with nothing but the return left to do. -/
theorem datagrams_unmixed {write : Bool} {s : State}
    (h : Transition.run State.next (State.start write) actions = some s) :
    (s.flow.handed.map Prod.fst).Nodup ∧
    (∀ (t : ThreadId) (call : Call) (o : PathId),
      s.threads[t]? = some (.leave call (.switched (some o))) →
      ∀ later s', Transition.run State.next s later = some s' →
        ∀ d, s.threads.length ≤ d → (d, o) ∉ s'.flow.handed) ∧
    ∀ (t : ThreadId) (x : Packet) (p : PathId), (t, x, p) ∈ s.flow.delivered →
      ∃ past choice rest, actions = past ++ .step t choice :: rest ∧
        Checked (State.start write) past t p x := by
  obtain ⟨phase, hs⟩ := consistent_run h
  have once := once_run h
  refine ⟨once.nodup, ?_, (reads_run h).delivered⟩
  intro t call o hleave later s' hrun
  have hgone : phase o = .gone := (hs.fits t _ hleave).2 o rfl
  exact ((avoids_of_gone hs once hgone).run hrun).handed

/-- A flow is opened with one member and a packet of its path reaches a `WaitReadFrom`,
which finds the path active; then a second member replaces the first. -/
def lateReturn : List Action :=
  opened 1 ++ [Action.read, .step 1 (.packet [7]), .pass 1 4, .step 4 .go, .switch []] ++
    changes 5 2 ++ [Action.step 5 .go, .step 5 .go, .step 5 .go] ++ [Action.step 4 .go]

theorem datagrams_unmixed_lateReturn :
    ∃ s, Transition.run State.next (State.start false) lateReturn = some s ∧
      ∃ past choice rest, lateReturn = past ++ .step 4 choice :: rest ∧
        Checked (State.start false) past 4 0 [7] := by
  refine ⟨_, (and_iff_left_of_imp fun h => ?_).mpr rfl⟩
  exact (datagrams_unmixed h).2.2 4 [7] 0 (List.mem_singleton_self _)

/-- The packet is returned although its path was replaced and closed after the check. -/
theorem returned_from_replaced_path :
    ∃ s, Transition.run State.next (State.start false) lateReturn = some s ∧
      s.flow.delivered = [(4, [7], 0)] ∧ s.flow.active = some 1 ∧ s.flow.isRetired 0 = true :=
  ⟨_, rfl, rfl, rfl, rfl⟩

end AntiLag
