import CheezyCore.XrayMux.Conservation
import CheezyCore.XrayMux.Delivery

/-!
# The bytes a session receives

`Read` returns, in order, the payloads of the frames that carry the session's id:
never anything else, and all of them before it reports the end, unless the session
or the carrier is closed from this side. `Intact` puts together what `Conserved` says
of the stream and `Delivered` of each session.
-/

namespace XrayMux

open BigEndian Chunks

namespace Downlink

variable {d d' : Downlink} {maxUses : Int} {ref : Nat} {f f' : Flow} {b b' : Inbox}

/-- What `readLoop` is doing with session `ref`. -/
def engages (loop : ReadLoop) (demux : Demux) (ref : Nat) : Engagement :=
  match loop, demux with
  | .pushing, .delivering r frame payload => if r = ref then .pushing ⟨frame, payload⟩ else .away
  | .pushed, .delivering r frame payload => if r = ref then .pushed ⟨frame, payload⟩ else .away
  | .finishing r, _ => if r = ref then .finishing else .away
  | _, _ => .away

/-- The frames handled for a session since it was registered. -/
def mine (d : Downlink) (f : Flow) (b : Inbox) : List DataFrame :=
  (d.handled.drop b.since).filter (DataFrame.isFor f.id)

/-- `Delivered` in a state of the downlink. -/
def Delivers (d : Downlink) (ref : Nat) (f : Flow) (b : Inbox) : Prop :=
  Delivered f b (d.mine f b) (f.toSessionRef ∈ d.uplink.worker.sessions) (d.loopClosed = true)
    (engages d.loop d.uplink.demux ref)

/-- The invariant of the downlink. -/
structure Intact (maxUses : Int) (d : Downlink) : Prop where
  conserved : d.Conserved
  tracked : d.uplink.Tracked maxUses
  length : d.inboxes.length = d.uplink.flows.length
  since : ∀ (ref : Nat) (b : Inbox), d.inboxes[ref]? = some b → b.since ≤ d.handled.length
  target : ∀ (ref : Nat) (frame : FrameMetadata) (payload : List UInt8),
    d.uplink.demux = .delivering ref frame payload → ref < d.uplink.flows.length
  awaited : ∀ ref, d.loop = .finishing ref → ref < d.uplink.flows.length
  delivers : ∀ (ref : Nat) (f : Flow) (b : Inbox), d.uplink.flows[ref]? = some f →
    d.inboxes[ref]? = some b → f.packet = false → d.Delivers ref f b

section Steps

variable {r : Nat} {frame : FrameMetadata} {payload : List UInt8} {u : Uplink} {a : Action}

/-- A session that does not exist yet is no concern of `readLoop`. -/
theorem Intact.engages_fresh (h : d.Intact maxUses) (href : d.uplink.flows.length ≤ ref) :
    engages d.loop d.uplink.demux ref = .away := by
  unfold engages
  split
  · next r frame payload _ hdemux =>
    have hlt := h.target r frame payload hdemux
    exact if_neg (by omega)
  · next r frame payload _ hdemux =>
    have hlt := h.target r frame payload hdemux
    exact if_neg (by omega)
  · next r hloop =>
    have hlt := h.awaited r hloop
    exact if_neg (by omega)
  · rfl

/-- The inbox of a session after a step of the uplink. -/
theorem sync_inbox (hb' : (d.sync u).inboxes[ref]? = some b')
    (hf' : u.flows[ref]? = some f') :
    (∃ b, d.inboxes[ref]? = some b ∧ b' = b.follow f') ∨
      (d.inboxes[ref]? = none ∧ b' = Inbox.follow f' { since := d.handled.length }) := by
  simp only [sync, List.getElem?_zipWith, hf'] at hb'
  generalize hfresh : List.replicate (u.flows.length - d.inboxes.length) _ = fresh at hb'
  cases hb : (d.inboxes ++ fresh)[ref]? with
  | none =>
    rw [hb] at hb'
    cases hb'
  | some b =>
    rw [hb] at hb'
    cases hb'
    rw [List.getElem?_append] at hb
    split at hb
    · exact .inl ⟨b, hb, rfl⟩
    · next hge =>
      refine .inr ⟨List.getElem?_eq_none_iff.mpr (Nat.not_lt.mp hge), ?_⟩
      rw [← hfresh] at hb
      rw [List.eq_of_mem_replicate (List.mem_of_getElem? hb)]

theorem sync_length (h : d.inboxes.length ≤ u.flows.length) :
    (d.sync u).inboxes.length = u.flows.length := by
  simp only [sync, List.length_zipWith, List.length_append, List.length_replicate]
  omega

theorem follow_since (f : Flow) (b : Inbox) : (b.follow f).since = b.since := by
  unfold Inbox.follow
  split
  · rfl
  · rfl

/-- The goroutines other than `readLoop` leave the demultiplexer alone. -/
theorem demux_of_allows (hallows : d.allows a = true) (hnext : d.uplink.next a = some u) :
    u.demux = d.uplink.demux := by
  cases a with
  | reserve limit packet =>
    cases hnext
    unfold Uplink.reserve
    split <;> rfl
  | session ref action order => exact (Uplink.session_cases hnext).2.1
  | receive | deliver => cases hallows
  | closeWorker external order => exact (Uplink.enterClose_frame hnext).2.2
  | closeStep => exact (Uplink.closeStep_cases hnext).2.1

section

variable (h : d.Intact maxUses)
include h

/-- A session follows the steps of the goroutines other than `readLoop`. -/
theorem Intact.delivers_act (hallows : d.allows a = true) (hnext : d.uplink.next a = some u)
    (hf' : u.flows[ref]? = some f') (hb' : (d.sync u).inboxes[ref]? = some b')
    (hstream : f'.packet = false) : (d.sync u).Delivers ref f' b' := by
  unfold Delivers
  rw [show (d.sync u).uplink.demux = d.uplink.demux from demux_of_allows hallows hnext]
  obtain ⟨frames, hevolves, -⟩ := Uplink.next_evolves hnext h.tracked.indexed.refs hf'
  -- A session that was there before goes on with its inbox.
  have goes : ∀ {f : Flow}, d.uplink.flows[ref]? = some f → f.Onward f' →
      f'.toSessionRef = f.toSessionRef →
      (f'.ender = some .remoteEnd → f.ender = some .remoteEnd) →
      (f'.ender = some .workerClose → f.ender = some .workerClose ∨ f.finish = .idle) →
      (f'.ender = some .failedOpen → f.ender = some .failedOpen ∨
        f'.opening ≠ .reserved ∧ f'.opening ≠ .started) →
      Delivered f' b' ((d.sync u).mine f' b') (f'.toSessionRef ∈ u.worker.sessions)
        (d.loopClosed = true) (engages d.loop d.uplink.demux ref) := by
    intro f hf honward href hremote hworker hlost
    rcases sync_inbox hb' hf' with ⟨b, hb, rfl⟩ | ⟨hnone, -⟩
    · have hmine : (d.sync u).mine f' (b.follow f') = d.mine f b := by
        rw [mine, follow_since, href]
        rfl
      have hpacket : f.packet = false := by
        rw [← hstream, href]
      have hdelivers := h.delivers ref f b hf hb hpacket
      rw [hmine, href]
      refine hdelivers.follow honward (Uplink.next_mapped hnext h.tracked.indexed hf) hremote
        hworker fun hfailed => ?_
      rcases hlost hfailed with hold | hnew
      · obtain ⟨hreserved, hstarted⟩ := hdelivers.lost hold
        have hback : ¬ (f'.opening = .reserved ∨ f'.opening = .started) := fun hopening =>
          (honward.opening hopening).elim hreserved hstarted
        exact not_or.mp hback
      · exact hnew
    · have hlt := Table.lt_length hf
      rw [List.getElem?_eq_none_iff, h.length] at hnone
      omega
  cases hevolves with
  | same hf => exact goes hf (.refl _) rfl id .inl .inl
  | step _ hf hstep =>
    refine goes hf hstep.onward hstep.signed.ref (hstep.ender_eq · ⟨nofun, nofun⟩)
      (.inl <| hstep.ender_eq · ⟨nofun, nofun⟩) fun hlost => ?_
    rcases hstep.ender_cases with hsame | hlocal | ⟨-, hopening⟩
    · exact .inl (hsame ▸ hlost)
    · cases hlocal.symm.trans hlost
    · exact .inr hopening
  | remote ha =>
    subst ha
    cases hallows
  | teardown hf hidle =>
    exact goes hf (Flow.onward_beginFinish hidle _ _) rfl nofun (fun _ => .inr hidle) nofun
  | fresh _ href =>
    rcases sync_inbox hb' hf' with ⟨b, hb, -⟩ | ⟨-, rfl⟩
    · have hlt := Table.lt_length hb
      rw [h.length] at hlt
      omega
    · have hmine : List.drop d.handled.length d.handled = [] := List.drop_length
      change Delivered _ { since := d.handled.length }
        ((List.drop d.handled.length d.handled).filter _) _ _ (engages d.loop d.uplink.demux ref)
      rw [h.engages_fresh (Nat.le_of_eq href.symm)]
      rw [hmine]
      exact .fresh _ _ _ _

/-- The session that the map has for the id of a frame, among all sessions. -/
theorem Intact.lookup (hf : d.uplink.flows[ref]? = some f) {s : SessionRef} {id : UInt16}
    (hs : d.uplink.worker.lookup id = some s) : s.ref = ref ↔ f.id = id := by
  obtain ⟨hmem, hid⟩ := Worker.lookup_eq_some hs
  obtain ⟨g, hg, hgs⟩ := h.tracked.flow_of_mem hmem
  constructor
  · intro href
    rw [href, hf] at hg
    cases hg
    rw [← hid, ← hgs]
  · intro heq
    refine h.tracked.ref_eq hg hf ?_
    rw [heq, ← hid, ← hgs]

theorem Intact.delivers_decode {x : DataFrame} {rest : List UInt8} {sent : Bool}
    (hloop : d.loop = .frame) (hreceive : d.uplink.receive x.header x.payload sent = some u)
    (hf : d.uplink.flows[ref]? = some f) (hb : d.inboxes[ref]? = some b)
    (hstream : f.packet = false) : Delivers { d with
      uplink := u, pending := rest, handled := d.handled ++ [x]
      loop := if u.demux = .reading then .frame else .pushing } ref f b := by
  have hended := Bool.eq_false_iff.mp (h.conserved.loopClosed_eq_false (hloop ▸ nofun))
  have hold := h.delivers ref f b hf hb hstream
  unfold Delivers at hold ⊢
  rw [hloop] at hold
  have hmine : mine { d with
      uplink := u, pending := rest, handled := d.handled ++ [x]
      loop := if u.demux = .reading then .frame else .pushing } f b =
      d.mine f b ++ [x].filter (DataFrame.isFor f.id) := by
    rw [mine, mine, ← List.filter_append]
    exact congrArg _ (List.drop_append_of_le_length (h.since ref b hb))
  rw [hmine]
  obtain ⟨replies, -, rfl, hreading, hwhy⟩ | ⟨s, hs, halive, rfl⟩ := Uplink.receive_inv hreceive
  · -- KeepAlive, or a frame for an id that is not in the map.
    rw [if_pos hreading]
    by_cases hfor : x.isFor f.id = true
    · rw [List.filter_singleton, hfor]
      refine hold.missed hended (fun hmem => ?_) x
      simp only [DataFrame.isFor, Bool.and_eq_true, decide_eq_true_eq] at hfor
      have hnone := hwhy.resolve_left hfor.2
      unfold Worker.lookup at hnone
      rw [List.find?_eq_none] at hnone
      exact hnone _ hmem (by simp [hfor.1])
    · rw [List.filter_singleton, Bool.eq_false_iff.mpr hfor, cond_false, List.append_nil]
      exact hold
  · rw [if_neg nofun]
    simp only [engages]
    have hwho := h.lookup hf hs
    have hfor : x.isFor f.id = decide (s.ref = ref) := by
      rw [Bool.eq_iff_iff, decide_eq_true_eq, hwho]
      simp only [DataFrame.isFor, Bool.and_eq_true, decide_eq_true_eq]
      exact ⟨fun hor => hor.1.symm, fun heq => ⟨heq.symm, halive⟩⟩
    rw [List.filter_singleton, hfor]
    split
    next href =>
      rw [decide_eq_true href]
      obtain ⟨hmem, -⟩ := Worker.lookup_eq_some hs
      obtain ⟨g, hg, hgs⟩ := h.tracked.flow_of_mem hmem
      rw [href, hf] at hg
      cases hg
      exact hold.found hended (hgs ▸ hmem) x
    next href =>
      rw [decide_eq_false href, cond_false, List.append_nil]
      exact hold

theorem Intact.delivers_deliver {order : List Nat} (hloop : d.loop = .pushed)
    (hdemux : d.uplink.demux = .delivering r frame payload)
    (hdeliver : d.uplink.deliver order = some u) (hf' : u.flows[ref]? = some f')
    (hb : d.inboxes[ref]? = some b) (hstream : f'.packet = false) : Delivers { d with
      uplink := u
      loop := if u.demux = .stopped then .stopped
        else if (Uplink.remoteEnding frame).isSome then .finishing r else .frame } ref f' b := by
  have hmapped : ∀ {f : Flow}, d.uplink.flows[ref]? = some f →
      f.toSessionRef ∈ u.worker.sessions → f.toSessionRef ∈ d.uplink.worker.sessions :=
    Uplink.next_mapped (a := .deliver order) hdeliver h.tracked.indexed
  have hterminal : (Uplink.remoteEnding frame).isSome = DataFrame.terminal ⟨frame, payload⟩ :=
    remoteEnding_isSome ⟨frame, payload⟩
  obtain ⟨_, _, _, g, hdemux', hg, hcases⟩ := Uplink.deliver_inv hdeliver
  cases hdemux.symm.trans hdemux'
  obtain ⟨e, hpacket, -, hclose⟩ | rfl | ⟨ending, hending, hidle, rfl⟩ := hcases
  · -- A packet closed the carrier; the stream sessions are not concerned.
    obtain ⟨hflows, -, hstopped⟩ := Uplink.enterClose_frame hclose
    rw [hflows] at hf'
    have hold := h.delivers ref f' b hf' hb hstream
    have hne : r ≠ ref := by
      rintro rfl
      rw [hf'] at hg
      cases hg
      rw [hstream] at hpacket
      cases hpacket
    unfold Delivers at hold ⊢
    simp only [hloop, hdemux, engages, if_neg hne] at hold
    rw [if_pos hstopped]
    exact hold.unmap (hmapped hf')
  · have hold := h.delivers ref f' b hf' hb hstream
    unfold Delivers at hold ⊢
    simp only [hloop, hdemux, engages] at hold
    rw [if_neg nofun]
    by_cases hend : (Uplink.remoteEnding frame).isSome = true
    · simp only [if_pos hend, engages]
      split at hold
      · next href =>
        rw [if_pos href]
        exact hold.await.unmap (hmapped hf')
      · next href =>
        rw [if_neg href]
        exact hold.unmap (hmapped hf')
    · simp only [if_neg hend, engages]
      split at hold
      · refine (hold.settle ?_).unmap (hmapped hf')
        rw [← hterminal]
        exact Bool.eq_false_iff.mpr hend
      · exact hold.unmap (hmapped hf')
  · have hend : (Uplink.remoteEnding frame).isSome = true := by rw [hending]; rfl
    unfold Delivers
    rw [if_neg nofun, if_pos hend]
    simp only [engages]
    rcases Table.getElem?_set_cases hf' with ⟨hne, hf'⟩ | ⟨rfl, rfl⟩
    · have hold := h.delivers ref f' b hf' hb hstream
      unfold Delivers at hold
      simp only [hloop, hdemux, engages, if_neg hne] at hold
      rw [if_neg hne]
      exact hold.unmap (hmapped hf')
    · have hold := h.delivers r g b hg hb hstream
      unfold Delivers at hold
      simp only [hloop, hdemux, engages, if_true] at hold
      rw [if_pos rfl]
      exact (hold.finish (hterminal ▸ hend) hidle ending).unmap fun hmem => hmapped hg hmem

theorem Intact.delivers_endLoop {external : External} {order : List Nat} (hloop : d.loop = .frame)
    (hclose : d.uplink.enterClose external.failure order = some u) (hf' : u.flows[ref]? = some f')
    (hb : d.inboxes[ref]? = some b) (hstream : f'.packet = false) : Delivers { d with
      uplink := u, loop := .stopped
      loopClosed := d.loopClosed || d.uplink.teardown = .idle } ref f' b := by
  rw [(Uplink.enterClose_frame hclose).1] at hf'
  have hold := h.delivers ref f' b hf' hb hstream
  have hmapped : f'.toSessionRef ∈ u.worker.sessions →
      f'.toSessionRef ∈ d.uplink.worker.sessions :=
    Uplink.next_mapped (a := .closeWorker external order) hclose h.tracked.indexed hf'
  unfold Delivers at hold ⊢
  rw [hloop] at hold
  refine { hold.unmap hmapped with last := fun hended hopening hor => ?_ }
  rw [h.conserved.loopClosed_eq_false (hloop ▸ nofun), Bool.false_or, decide_eq_true_eq] at hended
  -- The worker was not closing, so a session with an open pipe is in the map.
  have hopen : b.pipe.closed = false :=
    hor.resolve_right fun hender => h.tracked.claimed ref f' hf' hender hended
  have hmem : f'.toSessionRef ∈ d.uplink.worker.sessions := by
    rcases h.tracked.held ref f' hf' hopening with hdone | hmem | hpending
    · rw [(h.tracked.orderly ref f' hf').done] at hdone
      rw [hold.closed, Finish.pastCause_of_pastDone hdone] at hopen
      cases hopen
    · exact hmem
    · rw [hended] at hpending
      cases hpending
  exact (List.append_nil _).symm.trans (hold.whole hopen (.inl hmem))

end

theorem tracked_moves (h : d.uplink.Tracked maxUses) (hmax : maxUses ≤ 65535)
    (hmoves : Moves d d') : d'.uplink.Tracked maxUses := by
  cases hmoves with
  | act _ hnext => exact h.next hmax hnext
  | @endLoop external order _ _ _ _ _ hclose =>
    exact h.next (a := .closeWorker external order) hmax hclose
  | @decode x _ sent _ _ _ hreceive =>
    exact h.next (a := .receive x.header x.payload sent) hmax hreceive
  | @deliver _ _ _ order _ _ _ hdeliver => exact h.next (a := .deliver order) hmax hdeliver
  | refuse => exact { h with indexed := { h.indexed with } }
  | _ => exact h

/-- A step of the uplink takes no session away. -/
theorem Intact.flows_length_le (h : d.Intact maxUses) (hnext : d.uplink.next a = some u) :
    d.uplink.flows.length ≤ u.flows.length := by
  refine Nat.le_of_not_lt fun hlt => ?_
  have hf := List.getElem?_eq_getElem hlt
  obtain ⟨f', hf', -⟩ := Uplink.next_flow hnext h.tracked.indexed hf
  have hlt' := Table.lt_length hf'
  omega

theorem Intact.length_moves (h : d.Intact maxUses) (hmoves : Moves d d') :
    d'.inboxes.length = d'.uplink.flows.length := by
  have hlength := h.length
  cases hmoves with
  | act _ hnext => exact sync_length (hlength ▸ h.flows_length_le hnext)
  | @endLoop external order _ _ _ _ _ hclose =>
    exact hlength.trans (Uplink.next_length (a := .closeWorker external order) hclose nofun).symm
  | @decode x _ sent _ _ _ hreceive =>
    exact hlength.trans
      (Uplink.next_length (a := .receive x.header x.payload sent) hreceive nofun).symm
  | @deliver _ _ _ order _ _ _ hdeliver =>
    exact hlength.trans (Uplink.next_length (a := .deliver order) hdeliver nofun).symm
  | pushPacket | push | report | inbox => exact List.length_set.trans hlength
  | _ => exact hlength

theorem inbox_since (h : InboxMove b b') : b'.since = b.since := by
  cases h <;> rfl

section

variable (h : d.Intact maxUses) (hmoves : Moves d d')
include h hmoves

theorem Intact.since_moves (hb' : d'.inboxes[ref]? = some b') : b'.since ≤ d'.handled.length := by
  -- A replaced inbox keeps the number of frames at its creation.
  have replaced : ∀ {i : Nat} {b b₁ : Inbox}, d.inboxes[i]? = some b →
      (d.inboxes.set i b₁)[ref]? = some b' → b₁.since = b.since → b'.since ≤ d.handled.length := by
    intro i b b₁ hb hset hsince
    rcases Table.getElem?_set_cases hset with ⟨-, hold⟩ | ⟨rfl, rfl⟩
    · exact h.since ref b' hold
    · exact hsince ▸ h.since i b hb
  cases hmoves with
  | act _ hnext =>
    have hlt := Table.lt_length hb'
    rw [sync_length (h.length ▸ h.flows_length_le hnext)] at hlt
    rcases sync_inbox hb' (List.getElem?_eq_getElem hlt) with ⟨b, hb, rfl⟩ | ⟨-, rfl⟩
    · rw [follow_since]
      exact h.since ref b hb
    · rw [follow_since]
      exact Nat.le_refl _
  | decode =>
    have hold := h.since ref b' hb'
    rw [List.length_append]
    omega
  | pushPacket _ _ _ hb | push _ _ _ hb | report _ hb => exact replaced hb hb' rfl
  | inbox hb hmove => exact replaced hb hb' (inbox_since hmove)
  | _ => exact h.since ref b' hb'

theorem Intact.target_moves (hdemux' : d'.uplink.demux = .delivering r frame payload) :
    r < d'.uplink.flows.length := by
  cases hmoves with
  | act hallows hnext =>
    rw [show (d.sync _).uplink.demux = d.uplink.demux from demux_of_allows hallows hnext]
      at hdemux'
    exact Nat.lt_of_lt_of_le (h.target r frame payload hdemux') (h.flows_length_le hnext)
  | @endLoop external order _ _ _ _ _ hclose =>
    rw [(Uplink.enterClose_frame hclose).2.2] at hdemux'
    exact Nat.lt_of_lt_of_le (h.target r frame payload hdemux')
      (h.flows_length_le (a := .closeWorker external order) hclose)
  | decode hloop hread hreceive =>
    obtain ⟨replies, -, rfl, hreading, -⟩ | ⟨s, hs, -, rfl⟩ := Uplink.receive_inv hreceive
    · cases hreading.symm.trans hdemux'
    · cases hdemux'
      obtain ⟨g, hg, -⟩ := h.tracked.flow_of_mem (Worker.lookup_eq_some hs).1
      exact Table.lt_length hg
  | deliver _ _ hdeliver =>
    obtain ⟨_, _, _, _, -, -, ⟨_, -, -, hclose⟩ | rfl | ⟨_, -, -, rfl⟩⟩ :=
      Uplink.deliver_inv hdeliver
    · cases (Uplink.enterClose_frame hclose).2.2.symm.trans hdemux'
    · cases hdemux'
    · cases hdemux'
  | refuse => cases hdemux'
  | _ => exact h.target r frame payload hdemux'

theorem Intact.awaited_moves (hloop' : d'.loop = .finishing r) : r < d'.uplink.flows.length := by
  cases hmoves with
  | act _ hnext => exact Nat.lt_of_lt_of_le (h.awaited r hloop') (h.flows_length_le hnext)
  | decode =>
    split at hloop'
    · cases hloop'
    · cases hloop'
  | @deliver ref frame payload order _ _ hdemux hdeliver =>
    split at hloop'
    · cases hloop'
    · split at hloop' <;> cases hloop'
      exact Nat.lt_of_lt_of_le (h.target r frame payload hdemux)
        (h.flows_length_le (a := .deliver order) hdeliver)
  | endLoop | refuse | skip | pushPacket | push | resume => cases hloop'
  | _ => exact h.awaited r hloop'

theorem Intact.delivers_moves (hf : d'.uplink.flows[ref]? = some f) (hb : d'.inboxes[ref]? = some b)
    (hstream : f.packet = false) : d'.Delivers ref f b := by
  cases hmoves with
  | act hallows hnext => exact h.delivers_act hallows hnext hf hb hstream
  | endLoop hloop _ _ hclose => exact h.delivers_endLoop hloop hclose hf hb hstream
  | @decode _ _ _ u hloop _ hreceive =>
    have hflows : u.flows = d.uplink.flows := by
      obtain ⟨_, -, rfl, -⟩ | ⟨_, -, -, rfl⟩ := Uplink.receive_inv hreceive <;> rfl
    exact h.delivers_decode hloop hreceive (hflows ▸ hf) hb hstream
  | deliver hloop hdemux hdeliver => exact h.delivers_deliver hloop hdemux hdeliver hf hb hstream
  | @skip r frame payload g hloop hdemux hg hwhy =>
    have hold := h.delivers ref f b hf hb hstream
    unfold Delivers at hold ⊢
    simp only [hloop, hdemux, engages] at hold ⊢
    by_cases href : r = ref
    · subst href
      rw [hf] at hg
      cases hg
      rw [if_pos rfl] at hold ⊢
      refine hold.skip (hwhy.resolve_right fun hpacket => ?_)
      rw [hstream] at hpacket
      cases hpacket
    · rw [if_neg href] at hold ⊢
      exact hold
  | @pushPacket r frame payload g b₀ packets hloop hdemux hg hb₀ hpacket =>
    have hne : r ≠ ref := by
      rintro rfl
      rw [hf] at hg
      cases hg
      rw [hstream] at hpacket
      cases hpacket
    rw [List.getElem?_set_ne hne] at hb
    have hold := h.delivers ref f b hf hb hstream
    unfold Delivers at hold ⊢
    simp only [hloop, hdemux, engages, if_neg hne] at hold ⊢
    exact hold
  | @push r frame payload g b₀ p hloop hdemux hg hb₀ _ hne hwrite =>
    have hended := Bool.eq_false_iff.mp (h.conserved.loopClosed_eq_false (hloop ▸ nofun))
    rcases Table.getElem?_set_cases hb with ⟨href, hb⟩ | ⟨rfl, rfl⟩
    · have hold := h.delivers ref f b hf hb hstream
      unfold Delivers at hold ⊢
      simp only [hloop, hdemux, engages, if_neg href] at hold ⊢
      exact hold
    · have hold := h.delivers r f b₀ hf hb₀ hstream
      unfold Delivers at hold ⊢
      simp only [hloop, hdemux, engages, if_true] at hold ⊢
      exact hold.push hended hne hwrite
  | @refuse r frame payload g b₀ hloop hdemux hg hb₀ hwhy =>
    have hold := h.delivers ref f b hf hb hstream
    unfold Delivers at hold
    simp only [hloop, hdemux, engages] at hold
    split at hold
    · next href =>
      subst href
      change d.uplink.flows[r]? = some f at hf
      change d.inboxes[r]? = some b at hb
      rw [hf] at hg
      rw [hb] at hb₀
      cases hg
      cases hb₀
      rcases hwhy with ⟨-, hclosed⟩ | ⟨hpacket, -⟩
      · exact hold.leave hclosed
      · rw [hstream] at hpacket
        cases hpacket
    · exact hold
  | @resume r g hloop hg hcomplete =>
    have hold := h.delivers ref f b hf hb hstream
    unfold Delivers at hold ⊢
    simp only [hloop, engages] at hold
    split at hold
    · next href =>
      subst href
      rw [hf] at hg
      cases hg
      refine hold.leave ?_
      rw [hold.closed, hcomplete]
      rfl
    · exact hold
  | report hg hb₀ hstarted hidle hchunks hclosed =>
    rcases Table.getElem?_set_cases hb with ⟨-, hb⟩ | ⟨rfl, rfl⟩
    · exact h.delivers ref f b hf hb hstream
    · rw [hf] at hg
      cases hg
      exact (h.delivers _ f _ hf hb₀ hstream).report hstarted hidle hchunks hclosed _
  | @inbox r b₀ _ hb₀ hmove =>
    rcases Table.getElem?_set_cases hb with ⟨-, hb⟩ | ⟨rfl, rfl⟩
    · exact h.delivers ref f b hf hb hstream
    · have hold := h.delivers _ f _ hf hb₀ hstream
      unfold Delivers at hold ⊢
      have hmine : d.mine f b = d.mine f b₀ := by rw [mine, mine, inbox_since hmove]
      rw [← hmine] at hold
      exact hold.inbox hmove
  | _ => exact h.delivers ref f b hf hb hstream

end

theorem intact_start (maxWorkerUses : Int) :
    (start maxWorkerUses).Intact (poolMaxUses maxWorkerUses) where
  conserved := conserved_start maxWorkerUses
  tracked := Uplink.tracked_start maxWorkerUses
  length := rfl
  since ref b h := by simp [start] at h
  target := nofun
  awaited := nofun
  delivers ref f b h := by simp [start, Uplink.start] at h

theorem Intact.next (h : d.Intact maxUses) (hmax : maxUses ≤ 65535) {a : DownAction}
    (hnext : d.next a = some d') : d'.Intact maxUses := by
  have hmoves := next_moves hnext
  exact {
    conserved := h.conserved.moves hmoves
    tracked := tracked_moves h.tracked hmax hmoves
    length := h.length_moves hmoves
    since := fun _ _ hb => h.since_moves hmoves hb
    target := fun _ _ _ hdemux => h.target_moves hmoves hdemux
    awaited := fun _ hloop => h.awaited_moves hmoves hloop
    delivers := fun _ _ _ hf hb hstream => h.delivers_moves hmoves hf hb hstream }

end Steps

/-- The bytes received so far are these well-formed frames, then the beginning of another
one: any part of a stream of well-formed frames is of this form. -/
structure Received (d : Downlink) (frames : List DataFrame) : Prop where
  valid : ∀ x ∈ frames, x.WellFormed
  bytes : ∃ tail, dataFraming.Incomplete tail ∧ d.received = dataFraming.stream frames ++ tail

/-- The session was not ended by its own `Close`, and by the end of the worker only if
`readLoop` had closed the worker at the end of the stream. -/
def Undisturbed (d : Downlink) (f : Flow) : Prop :=
  f.ender ≠ some .localClose ∧ (f.ender = some .workerClose → d.loopClosed = true)

/-- What a stream session with this inbox can rely on. -/
structure Integrity (d : Downlink) (frames : List DataFrame) (f : Flow) (b : Inbox) : Prop where
  pipe : b.pipe.Valid sessionPipeLimit
  order : b.returned <+: bytesFor f.id (frames.drop b.since)
  whole : b.reported ≠ none → d.Undisturbed f →
    b.returned = bytesFor f.id (frames.drop b.since)

theorem Intact.integrity (h : d.Intact maxUses) {frames : List DataFrame}
    (hreceived : d.Received frames) (hf : d.uplink.flows[ref]? = some f)
    (hb : d.inboxes[ref]? = some b) (hstream : f.packet = false) : d.Integrity frames f b := by
  obtain ⟨hframes, tail, htail, hbytes⟩ := hreceived
  obtain ⟨rest, rfl, hrest⟩ := h.conserved.handled hframes htail hbytes
  have hold : Delivered f b (d.mine f b) _ _ _ := h.delivers ref f b hf hb hstream
  have hsplit : bytesFor f.id ((d.handled ++ rest).drop b.since) =
      payloadBytes (d.mine f b ++ rest.filter (DataFrame.isFor f.id)) := by
    rw [bytesFor, List.drop_append_of_le_length (h.since ref b hb), List.filter_append]
    rfl
  refine ⟨hold.pipe, ?_, fun hreported hundisturbed => ?_⟩
  · rw [hsplit]
    have hreturned : b.returned <+: b.poured := List.prefix_append _ _
    exact (hreturned.trans hold.poured).trans (payloadBytes_isPrefix _ _)
  · obtain ⟨hlocal, hworker⟩ := hundisturbed
    obtain ⟨hstarted, hclosed, hchunks, hidle⟩ := hold.reported hreported
    have hreturned : b.returned = b.poured := by
      rw [Inbox.poured, hidle, SessionPipe.contents, hchunks]
      exact (List.append_nil _).symm
    have hfinish : f.finish ≠ .idle := by
      intro hno
      rw [hold.closed, hno] at hclosed
      cases hclosed
    have hender := (h.tracked.orderly ref f hf).ender hfinish
    rw [hsplit, hreturned]
    cases hwho : f.ender with
    | none => exact absurd hwho hender
    | some ender =>
      cases ender with
      | localClose => exact absurd hwho hlocal
      | failedOpen => exact absurd hstarted (hold.lost hwho).2
      | remoteEnd =>
        obtain ⟨hpoured, hterminal⟩ := hold.remote hwho
        rw [payloadBytes_append hterminal]
        exact hpoured
      | workerClose =>
        have hlast := hworker hwho
        rw [hrest hlast, List.filter_nil, List.append_nil]
        exact hold.last hlast (.inr hstarted) (.inr hwho)

/-- In every execution, whatever well-formed frames the carrier delivers and however it
cuts them: both kinds of pipe count their bytes and keep their limit, and what a
session's `Read` calls return is, in order, what the frames for it carry up to its
End or Error frame; all of it, unless a close from this side ended the session. -/
theorem integrity_of_received (maxWorkerUses : Int) (hmax : maxWorkerUses ≤ 65535)
    (actions : List DownAction) (hrun : Transition.run next (start maxWorkerUses) actions = some d)
    (frames : List DataFrame) (hreceived : d.Received frames) :
    d.carrier.Valid carrierDownlinkLimit ∧
      ∀ (ref : Nat) (f : Flow) (b : Inbox), d.uplink.flows[ref]? = some f →
        d.inboxes[ref]? = some b → f.packet = false → d.Integrity frames f b := by
  have h : d.Intact (poolMaxUses maxWorkerUses) := Transition.run_invariant
    (fun _ _ _ hd hnext => hd.next (poolMaxUses_le hmax) hnext) (intact_start maxWorkerUses) hrun
  exact ⟨h.conserved.carrier, fun _ _ _ hf hb hstream => h.integrity hreceived hf hb hstream⟩

/-- A frame for session 1 without a target. -/
def bareFrame (status option : UInt8) (payload : List UInt8) : DataFrame :=
  ⟨{ id := 1, status, option, target := none, globalID := Fixed.zero 8 }, payload⟩

theorem bareFrame_wellFormed {status option : UInt8} {payload : List UInt8}
    (hstatus : status = statusKeep ∨ status = statusEnd ∨ status = statusKeepAlive)
    (hoption : ¬ strayOption option) (hsize : payload.length < 65536)
    (hbare : option &&& optionData = 0 → payload = []) :
    (bareFrame status option payload).WellFormed := by
  refine ⟨⟨⟨.inr hstatus, fun hnew => ?_, fun _ => rfl, nofun, fun _ => rfl⟩, hoption⟩,
    hsize, hbare⟩
  change status = statusNew at hnew
  rw [hnew] at hstatus
  exact absurd hstatus (by decide)

/-- Nothing is the beginning of a frame. -/
theorem incomplete_nil : dataFraming.Incomplete [] :=
  ⟨bareFrame statusEnd 0 [], (bareFrame statusEnd 0 []).wire,
    bareFrame_wellFormed (.inr (.inl rfl)) (by decide) (by decide) fun _ => rfl, by decide, rfl⟩

/-- A session for which the peer sends the given frames, in two reads of the connection. -/
def receivingRun (frames : List DataFrame) (handle : List DownAction) : List DownAction :=
  [.act (.reserve 8 false),
   .act (.session 0 (.openSession { netWork := .TCP, host := [0x61], dstPort := 443 } none 100 true)
     []),
   .carrierRead ((dataFraming.stream frames).take 5) none, .carrierWrite, .fill [],
   .carrierRead ((dataFraming.stream frames).drop 5) none, .carrierWrite, .fill []] ++ handle

def greeting : List DataFrame := [bareFrame statusKeep optionData [1, 2], bareFrame statusEnd 0 []]

theorem greeting_wellFormed : ∀ x ∈ greeting, x.WellFormed := by
  intro x hx
  simp only [greeting, List.mem_cons, List.not_mem_nil, or_false] at hx
  rcases hx with rfl | rfl
  · exact bareFrame_wellFormed (.inl rfl) (by decide) (by decide) (by decide)
  · exact bareFrame_wellFormed (.inr (.inl rfl)) (by decide) (by decide) (by decide)

/-- Both frames are delivered, the session ends, `Read` returns the bytes and then the
end of file. -/
def greetingRun : List DownAction :=
  receivingRun greeting
    [.decode true [], .push false, .deliver [], .decode true [], .push false, .deliver [],
     .act (.session 0 (.finishStep true) []), .act (.session 0 (.finishStep true) []),
     .act (.session 0 (.finishStep true) []), .act (.session 0 (.finishStep true) []),
     .act (.session 0 (.finishStep true) []), .act (.session 0 (.finishStep true) []),
     .resume, .read 0 8 false, .drain 0, .read 0 8 false]

theorem integrity_greetingRun :
    ∃ d f b, Transition.run next (start 8) greetingRun = some d ∧ d.uplink.flows[0]? = some f ∧
      d.inboxes[0]? = some b ∧ b.returned = [1, 2] ∧ b.reported = some .eof ∧
      d.Integrity greeting f b := by
  refine ⟨_, _, _, rfl, rfl, rfl, rfl, rfl, ?_⟩
  exact (integrity_of_received 8 (by decide) greetingRun rfl greeting
    ⟨greeting_wellFormed, [], incomplete_nil, rfl⟩).2 0 _ _ rfl rfl rfl

/-- The bytes of all frames with an id, KeepAlive frames included. -/
def allBytesFor (id : UInt16) (frames : List DataFrame) : List UInt8 :=
  payloadBytes (frames.filter fun x => x.header.id = id)

/-- A KeepAlive frame with a payload, then data. -/
def keptAlive : List DataFrame :=
  [bareFrame statusKeepAlive optionData [9], bareFrame statusKeep optionData [1]]

theorem keptAlive_wellFormed : ∀ x ∈ keptAlive, x.WellFormed := by
  intro x hx
  simp only [keptAlive, List.mem_cons, List.not_mem_nil, or_false] at hx
  rcases hx with rfl | rfl
  · exact bareFrame_wellFormed (.inr (.inr rfl)) (by decide) (by decide) (by decide)
  · exact bareFrame_wellFormed (.inl rfl) (by decide) (by decide) (by decide)

def keptAliveRun : List DownAction :=
  receivingRun keptAlive
    [.decode true [], .decode true [], .push false, .deliver [], .read 0 8 false, .drain 0]

/-- A write on the connection fails and the worker is closed, with the received frames
not yet handled. -/
def brokenRun : List DownAction :=
  receivingRun greeting
    [.act (.session 0 (.write [7] false) []), .act (.session 0 (.writeStep 0 false) []),
     .act (.session 0 (.writeStep 0 true) [0]), .drop, .act .closeStep,
     .act (.session 0 (.finishStep true) []), .act (.session 0 (.finishStep true) []),
     .act (.session 0 (.finishStep true) []), .read 0 8 false]

/-- The payload of a KeepAlive frame is never returned, although the frame has the
session's id; and when the worker is closed `Read` may report the cause, without a
`Close` of the session, before the received bytes were returned. -/
theorem losses_keptAliveRun_brokenRun :
    (∃ d f b, Transition.run next (start 8) keptAliveRun = some d ∧
      d.uplink.flows[0]? = some f ∧ d.inboxes[0]? = some b ∧ d.Received keptAlive ∧
      ¬ b.returned <+: allBytesFor f.id keptAlive) ∧
    ∃ d f b, Transition.run next (start 8) brokenRun = some d ∧ d.uplink.flows[0]? = some f ∧
      d.inboxes[0]? = some b ∧ d.Received greeting ∧ f.ender ≠ some .localClose ∧
      b.reported ≠ none ∧ b.returned ≠ allBytesFor f.id greeting := by
  constructor
  · exact ⟨_, _, _, rfl, rfl, rfl, ⟨keptAlive_wellFormed, [], incomplete_nil, rfl⟩, by decide⟩
  · exact ⟨_, _, _, rfl, rfl, rfl, ⟨greeting_wellFormed, [], incomplete_nil, rfl⟩, nofun, nofun,
      by decide⟩

end Downlink

end XrayMux
