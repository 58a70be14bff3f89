import CheezyCore.Foundation.Transition
import CheezyCore.OpenVPN.ControlChannel
import Mathlib.Logic.Relation

/-!
# Messages are taken in order

Every turn of `read` leaves the messages that came early alone (`Quiet`) until it takes the
next one (`Takes`). An id is queued for an acknowledgement when its message is taken or kept,
and when it is behind the next one by the arithmetic of 32 bits. In the last case the message
was taken before if its id is below `2 ^ 31`.
-/

namespace OpenVPN

open ControlChannel ControlSession

/-- A message of the current epoch. -/
structure Belongs (keyID : UInt8) (remote : SessionID) (packet : ControlPacket) : Prop where
  hasMessageID : packet.opcode.hasMessageID = true
  notReset : packet.opcode ≠ .controlSoftResetV1
  keyID : packet.keyID = keyID
  session : packet.localSession = remote
  remote : remote ≠ 0

/-- The messages that came early are those of a window that begins with the next one. -/
structure Buffered (c : ControlChannel) : Prop where
  entry : ∀ id packet, c.recvPending.lookup id = some packet →
    (id - c.recvMessage).toNat < reliableCapacity ∧ packet.messageID = id ∧
      Belongs c.keyID c.remote packet
  bound : c.recvPending.keys.length ≤ reliableCapacity

/-- No message is taken. -/
structure Quiet (c c' : ControlChannel) : Prop where
  recvMessage : c'.recvMessage = c.recvMessage
  parkedTLS : c'.parkedTLS = c.parkedTLS
  lruAcks : c'.lruAcks = c.lruAcks
  buffered : Buffered c'
  kept : ∀ id ∈ c.recvPending, id ∈ c'.recvPending
  acks : ∀ id ∈ c'.ackPending, id ∈ c.ackPending ∨ id ∈ c'.recvPending ∨
    reliableMessageBefore id c.recvMessage = true

/-- The next message is taken. -/
structure Takes (c : ControlChannel) (packet : ControlPacket) (c' : ControlChannel) : Prop where
  messageID : packet.messageID = c.recvMessage
  hasMessageID : packet.opcode.hasMessageID = true
  notReset : packet.opcode ≠ .controlSoftResetV1
  recvMessage : c'.recvMessage = c.recvMessage + 1
  parkedTLS : c'.parkedTLS = c.parkedTLS
  lruAcks : c'.lruAcks = c.lruAcks
  buffered : Buffered c'
  kept : ∀ id ∈ c.recvPending, id = c.recvMessage ∨ id ∈ c'.recvPending
  acks : ∀ id ∈ c'.ackPending, id ∈ c.ackPending ∨ id = c.recvMessage

/-- What `read` does. Only the watcher is given a soft reset. -/
inductive Reads (watch : Bool) (c : ControlChannel) :
    ControlChannel × Option ControlPacket → Prop where
  | quiet {c'} (packet : Option ControlPacket) (h : Quiet c c')
      (other : ∀ p ∈ packet, (watch = true ∧ p.opcode = .controlSoftResetV1) ∨
        p.opcode.hasMessageID = false) : Reads watch c (c', packet)
  | takes {middle c' packet} (h : Quiet c middle)
      (next : Takes middle packet c') : Reads watch c (c', some packet)

variable {c c' c'' : ControlChannel} {packet : ControlPacket} {d : Datagram}
  {watch : Bool} {id recv other : UInt32} {acks : List UInt32}

theorem Quiet.refl (h : Buffered c) : Quiet c c :=
  ⟨rfl, rfl, rfl, h, fun _ => id, fun _ => .inl⟩

theorem Quiet.trans (h : Quiet c c') (h' : Quiet c' c'') : Quiet c c'' where
  recvMessage := h'.recvMessage.trans h.recvMessage
  parkedTLS := h'.parkedTLS.trans h.parkedTLS
  lruAcks := h'.lruAcks.trans h.lruAcks
  buffered := h'.buffered
  kept id hid := h'.kept id (h.kept id hid)
  acks id hid := by
    obtain hid | hid | hbefore := h'.acks id hid
    · obtain hid | hid | hid := h.acks id hid
      · exact .inl hid
      · exact .inr (.inl (h'.kept id hid))
      · exact .inr (.inr hid)
    · exact .inr (.inl hid)
    · exact .inr (.inr (h.recvMessage ▸ hbefore))

theorem Reads.after {result : ControlChannel × Option ControlPacket} (h : Quiet c c')
    (hreads : Reads watch c' result) : Reads watch c result := by
  cases hreads with
  | quiet packet h' other => exact .quiet packet (h.trans h') other
  | takes h' next => exact .takes (h.trans h') next

/-! ### The checks -/

/-- Only what the checks of `read` may change is different. -/
structure Unmoved (c c' : ControlChannel) : Prop where
  keyID : c'.keyID = c.keyID
  recvMessage : c'.recvMessage = c.recvMessage
  parkedTLS : c'.parkedTLS = c.parkedTLS
  lruAcks : c'.lruAcks = c.lruAcks
  ackPending : c'.ackPending = c.ackPending
  recvPending : c'.recvPending = c.recvPending
  remote : c.remote ≠ 0 → c'.remote = c.remote

theorem Unmoved.refl (c : ControlChannel) : Unmoved c c :=
  ⟨rfl, rfl, rfl, rfl, rfl, rfl, fun _ => rfl⟩

theorem Unmoved.trans (h : Unmoved c c') (h' : Unmoved c' c'') : Unmoved c c'' where
  keyID := h'.keyID.trans h.keyID
  recvMessage := h'.recvMessage.trans h.recvMessage
  parkedTLS := h'.parkedTLS.trans h.parkedTLS
  lruAcks := h'.lruAcks.trans h.lruAcks
  ackPending := h'.ackPending.trans h.ackPending
  recvPending := h'.recvPending.trans h.recvPending
  remote hremote := (h'.remote (h.remote hremote ▸ hremote)).trans (h.remote hremote)

theorem Unmoved.buffered (h : Unmoved c c') (hc : Buffered c) : Buffered c' := by
  refine ⟨?_, h.recvPending ▸ hc.bound⟩
  intro id packet hpacket
  rw [h.recvPending] at hpacket
  obtain ⟨hwindow, hid, hbelongs⟩ := hc.entry id packet hpacket
  rw [h.keyID, h.remote hbelongs.remote, h.recvMessage]
  exact ⟨hwindow, hid, hbelongs⟩

theorem Unmoved.quiet (h : Unmoved c c') (hc : Buffered c) : Quiet c c' where
  __ := h
  buffered := h.buffered hc
  kept := h.recvPending ▸ fun _ => id
  acks := h.ackPending ▸ fun _ => .inl

theorem checkReplay_unmoved {accepted : Bool} (h : c.checkReplay d = (c', accepted)) :
    Unmoved c c' := by
  unfold checkReplay at h
  split at h <;> cases h
  · exact ⟨rfl, rfl, rfl, rfl, rfl, rfl, fun _ => rfl⟩
  · exact .refl c

theorem identify_unmoved {replayChecked : Option Bool}
    (h : c.identify d packet = (c', replayChecked)) : Unmoved c c' := by
  unfold identify at h
  split at h
  next hinitial =>
    split at h <;> cases h
    next heq => exact checkReplay_unmoved heq
    next heq =>
      exact { checkReplay_unmoved heq with remote := fun hremote => absurd hinitial.1 hremote }
  · cases h
    exact .refl c

/-- What a check lets pass. -/
structure Screens (watch : Bool) (c : ControlChannel) (packet : ControlPacket)
    (result : ControlChannel × Screened) : Prop where
  unmoved : Unmoved c result.1
  reset : result.2 = .softReset → watch = true ∧ packet.opcode = .controlSoftResetV1
  pass : result.2 = .pass → packet.opcode ≠ .controlSoftResetV1 ∧ packet.keyID = c.keyID

theorem Screens.drop (h : Unmoved c c') : Screens watch c packet (c', .drop) := ⟨h, nofun, nofun⟩

theorem screenRead_spec {replayChecked : Bool} :
    Screens false c packet (c.screenRead d packet replayChecked) := by
  fun_cases screenRead c d packet replayChecked with
  | case1 _ _ c' heq => exact .drop (checkReplay_unmoved heq)
  | case2 _ _ c' heq => exact .drop { checkReplay_unmoved heq with }
  | case3 | case4 => exact .drop (.refl c)
  | case5 hopcode hkey => exact ⟨.refl c, nofun, fun _ => ⟨hopcode, not_not.mp hkey⟩⟩
  | case6 _ _ _ c' heq => exact .drop (checkReplay_unmoved heq)
  | case7 hopcode hkey _ c' heq =>
    exact ⟨checkReplay_unmoved heq, nofun, fun _ => ⟨hopcode, not_not.mp hkey⟩⟩

theorem screenWatch_spec : Screens true c packet (c.screenWatch d packet) := by
  unfold screenWatch classifyWatchPacketLocked
  split
  · exact .drop (.refl c)
  next softReset hclass =>
    split
    next heq => exact .drop (checkReplay_unmoved heq)
    next heq =>
      have hreplay := checkReplay_unmoved heq
      split at hclass
      · cases hclass
      · split at hclass
        next hopcode =>
          obtain ⟨hreset, hvalid⟩ := Prod.mk.inj hclass
          rw [← hreset, hvalid]
          exact ⟨hreplay, fun _ => ⟨rfl, hopcode⟩, nofun⟩
        next hopcode =>
          obtain ⟨hreset, hvalid⟩ := Prod.mk.inj hclass
          rw [← hreset]
          exact ⟨hreplay, nofun, fun _ => ⟨hopcode, of_decide_eq_true hvalid⟩⟩

/-! ### Messages -/

theorem window_succ (h : (id - recv).toNat < reliableCapacity) (hne : id ≠ recv) :
    (id - (recv + 1)).toNat < reliableCapacity := by
  have hne' : id.toNat ≠ recv.toNat := fun heq => hne (UInt32.toNat_inj.mp heq)
  have hid := id.toNat_lt
  have hrecv := recv.toNat_lt
  rw [UInt32.toNat_sub] at h ⊢
  rw [UInt32.toNat_add]
  simp only [reliableCapacity, UInt32.toNat_one] at *
  omega

theorem mem_appendAck {ack : UInt32} (h : id ∈ appendAck acks ack) : id ∈ acks ∨ id = ack := by
  unfold appendAck at h
  split at h
  · exact .inl h
  · exact (List.mem_append.mp h).imp_right List.mem_singleton.mp

theorem mem_of_lookup {early : AList fun _ : UInt32 => ControlPacket}
    (h : early.lookup id = some packet) : id ∈ early :=
  AList.lookup_isSome.mp (by rw [h]; rfl)

/-- The next message is taken from those that came early. -/
theorem Buffered.take (h : Buffered c)
    (hpacket : c.recvPending.lookup c.recvMessage = some packet) :
    Takes c packet
      { c with
        recvPending := c.recvPending.erase c.recvMessage
        recvMessage := c.recvMessage + 1 } := by
  obtain ⟨-, hid, hbelongs⟩ := h.entry _ packet hpacket
  refine ⟨hid, hbelongs.hasMessageID, hbelongs.notReset, rfl, rfl, rfl, ⟨?_, ?_⟩, ?_,
    fun _ => .inl⟩
  · intro id other hother
    have hne : id ≠ c.recvMessage := by
      rintro rfl
      rw [AList.lookup_erase] at hother
      cases hother
    rw [AList.lookup_erase_ne hne] at hother
    obtain ⟨hwindow, hid, hbelongs⟩ := h.entry id other hother
    exact ⟨window_succ hwindow hne, hid, hbelongs⟩
  · rw [AList.keys_erase]
    exact Nat.le_trans List.length_erase_le h.bound
  · intro id hid
    by_cases heq : id = c.recvMessage
    · exact .inl heq
    · exact .inr (AList.mem_erase.mpr ⟨heq, hid⟩)

theorem classify_of_belongs (h : Belongs c.keyID c.remote packet) :
    c.classifyWatchPacketLocked packet = (false, true) := by
  rw [classifyWatchPacketLocked, if_neg (not_or.mpr ⟨h.remote, not_not.mpr h.session⟩),
    if_neg h.notReset, decide_eq_true h.keyID]

theorem takeBuffered_spec (h : Buffered c) :
    (c.recvMessage ∉ c.recvPending ∧ c.takeBuffered watch = (c, none)) ∨
      ∃ packet c', c.takeBuffered watch = (c', some packet) ∧ Takes c packet c' := by
  cases hpacket : c.recvPending.lookup c.recvMessage with
  | none =>
    refine .inl ⟨AList.lookup_eq_none.mp hpacket, ?_⟩
    rw [takeBuffered, hpacket]
  | some packet =>
    refine .inr ⟨packet, _, ?_, h.take hpacket⟩
    rw [takeBuffered, hpacket]
    have hclass := classify_of_belongs (h.entry _ packet hpacket).2.2
    simp only [hclass]
    exact ite_self _

/-- A message that came early is kept. -/
theorem Buffered.insert (h : Buffered c) (hbelongs : Belongs c.keyID c.remote packet)
    (hnew : packet.messageID ∉ c.recvPending)
    (hwindow : recvWindowOK c.recvMessage packet.messageID c.recvPending.keys.length = true) :
    Buffered { c with recvPending := c.recvPending.insert packet.messageID packet } := by
  obtain ⟨hnear, hroom⟩ := Bool.and_eq_true_iff.mp hwindow
  constructor
  · intro id other hother
    by_cases hid : id = packet.messageID
    · subst hid
      rw [AList.lookup_insert] at hother
      cases hother
      exact ⟨of_decide_eq_true hnear, rfl, hbelongs⟩
    · rw [AList.lookup_insert_ne hid] at hother
      exact h.entry id other hother
  · rw [AList.keys_insert, List.erase_of_not_mem hnew]
    exact of_decide_eq_true hroom

/-- Nothing changes but that an id is queued. -/
theorem Buffered.queueAck (h : Buffered c)
    (hack : id ∈ c.recvPending ∨ reliableMessageBefore id c.recvMessage = true) :
    Quiet c (c.queueAck id) := by
  refine ⟨rfl, rfl, rfl, ⟨h.entry, h.bound⟩, fun _ hother => hother, ?_⟩
  intro other hother
  obtain hother | rfl := mem_appendAck hother
  · exact .inl hother
  · exact .inr hack

section

variable (h : Buffered c) (hnext : c.recvMessage ∉ c.recvPending) (hkey : packet.keyID = c.keyID)
variable (hsession : packet.localSession = c.remote) (hremote : c.remote ≠ 0)
variable (hopcode : packet.opcode ≠ .controlSoftResetV1)
include h hnext hkey hsession hremote hopcode

/-- The cases for a message, when the next one did not come early. -/
theorem acceptMessage_spec : Reads watch c (c.acceptMessage packet) := by
  fun_cases acceptMessage c packet with
  | case1 | case7 => exact .quiet none (Quiet.refl h) nofun
  | case2 _ hid =>
    refine .quiet _ (Quiet.refl h) ?_
    rintro p ⟨⟩
    exact .inr hid
  | case3 _ _ hbefore => exact .quiet none (h.queueAck (.inr hbefore)) nofun
  | case4 _ hid _ heq =>
    refine .takes (Quiet.refl h) ⟨heq, by simpa using hid, hopcode, rfl, rfl, rfl,
      ⟨?_, h.bound⟩, fun _ => .inr, fun id hack => ?_⟩
    · intro id other hother
      have hne : id ≠ c.recvMessage := by
        rintro rfl
        exact hnext (mem_of_lookup hother)
      obtain ⟨hnear, hid, hother⟩ := h.entry id other hother
      exact ⟨window_succ hnear hne, hid, hother⟩
    · exact (mem_appendAck hack).imp_right fun hack => hack.trans heq
  | case5 _ _ _ _ hdup => exact .quiet none (h.queueAck (.inl hdup)) nofun
  | case6 _ hid _ _ hnew hwindow =>
    have hinsert := h.insert ⟨by simpa using hid, hopcode, hkey, hsession, hremote⟩ hnew hwindow
    have hmem : packet.messageID ∈ c.recvPending.insert packet.messageID packet :=
      (AList.mem_insert _).mpr (.inl rfl)
    refine .quiet none (.trans ?_ (hinsert.queueAck (.inl hmem))) nofun
    refine ⟨rfl, rfl, rfl, hinsert, fun id hid => ?_, fun _ => .inl⟩
    exact (AList.mem_insert _).mpr (.inr hid)

theorem accept_spec : Reads watch c (c.accept packet) := by
  have hclear : Unmoved c { c with pending := c.pending.filter (· ∉ packet.ackIDs) } :=
    ⟨rfl, rfl, rfl, rfl, rfl, rfl, fun _ => rfl⟩
  exact .after (hclear.quiet h)
    (acceptMessage_spec (hclear.buffered h) hnext hkey hsession hremote hopcode)

end

theorem receive_spec (h : Buffered c) (hnext : c.recvMessage ∉ c.recvPending) :
    Reads watch c (c.receive watch d) := by
  have hscreens : ∀ c₁ packet checked, Screens watch c₁ packet
      (if watch then screenWatch c₁ d packet else screenRead c₁ d packet checked) := by
    intro c₁ packet checked
    cases watch with
    | true => exact screenWatch_spec
    | false => exact screenRead_spec
  fun_cases receive watch c d with
  | case1 | case2 | case3 => exact .quiet none (Quiet.refl h) nofun
  | case4 packet _ _ _ c₁ heq => exact .quiet none ((identify_unmoved heq).quiet h) nofun
  | case5 packet _ _ _ c₁ _ heq => exact .quiet none ((identify_unmoved heq).quiet h) nofun
  | case6 packet _ _ _ c₁ checked heq _ c₂ hscreen =>
    have hscreens := hscreen ▸ hscreens c₁ packet checked
    exact .quiet none (((identify_unmoved heq).trans hscreens.unmoved).quiet h) nofun
  | case7 packet _ _ _ c₁ checked heq _ c₂ hscreen =>
    have hscreens := hscreen ▸ hscreens c₁ packet checked
    refine .quiet _ (((identify_unmoved heq).trans hscreens.unmoved).quiet h) ?_
    rintro p ⟨⟩
    exact .inl (hscreens.reset rfl)
  | case8 packet hpacket _ _ c₁ checked heq hsession c₂ hscreen =>
    have hscreens := hscreen ▸ hscreens c₁ packet checked
    have hmoves : Unmoved c c₂ := (identify_unmoved heq).trans hscreens.unmoved
    obtain ⟨hremote, hsession⟩ := not_or.mp hsession
    obtain ⟨hopcode, hkey⟩ := hscreens.pass rfl
    have hremote₂ : c₂.remote = c₁.remote := hscreens.unmoved.remote hremote
    refine Reads.after (hmoves.quiet h) (accept_spec (hmoves.buffered h) ?_
      (hkey.trans hscreens.unmoved.keyID.symm)
      ((not_not.mp hsession).trans hremote₂.symm) (hremote₂ ▸ hremote) hopcode)
    rw [hmoves.recvPending, hmoves.recvMessage]
    exact hnext

theorem read_spec {input : List Datagram} (h : Buffered c) :
    Reads watch c (c.read watch input) := by
  induction input generalizing c with
  | nil =>
    rw [ControlChannel.read]
    obtain ⟨-, htake⟩ | ⟨packet, c', htake, hnext⟩ := @takeBuffered_spec c watch h
    · rw [htake]
      exact .quiet none (Quiet.refl h) nofun
    · rw [htake]
      exact .takes (Quiet.refl h) hnext
  | cons d rest ih =>
    rw [ControlChannel.read]
    obtain ⟨hempty, htake⟩ | ⟨packet, c', htake, hnext⟩ := @takeBuffered_spec c watch h
    · have hreceive := @receive_spec c d watch h hempty
      rw [htake]
      simp only
      split
      next c' packet heq => rwa [heq] at hreceive
      next c' heq =>
        rw [heq] at hreceive
        cases hreceive with
        | quiet _ hquiet _ => exact .after hquiet (ih hquiet.buffered)
    · rw [htake]
      exact .takes (Quiet.refl h) hnext

/-! ### Acknowledgements that are sent -/

theorem shiftAcks_of_mem {move : UInt32} (h : id ∈ acks) :
    shiftAcks id move acks = (move :: acks.erase id, none) := by
  induction acks generalizing move with
  | nil => cases h
  | cons first rest ih =>
    rw [shiftAcks]
    split
    next heq => simp [heq]
    next hne =>
      rw [ih ((List.mem_cons.mp h).resolve_left fun heq => hne heq.symm)]
      simp [hne]

theorem shiftAcks_of_not_mem {move : UInt32} (h : id ∉ acks) :
    shiftAcks id move acks = ((move :: acks).dropLast, (move :: acks).getLast?) := by
  induction acks generalizing move with
  | nil => rfl
  | cons first rest ih =>
    rw [List.mem_cons, not_or] at h
    rw [shiftAcks, if_neg fun heq => h.1 heq.symm, ih h.2]
    rfl

/-- The id comes to the front. The last one is dropped for it if the list is full. -/
theorem moveToFront_eq (acks : List UInt32) (id : UInt32) :
    moveToFront acks id = (id :: acks.erase id).take (max reliableAckSize acks.length) := by
  unfold moveToFront
  by_cases h : id ∈ acks
  · rw [shiftAcks_of_mem h, List.take_of_length_le]
    have hpos := List.length_pos_of_mem h
    rw [List.length_cons, List.length_erase_of_mem h]
    omega
  · rw [shiftAcks_of_not_mem h, List.erase_of_not_mem h,
      List.getLast?_eq_some_getLast (List.cons_ne_nil id acks)]
    dsimp only
    split
    next hroom =>
      rw [List.length_dropLast, List.length_cons] at hroom
      rw [List.take_of_length_le (by rw [List.length_cons]; omega)]
      exact List.dropLast_concat_getLast (List.cons_ne_nil id acks)
    next hfull =>
      rw [List.length_dropLast, List.length_cons, Nat.add_sub_cancel] at hfull
      rw [List.dropLast_eq_take, List.length_cons, Nat.add_sub_cancel,
        Nat.max_eq_right (Nat.le_of_not_lt hfull)]

theorem mem_moveToFront (h : other ∈ moveToFront acks id) : other = id ∨ other ∈ acks := by
  rw [moveToFront_eq] at h
  exact (List.mem_cons.mp (List.mem_of_mem_take h)).imp_right List.mem_of_mem_erase

theorem mem_foldl_moveToFront {ids : List UInt32} (h : other ∈ ids.foldl moveToFront acks) :
    other ∈ ids ∨ other ∈ acks := by
  induction ids generalizing acks with
  | nil => exact .inr h
  | cons first rest ih =>
    obtain h | h := ih h
    · exact .inl (List.mem_cons_of_mem first h)
    · refine (mem_moveToFront h).imp_left ?_
      rintro rfl
      exact List.mem_cons_self

/-- No id is acknowledged that was not queued. -/
theorem mem_takeAcks {max : Nat}
    (h : other ∈ (c.takeAcksLocked max).1.ackPending ++ (c.takeAcksLocked max).1.lruAcks) :
    other ∈ c.ackPending ++ c.lruAcks := by
  refine List.mem_append.mpr ?_
  obtain h | h := List.mem_append.mp h
  · exact .inl (List.mem_of_mem_drop h)
  · refine (mem_foldl_moveToFront (List.mem_of_mem_take h)).imp_left fun h => ?_
    exact List.mem_of_mem_take (List.mem_reverse.mp h)

/-! ### The session -/

/-- The packet that `Read` or `ReadAll` makes of a message, now or when it is parked. -/
def handed : ControlPacket × Fate → Option ControlPacket
  | (packet, .returned) => some packet
  | (packet, .parked) => some (.ofPayload packet.payload)
  | (_, .dropped) | (_, .reset) => none

/-- The watcher parks what has a payload for the TLS connection, and drops nothing else. -/
def Fate.fits (packet : ControlPacket) : Fate → Prop
  | .parked => packet.opcode = .controlV1 ∧ packet.payload ≠ []
  | .dropped => ¬ (packet.opcode = .controlV1 ∧ packet.payload ≠ [])
  | .returned | .reset => True

structure InOrder (s : ControlSession) : Prop where
  buffered : Buffered s.channel
  next : s.channel.recvMessage = UInt32.ofNat s.log.length
  ids : ∀ (n : Nat) (e : ControlPacket × Fate), s.log[n]? = some e →
    e.1.messageID = UInt32.ofNat n
  handed : s.returned ++ s.channel.parkedTLS.map .ofPayload = s.log.filterMap handed
  fates : ∀ e ∈ s.log, e.2.fits e.1

/-- The message was taken, or is kept until it is. -/
def Secured (s : ControlSession) (id : UInt32) : Prop :=
  id ∈ s.log.map (·.1.messageID) ∨ id ∈ s.channel.recvPending

/-- What is or was queued has its message secured, if the id leaves half of the ids behind
it. -/
def Acked (s : ControlSession) : Prop :=
  ∀ id ∈ s.channel.ackPending ++ s.channel.lruAcks, id.toNat < 2 ^ 31 → Secured s id

variable {s : ControlSession} {fate : Fate} {returned : List ControlPacket}
  {parkedTLS : List (List UInt8)} {s' : ControlSession}

section

variable (hs : InOrder s)
include hs

theorem InOrder.quiet (h : Quiet s.channel c') : InOrder { s with channel := c' } where
  __ := hs
  buffered := h.buffered
  next := h.recvMessage.trans hs.next
  handed := by
    rw [h.parkedTLS]
    exact hs.handed

theorem InOrder.take (h : Takes s.channel packet c')
    (hhanded : returned ++ parkedTLS.map .ofPayload =
      s.returned ++ s.channel.parkedTLS.map .ofPayload ++ (OpenVPN.handed (packet, fate)).toList)
    (hfate : fate.fits packet) :
    InOrder ⟨{ c' with parkedTLS := parkedTLS }, s.log ++ [(packet, fate)], returned⟩ where
  buffered := ⟨h.buffered.entry, h.buffered.bound⟩
  next := by
    rw [h.recvMessage, hs.next, List.length_append, UInt32.ofNat_add]
    rfl
  ids n e he := by
    obtain he | ⟨rfl, rfl⟩ := Table.getElem?_concat_cases he
    · exact hs.ids n e he
    · rw [h.messageID, hs.next]
  handed := by
    rw [hhanded, hs.handed, List.filterMap_append, List.filterMap_cons]
    cases OpenVPN.handed (packet, fate) <;> rfl
  fates := Table.forall_concat hs.fates hfate

/-- An id behind the next one, by the arithmetic of 32 bits, is that of a message which was
taken. Once `2 ^ 31` messages were taken, all ids below are. -/
theorem InOrder.mem_of_before (hid : id.toNat < 2 ^ 31)
    (hbefore : reliableMessageBefore id s.channel.recvMessage = true) :
    id ∈ s.log.map (·.1.messageID) := by
  have hlt : id.toNat < s.log.length := by
    by_contra hge
    have hnext : s.channel.recvMessage.toNat = s.log.length := by
      rw [hs.next]
      exact UInt32.toNat_ofNat_of_lt' (show s.log.length < 2 ^ 32 by omega)
    have hbefore := of_decide_eq_true hbefore
    rw [UInt32.toNat_sub] at hbefore
    omega
  have hentry := hs.ids _ _ (List.getElem?_eq_getElem hlt)
  rw [UInt32.ofNat_toNat] at hentry
  exact List.mem_map.mpr ⟨_, List.getElem_mem hlt, hentry⟩

theorem Acked.quiet (h : Acked s) (hquiet : Quiet s.channel c') :
    Acked { s with channel := c' } := by
  intro id hid hsmall
  have hkept : id ∈ s.channel.ackPending ++ s.channel.lruAcks →
      Secured { s with channel := c' } id :=
    fun hid => (h id hid hsmall).imp_right (hquiet.kept id)
  obtain hid | hid := List.mem_append.mp hid
  · obtain hid | hid | hbefore := hquiet.acks id hid
    · exact hkept (List.mem_append_left _ hid)
    · exact .inr hid
    · exact .inl (hs.mem_of_before hsmall hbefore)
  · exact hkept (List.mem_append_right _ (hquiet.lruAcks ▸ hid))

end

/-- A taken message stays taken, and a kept one is taken or stays. -/
theorem Secured.take (htakes : Takes s.channel packet c') (h : Secured s id) :
    Secured ⟨{ c' with parkedTLS := parkedTLS }, s.log ++ [(packet, fate)], returned⟩ id := by
  obtain hid | hid := h
  · rw [Secured, List.map_append]
    exact .inl (List.mem_append_left _ hid)
  · obtain rfl | hid := htakes.kept id hid
    · exact .inl (List.mem_map.mpr ⟨_, List.mem_concat_self, htakes.messageID⟩)
    · exact .inr hid

theorem Acked.take (h : Acked s) (htakes : Takes s.channel packet c') :
    Acked ⟨{ c' with parkedTLS := parkedTLS }, s.log ++ [(packet, fate)], returned⟩ := by
  intro id hid hsmall
  obtain hid | hid := List.mem_append.mp hid
  · obtain hid | rfl := htakes.acks id hid
    · exact (h id (List.mem_append_left _ hid) hsmall).take htakes
    · exact .inl (List.mem_map.mpr ⟨_, List.mem_concat_self, htakes.messageID⟩)
  · exact (h id (List.mem_append_right _ (htakes.lruAcks ▸ hid)) hsmall).take htakes

/-! ### Runs -/

theorem takeSoftReset_unmoved : Unmoved c c.takeSoftReset.1 := by
  unfold takeSoftReset
  split
  · exact .refl c
  · exact ⟨rfl, rfl, rfl, rfl, rfl, rfl, fun _ => rfl⟩

/-- One of the changes that an action makes to a session. -/
inductive Step (s : ControlSession) : ControlSession → Prop where
  | quiet {c' : ControlChannel} (h : Quiet s.channel c') : Step s { s with channel := c' }
  | takes {middle packet} (fate : Fate) {parkedTLS : List (List UInt8)}
      {returned : List ControlPacket}
      (next : Takes s.channel packet middle) (fits : fate.fits packet)
      (hands : returned ++ parkedTLS.map ControlPacket.ofPayload =
        s.returned ++ s.channel.parkedTLS.map .ofPayload ++ (handed (packet, fate)).toList) :
      Step s ⟨{ middle with parkedTLS := parkedTLS }, s.log ++ [(packet, fate)], returned⟩
  | unpark : Step s ⟨{ s.channel with parkedTLS := [] }, s.log,
      s.returned ++ s.channel.parkedTLS.map .ofPayload⟩
  | takeAcks (max : Nat) : Step s { s with channel := (s.channel.takeAcksLocked max).1 }

def Steps : ControlSession → ControlSession → Prop := Relation.ReflTransGen Step

theorem Step.returns (hparked : s.channel.parkedTLS = []) (h : Takes s.channel packet c') :
    Step s ⟨c', s.log ++ [(packet, .returned)], s.returned ++ [packet]⟩ := by
  have htake : Step s ⟨{ c' with parkedTLS := c'.parkedTLS }, s.log ++ [(packet, .returned)],
      s.returned ++ [packet]⟩ := by
    refine .takes .returned h trivial ?_
    rw [h.parkedTLS, hparked, List.map_nil, List.append_nil, List.append_nil]
    rfl
  exact htake

theorem Steps.drain (hs : Buffered s.channel) (hparked : s.channel.parkedTLS = []) (count : Nat) :
    Steps s ⟨(drain count s.channel).1, s.log ++ (drain count s.channel).2.map (·, .returned),
      s.returned ++ (drain count s.channel).2⟩ := by
  induction count generalizing s with
  | zero => simpa [ControlChannel.drain] using .refl
  | succ count ih =>
    rw [ControlChannel.drain]
    cases hpacket : s.channel.recvPending.lookup s.channel.recvMessage with
    | none => simpa using .refl
    | some packet =>
      have htake : Takes s.channel packet _ := hs.take hpacket
      have hnext := ih (s := ⟨_, s.log ++ [(packet, .returned)], s.returned ++ [packet]⟩)
        htake.buffered (htake.parkedTLS.trans hparked)
      have hall : Steps s _ := .head (.returns hparked htake) hnext
      simpa using hall

theorem Steps.of_park {packet : Option ControlPacket}
    (h : Reads true s.channel (c', packet)) : Steps s (s.park c' packet) := by
  cases h with
  | quiet packet h other =>
    cases packet with
    | none => exact .single (.quiet h)
    | some packet =>
      rw [park]
      split
      · exact .single (.quiet h)
      next hreset =>
        obtain ⟨-, hother⟩ | hother := other packet rfl
        · exact absurd hother hreset
        · rw [if_neg, if_neg]
          · exact .single (.quiet h)
          · rw [hother]
            exact Bool.false_ne_true
          · rintro ⟨hopcode, -⟩
            rw [hopcode] at hother
            cases hother
  | @takes middle _ packet h next =>
    rw [park, if_neg next.notReset]
    split
    next hpayload =>
      refine .tail (.single (.quiet h)) (.takes .parked next hpayload ?_)
      rw [List.map_append, next.parkedTLS, List.append_assoc]
      rfl
    next hpayload =>
      rw [if_pos next.hasMessageID]
      refine .tail (.single (.quiet h)) (.takes .dropped next hpayload ?_)
      rw [next.parkedTLS]
      exact (List.append_nil _).symm

theorem Steps.of_take {packet : Option ControlPacket} (hparked : s.channel.parkedTLS = [])
    (h : Reads false s.channel (c', packet)) : Steps s (s.take c' packet) := by
  cases h with
  | quiet packet h other =>
    cases packet with
    | none => exact .single (.quiet h)
    | some packet =>
      obtain ⟨hwatch, -⟩ | hother := other packet rfl
      · cases hwatch
      · rw [take, hother]
        exact .single (.quiet h)
  | takes h next =>
    rw [take, if_pos next.hasMessageID]
    exact .tail (.single (.quiet h)) (.returns (h.parkedTLS.trans hparked) next)

theorem ControlSession.next_inv {a : ControlAction}
    (hs : Buffered s.channel) (h : s.next a = some s') : Steps s s' := by
  cases a with
  | read input =>
    obtain ⟨hparked, rfl⟩ := Transition.of_guard h
    exact .of_take hparked (read_spec hs)
  | takeSoftReset =>
    cases h
    exact .single (.quiet (takeSoftReset_unmoved.quiet hs))
  | watch input =>
    cases h
    exact .of_park (read_spec hs)
  | readAll =>
    cases h
    have hempty : Buffered { s.channel with parkedTLS := [] } := ⟨hs.entry, hs.bound⟩
    exact .head .unpark (Steps.drain hempty rfl _)
  | takeAcks max =>
    cases h
    exact .single (.takeAcks max)

section

variable (hs : InOrder s)
include hs

theorem InOrder.step (h : Step s s') : InOrder s' := by
  cases h with
  | quiet h => exact hs.quiet h
  | takes fate next fits hands => exact hs.take next hands fits
  | unpark =>
    exact { hs with
      buffered := { hs.buffered with }
      handed := (List.append_nil _).trans hs.handed }
  | takeAcks max => exact { hs with buffered := { hs.buffered with } }

theorem InOrder.steps (h : Steps s s') : InOrder s' := by
  induction h with
  | refl => exact hs
  | tail _ h ih => exact ih.step h

theorem Acked.step (hacked : Acked s) (h : Step s s') : Acked s' := by
  cases h with
  | quiet h => exact hacked.quiet hs h
  | takes fate next => exact hacked.take next
  | unpark => exact hacked
  | takeAcks max => exact fun id hid => hacked id (mem_takeAcks hid)

theorem Acked.steps (hacked : Acked s) (h : Steps s s') : Acked s' := by
  induction h with
  | refl => exact hacked
  | tail h h' ih => exact ih.step (hs.steps h) h'

end

theorem Secured.steps (h : Steps s s') (hid : Secured s id) : Secured s' id := by
  induction h with
  | refl => exact hid
  | tail _ h ih =>
    cases h with
    | quiet h => exact ih.imp_right (h.kept id)
    | takes fate next => exact ih.take next
    | unpark | takeAcks max => exact ih

theorem buffered_empty (h : c.recvPending = ∅) : Buffered c := by
  refine ⟨?_, ?_⟩
  · intro id packet hpacket
    rw [h] at hpacket
    cases hpacket
  · rw [h]
    exact Nat.zero_le _

theorem begins_inOrder (h : s.Begins) : InOrder s := by
  obtain ⟨c, keyID, rfl⟩ | ⟨c, serverReset, hreset, rfl⟩ := h
  · exact ⟨buffered_empty rfl, rfl, nofun, rfl, nofun⟩
  · refine ⟨buffered_empty rfl, ?_, ?_, rfl, ?_⟩
    · show (if serverReset.messageID + 1 ≠ 0 ∧ reliableMessageBefore (serverReset.messageID + 1) 0 =
        false then serverReset.messageID + 1 else 0) = 1
      rw [hreset]
      decide
    · intro n e he
      cases n with
      | zero =>
        cases he
        exact hreset
      | succ n => cases he
    · intro e he
      cases List.mem_singleton.mp he
      trivial

theorem begins_acked (h : s.Begins) : Acked s := by
  obtain ⟨c, keyID, rfl⟩ | ⟨c, serverReset, hreset, rfl⟩ := h
  · exact nofun
  · exact fun id hid _ => .inl hid

/-- What holds of a session along a run. -/
theorem inOrder_acked_next {a : ControlAction} (h : InOrder s ∧ Acked s)
    (hnext : s.next a = some s') : InOrder s' ∧ Acked s' := by
  have hsteps := next_inv h.1.buffered hnext
  exact ⟨h.1.steps hsteps, h.2.steps h.1 hsteps⟩

theorem Secured.run {actions : List ControlAction} (hs : InOrder s ∧ Acked s)
    (h : Transition.run next s actions = some s') (hid : Secured s id) : Secured s' id := by
  refine (Transition.run_invariant (P := fun s => (InOrder s ∧ Acked s) ∧ Secured s id) ?_
    ⟨hs, hid⟩ h).2
  intro s a s' ⟨hs, hid⟩ hnext
  exact ⟨inOrder_acked_next hs hnext, hid.steps (next_inv hs.1.buffered hnext)⟩

/-- In every run of an epoch, whatever comes in, the messages that the channel takes are those
with the ids 0, 1, 2 and so on. `Read` and `ReadAll` return them in this order, up to the
payloads which are still parked; a message is left out only if the watcher took it and it has
no payload for the TLS connection, or if it is the soft reset that began the epoch. At most 12
messages are kept. Whenever an id below `2 ^ 31` was queued for an acknowledgement or is
acknowledged again, its message was taken or is kept, then and ever after. -/
theorem messages_in_order {start : ControlSession} {actions : List ControlAction}
    (begins : start.Begins)
    (h : Transition.run next start actions = some s) :
    (∀ (n : Nat) (e : ControlPacket × Fate), s.log[n]? = some e →
      e.1.messageID = UInt32.ofNat n ∧ e.2.fits e.1) ∧
    s.returned ++ s.channel.parkedTLS.map .ofPayload = s.log.filterMap handed ∧
    (s.channel.recvPending.keys.length ≤ 12 ∧
      ∀ id packet, s.channel.recvPending.lookup id = some packet → packet.messageID = id) ∧
    ∀ first later mid, actions = first ++ later → Transition.run next start first = some mid →
      ∀ id ∈ mid.channel.ackPending ++ mid.channel.lruAcks, id.toNat < 2 ^ 31 →
        id ∈ s.log.map (·.1.messageID) ∨ id ∈ s.channel.recvPending := by
  have hrun : ∀ {actions s}, Transition.run next start actions = some s → InOrder s ∧ Acked s :=
    fun h => Transition.run_invariant (fun _ _ _ hs hnext => inOrder_acked_next hs hnext)
      ⟨begins_inOrder begins, begins_acked begins⟩ h
  have hs := (hrun h).1
  refine ⟨?_, hs.handed, ⟨hs.buffered.bound, ?_⟩, ?_⟩
  · intro n e he
    exact ⟨hs.ids n e he, hs.fates e (List.mem_of_getElem? he)⟩
  · intro id packet hpacket
    exact (hs.buffered.entry id packet hpacket).2.1
  · rintro first later mid rfl hmid id hid hsmall
    rw [Transition.run_append_some hmid] at h
    exact Secured.run (hrun hmid) h ((hrun hmid).2 id hid hsmall)

/-- A channel without a cryptor whose peer is known. -/
def plainChannel : ControlChannel where
  crypt := false
  keyID := 0
  localID := 1
  remote := 2
  recvMessage := 0
  ackPending := []
  lruAcks := []
  pending := []
  recvPending := ∅
  pendingSoftReset := none
  parkedTLS := []
  recReplay := ControlReplay.ReplayState.start

/-- A message of the peer in the first epoch. -/
def message (id : UInt32) (payload : List UInt8) : Datagram :=
  ⟨some ⟨.controlV1, 0, 2, [], 0, id, payload⟩, 0, 0, 0⟩

/-- Message 1 comes before message 0, and the watcher takes message 2. -/
def reordered : List ControlAction :=
  [.read [message 1 [11], message 0 [10]], .read [], .watch [message 2 [12]], .readAll]

theorem messages_in_order_reordered :
    ∃ s, Transition.run next (.start plainChannel 0) reordered = some s ∧
      s.returned.map (·.payload) = [[10], [11], [12]] ∧
      s.log.map (·.1.messageID) = [0, 1, 2] ∧
      ∀ (n : Nat) (e : ControlPacket × Fate), s.log[n]? = some e →
        e.1.messageID = UInt32.ofNat n ∧ e.2.fits e.1 := by
  refine ⟨_, (and_iff_left_of_imp fun h => ?_).mpr rfl⟩
  exact ⟨rfl, rfl, (messages_in_order (.inl ⟨_, _, rfl⟩) h).1⟩

/-- A message with the last id of all is acknowledged before any message was taken, and not
kept. The watcher acknowledges and drops a message without a payload, so that `Read` and
`ReadAll` do not return it. -/
theorem forged_id_acknowledged :
    (∃ s, Transition.run next (.start plainChannel 0)
        [.read [message 0xFFFFFFFF [1]]] = some s ∧
      s.channel.ackPending = [0xFFFFFFFF] ∧ s.log = [] ∧ s.channel.recvPending.keys = []) ∧
    ∃ s, Transition.run next (.start plainChannel 0)
        [.watch [message 0 []], .read [message 1 [1]]] = some s ∧
      s.returned.map (·.messageID) = [1] :=
  ⟨⟨_, rfl, rfl, rfl, rfl⟩, _, rfl, rfl⟩

end OpenVPN
