import CheezyCore.OpenVPN.DataChannel

/-!
# Packets between two data channels

One channel encrypts packets, and its outputs reach the other one in any order, any number of
times or never. Every packet is returned at most once and as it was, and the replay window
refuses an authentic packet only if its id was accepted or is 64 behind the highest.

`nextPacketID` and `acceptPacketID` are the critical sections of the calls, so that each call
is one step.
-/

namespace OpenVPN.DataDelivery

structure Sent where
  packetID : UInt32
  packet : Bytes
  output : Bytes

/-- A packet that `Decrypt` returned: the output it came from, the id and the bytes. -/
structure Returned where
  output : Nat
  packetID : UInt32
  plain : Bytes

structure Link where
  sender : DataChannel
  receiver : DataChannel
  sent : List Sent
  returned : List Returned

inductive Action where
  /-- `Encrypt`, with what the random source gives. -/
  | encrypt (packet : Bytes) (iv : Option (BigEndian.Fixed dataChannelCBCIVSize))
  /-- `Decrypt` of an output. -/
  | deliver (output : Nat)

namespace Link

def start (sender receiver : DataChannel) : Link := ⟨sender, receiver, [], []⟩

def next (s : Link) : Action → Option Link
  | .encrypt packet iv =>
    if packet = [] then none
    else
      match s.sender.encrypt packet iv with
      | (sender, .error _) => some { s with sender := sender }
      | (sender, .ok output) =>
        some { s with
          sender := sender
          sent := s.sent ++ [⟨sender.sendPacketID, packet, output⟩] }
  | .deliver output =>
    match s.sent[output]? with
    | none => none
    | some sent =>
      match s.receiver.decrypt sent.output with
      | (receiver, .error _) => some { s with receiver := receiver }
      | (receiver, .ok plain) =>
        some { s with
          receiver := receiver
          returned := s.returned ++ [⟨output, sent.packetID, plain⟩] }

end Link

variable {protection : Protection} {s s' : Link}

structure Sound (protection : Protection) (s : Link) : Prop where
  sender : s.sender.protection = protection
  receiver : s.receiver.protection = protection.mirror
  opens : ∀ sent ∈ s.sent, Opens protection sent.packetID sent.packet sent.output
  increasing : s.sent.Pairwise fun first second => first.packetID < second.packetID
  issued : ∀ sent ∈ s.sent, sent.packetID ≤ s.sender.sendPacketID
  receives : Receives s.receiver (s.returned.map Returned.packetID)
  unchanged : ∀ r ∈ s.returned, ∃ sent, s.sent[r.output]? = some sent ∧
    sent.packetID = r.packetID ∧ sent.packet = r.plain
  once : (s.returned.map Returned.packetID).Nodup

theorem sound_start (protection : Protection) (peerID peerID' : UInt32) (keyID keyID' : UInt8) :
    Sound protection (Link.start (.new protection peerID keyID)
      (.new protection.mirror peerID' keyID')) where
  sender := rfl
  receiver := rfl
  opens := nofun
  increasing := List.Pairwise.nil
  issued := nofun
  receives := rfl
  unchanged := nofun
  once := List.nodup_nil

theorem acceptPacketID_protection (d : DataChannel) (packetID : UInt32) :
    (d.acceptPacketID packetID).1.protection = d.protection := by
  fun_cases DataChannel.acceptPacketID d packetID with
  | _ => rfl

/-- An output arrives. -/
theorem Sound.deliver (h : Sound protection s) {output : Nat} {sent : Sent}
    (hsent : s.sent[output]? = some sent) :
    ∃ s', s.next (.deliver output) = some s' ∧ Sound protection s' ∧
      ((Fresh (s.returned.map Returned.packetID) sent.packetID ∧
        (s.receiver.decrypt sent.output).2 = .ok sent.packet ∧
        s'.returned = s.returned ++ [⟨output, sent.packetID, sent.packet⟩]) ∨
      (¬Fresh (s.returned.map Returned.packetID) sent.packetID ∧
        (s.receiver.decrypt sent.output).2 = .error (.replayed sent.packetID) ∧ s' = s)) := by
  have hopens := h.opens sent (List.mem_of_getElem? hsent) s.receiver h.receiver
  have hprotection := acceptPacketID_protection s.receiver sent.packetID
  have hspec := acceptPacketID_spec h.receives sent.packetID
  rw [DataChannel.accept] at hopens
  generalize s.receiver.acceptPacketID sent.packetID = result at hopens hprotection hspec
  obtain ⟨receiver, outcome⟩ := result
  obtain ⟨rfl, hfresh, hreceives⟩ | ⟨rfl, hstale, rfl⟩ := hspec
  · refine ⟨_, by simp only [Link.next, hsent, hopens]; rfl, ?_, .inl ⟨hfresh, ?_, rfl⟩⟩
    · refine ⟨h.sender, hprotection.trans h.receiver, h.opens, h.increasing, h.issued, ?_, ?_, ?_⟩
      · rw [List.map_append]
        exact hreceives
      · exact Table.forall_concat h.unchanged ⟨sent, hsent, rfl, rfl⟩
      · rw [List.map_append, List.map_singleton, ← List.concat_eq_append]
        exact h.once.concat hfresh.1
    · rw [hopens]
  · refine ⟨s, ?_, h, .inr ⟨hstale, ?_, rfl⟩⟩
    · simp only [Link.next, hsent, hopens]
    · rw [hopens]

theorem Sound.encrypt (h : Sound protection s) {packet : Bytes}
    {iv : Option (BigEndian.Fixed dataChannelCBCIVSize)}
    (hnext : s.next (.encrypt packet iv) = some s') : Sound protection s' := by
  simp only [Link.next] at hnext
  split at hnext
  · cases hnext
  next hnonempty =>
    unfold DataChannel.encrypt at hnext
    cases hid : s.sender.nextPacketID with
    | none =>
      rw [hid] at hnext
      cases hnext
      exact h
    | some result =>
      obtain ⟨sender, packetID⟩ := result
      obtain ⟨hprotection, rfl, hcount⟩ := nextPacketID_spec hid
      have hlater : ∀ sent ∈ s.sent, sent.packetID < sender.sendPacketID := by
        intro sent hsent
        have hle := UInt32.le_iff_toNat_le.mp (h.issued sent hsent)
        exact UInt32.lt_iff_toNat_lt.mpr (by omega)
      rw [hid] at hnext
      split at hnext <;> cases hnext
      next hfailed =>
        obtain ⟨rfl, -⟩ := Prod.mk.inj hfailed
        exact { h with
          sender := hprotection.trans h.sender
          issued := fun sent hsent => UInt32.le_of_lt (hlater sent hsent) }
      next output houtput =>
        obtain ⟨rfl, hprotect⟩ := Prod.mk.inj houtput
        refine ⟨hprotection.trans h.sender, h.receiver, ?_, ?_, ?_, h.receives, ?_, h.once⟩
        · refine Table.forall_concat h.opens ?_
          rw [← h.sender, ← hprotection]
          exact opens_protect hnonempty hprotect
        · exact Table.pairwise_concat h.increasing hlater
        · exact Table.forall_concat (fun sent hsent => UInt32.le_of_lt (hlater sent hsent))
            (UInt32.le_refl _)
        · intro r hr
          obtain ⟨sent, hsent, hsame⟩ := h.unchanged r hr
          refine ⟨sent, ?_, hsame⟩
          exact Table.getElem?_append hsent _

theorem sound_next {a : Action} (h : Sound protection s) (hnext : s.next a = some s') :
    Sound protection s' := by
  cases a with
  | encrypt packet iv => exact h.encrypt hnext
  | deliver output =>
    cases hsent : s.sent[output]? with
    | none =>
      simp only [Link.next, hsent] at hnext
      cases hnext
    | some sent =>
      obtain ⟨t, ht, hsound, -⟩ := h.deliver hsent
      cases ht.symm.trans hnext
      exact hsound

/-- It is enough to compare an id with the highest accepted one. -/
theorem fresh_iff {receiver : DataChannel} {returned : List Returned} {packetID : UInt32}
    (h : Receives receiver (returned.map Returned.packetID)) :
    Fresh (returned.map Returned.packetID) packetID ↔
      (∀ r ∈ returned, r.packetID ≠ packetID) ∧
      ∀ high ∈ returned, (∀ r ∈ returned, r.packetID ≤ high.packetID) →
        high.packetID.toNat < packetID.toNat + dataChannelReplayWindow := by
  refine and_congr (by simp) ⟨?_, ?_⟩
  · intro hnear high hhigh _
    exact hnear _ (List.mem_map_of_mem hhigh)
  · intro hhighest id hid
    obtain ⟨r, hr, rfl⟩ := List.mem_map.mp hid
    unfold Receives at h
    split at h
    · obtain ⟨high, hhigh, heq⟩ := List.mem_map.mp (mem_map_toNat.mp h.mem)
      have hle : ∀ r ∈ returned, r.packetID ≤ high.packetID := by
        intro r hr
        rw [heq]
        exact UInt32.le_iff_toNat_le.mpr (h.le _ (List.mem_map_of_mem (List.mem_map_of_mem hr)))
      have hlt := hhighest high hhigh hle
      have hr := UInt32.le_iff_toNat_le.mp (hle r hr)
      omega
    · rw [h] at hid
      cases hid

/-- Between two channels with mirrored keys no id and no nonce is used twice, every packet is
returned unchanged and at most once, and an output is decrypted to its packet exactly when
its id was not accepted before and is above the highest accepted id less 64. -/
theorem delivered_at_most_once {peerID peerID' : UInt32} {keyID keyID' : UInt8}
    {actions : List Action}
    (h : Transition.run Link.next (Link.start (.new protection peerID keyID)
      (.new protection.mirror peerID' keyID')) actions = some s) :
    (s.sent.map Sent.packetID).Nodup ∧
    (∀ implicit, (s.sent.map fun sent => nonce sent.packetID implicit).Nodup) ∧
    (s.returned.map Returned.output).Nodup ∧
    (∀ r ∈ s.returned, ∃ sent, s.sent[r.output]? = some sent ∧ sent.packetID = r.packetID ∧
      sent.packet = r.plain) ∧
    ∀ (output : Nat) (sent : Sent), s.sent[output]? = some sent →
      ((s.receiver.decrypt sent.output).2 = .ok sent.packet ↔
        (∀ r ∈ s.returned, r.packetID ≠ sent.packetID) ∧
        ∀ high ∈ s.returned, (∀ r ∈ s.returned, r.packetID ≤ high.packetID) →
          high.packetID.toNat < sent.packetID.toNat + 64) ∧
      ∀ plain, (s.receiver.decrypt sent.output).2 = .ok plain → plain = sent.packet := by
  have hsound : Sound protection s :=
    Transition.run_invariant (fun _ _ _ => sound_next)
      (sound_start protection peerID peerID' keyID keyID') h
  have hids : (s.sent.map Sent.packetID).Nodup := by
    refine List.pairwise_map.mpr (hsound.increasing.imp ?_)
    exact UInt32.ne_of_lt
  refine ⟨hids, ?_, ?_, hsound.unchanged, ?_⟩
  · intro implicit
    have hinjective : Function.Injective fun id => nonce id implicit :=
      fun _ _ => nonce_injective
    have hnonces := hids.map hinjective
    rwa [List.map_map] at hnonces
  · refine List.Nodup.of_map (fun output => s.sent[output]?.map Sent.packetID) ?_
    rw [List.map_map]
    have hsome : s.returned.map ((fun output => s.sent[output]?.map Sent.packetID) ∘
        Returned.output) = (s.returned.map Returned.packetID).map some := by
      rw [List.map_map]
      refine List.map_congr_left ?_
      intro r hr
      obtain ⟨sent, hsent, hid, -⟩ := hsound.unchanged r hr
      simp [hsent, hid]
    rw [hsome]
    exact hsound.once.map fun _ _ => Option.some.inj
  · intro output sent hsent
    obtain ⟨-, -, -, ⟨hfresh, hok, -⟩ | ⟨hstale, herror, -⟩⟩ := hsound.deliver hsent
    · refine ⟨iff_of_true hok ((fresh_iff hsound.receives).mp hfresh), ?_⟩
      intro plain hplain
      exact Except.ok.inj (hplain.symm.trans hok)
    · refine ⟨iff_of_false ?_ (mt (fresh_iff hsound.receives).mpr hstale), ?_⟩
      · intro hok
        cases herror.symm.trans hok
      · intro plain hplain
        cases herror.symm.trans hplain

/-- Two packets that arrive in the wrong order, one of them twice. -/
def reordered : List Action :=
  [.encrypt [1] (some (.zero 16)), .encrypt [2, 3] (some (.zero 16)), .deliver 1, .deliver 0,
    .deliver 1]

/-- Keys without a cipher behind them, the same in both directions. -/
def plainKeys : Protection := .aead (.untagged 16) (.untagged 16) (.zero 12) (.zero 12)

def plainCBC : Protection := .cbc 20 .plain .plain (.zero 20) (.zero 20)

theorem delivered_at_most_once_reordered :
    (∃ s, Transition.run Link.next (Link.start (.new plainKeys 5 1) (.new plainKeys.mirror 5 1))
        reordered = some s ∧
      s.returned.map Returned.plain = [[2, 3], [1]] ∧
      (s.returned.map Returned.output).Nodup) ∧
    ∃ s, Transition.run Link.next (Link.start (.new plainCBC 5 1) (.new plainCBC.mirror 5 1))
        reordered = some s ∧
      s.returned.map Returned.plain = [[2, 3], [1]] ∧
      (s.returned.map Returned.output).Nodup := by
  refine ⟨⟨_, (and_iff_left_of_imp fun h => ?_).mpr rfl⟩,
    _, (and_iff_left_of_imp fun h => ?_).mpr rfl⟩
  · exact ⟨rfl, (delivered_at_most_once h).2.2.1⟩
  · exact ⟨rfl, (delivered_at_most_once h).2.2.1⟩

end OpenVPN.DataDelivery
