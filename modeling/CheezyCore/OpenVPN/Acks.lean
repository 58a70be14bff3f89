import CheezyCore.OpenVPN.ControlDelivery

/-!
# Acknowledgements on their way out

`takeAcksLocked` moves the first pending ids to the front of the list of the most recent
ones, and a packet carries the beginning of that list. No id is lost on the way: one that is
no longer pending is on the packet for which it was taken.
-/

namespace OpenVPN

variable {acks : List UInt32} {id : UInt32} {c c' : ControlChannel} {limit : Nat}

theorem prefix_moveToFront {first : List UInt32} (h : first <+: acks) (hid : id ∉ first)
    (hlength : first.length < reliableAckSize) : id :: first <+: moveToFront acks id := by
  obtain ⟨rest, rfl⟩ := h
  rw [moveToFront_eq, List.prefix_take_iff, List.erase_append_right _ hid]
  refine ⟨⟨rest.erase id, rfl⟩, ?_⟩
  rw [List.length_cons]
  omega

theorem nodup_moveToFront (h : acks.Nodup) : (moveToFront acks id).Nodup := by
  rw [moveToFront_eq]
  exact (List.nodup_cons.mpr ⟨h.not_mem_erase, h.erase id⟩).sublist (List.take_sublist _ _)

theorem length_moveToFront (h : acks.length ≤ reliableAckSize) :
    (moveToFront acks id).length ≤ reliableAckSize := by
  rw [moveToFront_eq, Nat.max_eq_left h]
  exact List.length_take_le _ _

/-- The ids that are consumed come first, in their order. -/
theorem foldl_moveToFront {ids : List UInt32} (hids : ids.Nodup)
    (hlength : ids.length ≤ reliableAckSize) (hacks : acks.Nodup)
    (hsize : acks.length ≤ reliableAckSize) :
    let moved := ids.reverse.foldl moveToFront acks
    ids <+: moved ∧ moved.Nodup ∧ moved.length ≤ reliableAckSize := by
  induction ids with
  | nil => exact ⟨List.nil_prefix, hacks, hsize⟩
  | cons id rest ih =>
    obtain ⟨hnew, hrest⟩ := List.nodup_cons.mp hids
    rw [List.length_cons] at hlength
    obtain ⟨hfirst, hnodup, hmoved⟩ := ih hrest (by omega)
    rw [List.reverse_cons, List.foldl_append]
    exact ⟨prefix_moveToFront hfirst hnew hlength, nodup_moveToFront hnodup,
      length_moveToFront hmoved⟩

/-- The calls that add and take acknowledgements. A packet carries one to eight. -/
inductive AckCall where
  | appendAck (id : UInt32)
  | takeAcks (limit : Nat)

def AckCall.next (c : ControlChannel) : AckCall → Option ControlChannel
  | .appendAck id => some (c.queueAck id)
  | .takeAcks limit => if 1 ≤ limit ∧ limit ≤ 8 then some (c.takeAcksLocked limit).1 else none

/-- No id is listed twice, and not more than eight are kept. -/
structure Distinct (c : ControlChannel) : Prop where
  pending : c.ackPending.Nodup
  recent : c.lruAcks.Nodup
  length : c.lruAcks.length ≤ reliableAckSize

theorem Distinct.queueAck (h : Distinct c) (id : UInt32) : Distinct (c.queueAck id) where
  __ := h
  pending := by
    unfold ControlChannel.queueAck appendAck
    split
    · exact h.pending
    next hnew => exact Table.pairwise_concat h.pending fun other hother heq => hnew (heq ▸ hother)

theorem Distinct.takeAcks (h : Distinct c) (hlimit : limit ≤ reliableAckSize) :
    Distinct (c.takeAcksLocked limit).1 ∧
      c.ackPending.take limit <+: (c.takeAcksLocked limit).2 := by
  have htaken : (c.ackPending.take limit).length ≤ limit := List.length_take_le _ _
  obtain ⟨hfirst, hnodup, hlength⟩ := foldl_moveToFront (h.pending.sublist (List.take_sublist _ _))
    (Nat.le_trans htaken hlimit) h.recent h.length
  unfold ControlChannel.takeAcksLocked
  rw [List.take_of_length_le hlength]
  exact ⟨⟨h.pending.sublist (List.drop_sublist _ _), hnodup, hlength⟩,
    List.prefix_take_iff.mpr ⟨hfirst, htaken⟩⟩

theorem Distinct.next {call : AckCall} (h : Distinct c) (hnext : call.next c = some c') :
    Distinct c' := by
  cases call with
  | appendAck id =>
    cases hnext
    exact h.queueAck id
  | takeAcks limit =>
    obtain ⟨hlimit, rfl⟩ := Transition.of_guard hnext
    exact (h.takeAcks hlimit.2).1

/-- After every sequence of calls the most recent ids are distinct and at most eight, and a
call that takes acknowledgements returns all ids that it removes, first and in their order. -/
theorem acks_conserved {calls : List AckCall} (none : c.ackPending = [] ∧ c.lruAcks = [])
    (h : Transition.run AckCall.next c calls = some c') :
    c'.lruAcks.Nodup ∧ c'.lruAcks.length ≤ 8 ∧ ∀ limit, 1 ≤ limit → limit ≤ 8 →
      (c'.takeAcksLocked limit).2.length ≤ limit ∧
      ∃ removed, c'.ackPending = removed ++ (c'.takeAcksLocked limit).1.ackPending ∧
        removed <+: (c'.takeAcksLocked limit).2 := by
  have hstart : Distinct c := by
    refine ⟨?_, ?_, ?_⟩
    · simp [none.1]
    · simp [none.2]
    · simp [none.2]
  have hdistinct : Distinct c' :=
    Transition.run_invariant (fun _ _ _ h hnext => h.next hnext) hstart h
  refine ⟨hdistinct.recent, hdistinct.length, fun limit _ hlimit => ⟨List.length_take_le _ _, ?_⟩⟩
  exact ⟨_, (List.take_append_drop limit _).symm, (hdistinct.takeAcks hlimit).2⟩

/-- Id 5 is acknowledged twice. -/
def repeatedAck : List AckCall :=
  [.appendAck 5, .appendAck 6, .appendAck 5, .takeAcks 1, .appendAck 5]

theorem acks_conserved_repeatedAck :
    ∃ c, Transition.run AckCall.next plainChannel repeatedAck = some c ∧ c.ackPending = [6, 5] ∧
      ∃ removed, c.ackPending = removed ++ (c.takeAcksLocked 2).1.ackPending ∧
        removed <+: (c.takeAcksLocked 2).2 := by
  refine ⟨_, (and_iff_left_of_imp fun h => ?_).mpr rfl⟩
  exact ⟨rfl, ((acks_conserved ⟨rfl, rfl⟩ h).2.2 2 (by decide) (by decide)).2⟩

end OpenVPN
