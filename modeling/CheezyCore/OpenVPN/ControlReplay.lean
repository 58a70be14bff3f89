import Mathlib.Data.List.Induction
import Mathlib.Data.List.Nodup
import CheezyCore.Foundation.Table

/-!
# The replay window of a control channel

Packets with the tls-auth or tls-crypt wrapper carry a packet id and a time stamp. The
channel accepts the newest time stamp only and keeps, for the 64 ids up to the highest one,
when it accepted them by its own clock. `reap` closes the gaps behind an id that was accepted
more than 15 seconds ago.

A slot is `0` while its id is unseen and `1` once it is expired; these two values are not
available as times of acceptance.
-/

namespace OpenVPN.ControlReplay

def controlReplayWindow : Nat := 64

/-- 15 seconds, in nanoseconds. -/
def controlReplayTimeBacktrack : Int := 15000000000

/-- `Time.UnixNano`, of a clock reading in nanoseconds. -/
def unixNano (now : Int) : Int := now.bmod (2 ^ 64)

structure ReplayState where
  time : UInt32
  highID : UInt32
  slots : List Int
  seen : Bool
  deriving DecidableEq, Repr

inductive ReplayError where
  | packetIDZero
  | timestampBacktrack (unixTime newest : UInt32)
  | stale (packetID : UInt32)
  | replayedOrExpired (packetID : UInt32)
  deriving DecidableEq, Repr

def ReplayError.text : ReplayError → String
  | .packetIDZero => "openvpn control replay: packet id 0"
  | .timestampBacktrack unixTime newest =>
    s!"openvpn control replay: timestamp backtrack {unixTime} < {newest}"
  | .stale packetID => s!"openvpn control replay: stale packet id {packetID}"
  | .replayedOrExpired packetID =>
    s!"openvpn control replay: replayed or expired packet id {packetID}"

/-- The loop of `reap` from some slot on. -/
def reapSlots (now : Int) : Bool → List Int → List Int
  | _, [] => []
  | expire, accepted :: rest =>
    if accepted = 1 then accepted :: rest
    else
      let expire := expire || decide (1 < accepted ∧ accepted + controlReplayTimeBacktrack < now)
      (if expire then 1 else accepted) :: reapSlots now expire rest

/-- The two loops that move every slot back by `shift` places. -/
def slideSlots (shift : Nat) (slots : List Int) : List Int :=
  if controlReplayWindow ≤ shift then List.replicate controlReplayWindow 0
  else List.replicate shift 0 ++ slots.take (controlReplayWindow - shift)

namespace ReplayState

def start : ReplayState := ⟨0, 0, List.replicate controlReplayWindow 0, false⟩

def reap (r : ReplayState) (now : Int) : ReplayState :=
  { r with slots := reapSlots now false r.slots }

/-- `checkReplayLocked` at a reading of `replayClock`. The slots are reaped even when the
packet is refused. -/
def checkReplayLocked (r : ReplayState) (now : Int) (packetID unixTime : UInt32) :
    ReplayState × Option ReplayError :=
  if packetID = 0 then (r, some .packetIDZero)
  else if r.seen = false ∨ r.time < unixTime then
    (⟨unixTime, packetID, unixNano now :: List.replicate (controlReplayWindow - 1) 0, true⟩, none)
  else if unixTime < r.time then (r, some (.timestampBacktrack unixTime r.time))
  else
    let r := r.reap now
    if r.highID < packetID then
      let slots := slideSlots (packetID - r.highID).toNat r.slots
      ({ r with highID := packetID, slots := slots.set 0 (unixNano now) }, none)
    else
      let diff := (r.highID - packetID).toNat
      if controlReplayWindow ≤ diff then (r, some (.stale packetID))
      else if r.slots[diff]? = some 0 then
        ({ r with slots := r.slots.set diff (unixNano now) }, none)
      else (r, some (.replayedOrExpired packetID))

end ReplayState

/-- A packet as it is presented, with the reading of the clock. -/
structure Presented where
  now : Int
  packetID : UInt32
  unixTime : UInt32
  deriving DecidableEq, Repr

/-- The window with the packets it has accepted, the oldest first. -/
structure Guard where
  replay : ReplayState
  accepted : List Presented

namespace Guard

def start : Guard := ⟨ReplayState.start, []⟩

def present (g : Guard) (e : Presented) : Guard :=
  match g.replay.checkReplayLocked e.now e.packetID e.unixTime with
  | (r, none) => ⟨r, g.accepted ++ [e]⟩
  | (r, some _) => ⟨r, g.accepted⟩

def run (events : List Presented) : Guard := events.foldl present start

end Guard

/-- What `checkReplayLocked` does. -/
inductive Checks (r : ReplayState) (now : Int) (packetID unixTime : UInt32) :
    ReplayState → Option ReplayError → Prop where
  | zero (zero : packetID = 0) : Checks r now packetID unixTime r (some .packetIDZero)
  | reset (nonzero : packetID ≠ 0) (new : r.seen = false ∨ r.time < unixTime) :
      Checks r now packetID unixTime ⟨unixTime, packetID,
        unixNano now :: List.replicate (controlReplayWindow - 1) 0, true⟩ none
  | backtrack (seen : r.seen = true) (older : unixTime < r.time) :
      Checks r now packetID unixTime r (some (.timestampBacktrack unixTime r.time))
  | advance (nonzero : packetID ≠ 0) (seen : r.seen = true) (time : unixTime = r.time)
      (above : r.highID < packetID) :
      Checks r now packetID unixTime { r.reap now with
        highID := packetID
        slots := (slideSlots (packetID - r.highID).toNat (r.reap now).slots).set 0
          (unixNano now) } none
  | stale (seen : r.seen = true) (time : unixTime = r.time) (below : packetID ≤ r.highID)
      (far : controlReplayWindow ≤ r.highID.toNat - packetID.toNat) :
      Checks r now packetID unixTime (r.reap now) (some (.stale packetID))
  | fill (nonzero : packetID ≠ 0) (seen : r.seen = true) (time : unixTime = r.time)
      (below : packetID ≤ r.highID)
      (gap : (r.reap now).slots[r.highID.toNat - packetID.toNat]? = some 0) :
      Checks r now packetID unixTime { r.reap now with
        slots := (r.reap now).slots.set (r.highID - packetID).toNat (unixNano now) } none
  | taken (seen : r.seen = true) (time : unixTime = r.time) (below : packetID ≤ r.highID)
      (near : r.highID.toNat - packetID.toNat < controlReplayWindow)
      (taken : (r.reap now).slots[r.highID.toNat - packetID.toNat]? ≠ some 0) :
      Checks r now packetID unixTime (r.reap now) (some (.replayedOrExpired packetID))

theorem checkReplayLocked_inv (r : ReplayState) (now : Int) (packetID unixTime : UInt32) :
    Checks r now packetID unixTime (r.checkReplayLocked now packetID unixTime).1
      (r.checkReplayLocked now packetID unixTime).2 := by
  unfold ReplayState.checkReplayLocked
  split
  next hzero => exact .zero hzero
  next hzero =>
    split
    next hnew => exact .reset hzero hnew
    next hnew =>
      obtain ⟨hseen, hnewer⟩ := not_or.mp hnew
      rw [Bool.not_eq_false] at hseen
      split
      next holder => exact .backtrack hseen holder
      next holder =>
        have htime : unixTime = r.time :=
          UInt32.le_antisymm (UInt32.not_lt.mp hnewer) (UInt32.not_lt.mp holder)
        simp only
        split
        next habove => exact .advance hzero hseen htime habove
        next habove =>
          have hle : packetID ≤ r.highID := UInt32.not_lt.mp habove
          have hdiff : ((r.reap now).highID - packetID).toNat = r.highID.toNat - packetID.toNat :=
            UInt32.toNat_sub_of_le _ _ hle
          split
          next hfar => exact .stale hseen htime hle (hdiff ▸ hfar)
          next hnear =>
            split
            next hgap => exact .fill hzero hseen htime hle (hdiff ▸ hgap)
            next htaken => exact .taken hseen htime hle (by omega) (hdiff ▸ htaken)

/-! ## Reaping -/

variable {now last : Int} {slots : List Int} {i : Nat} {x : Int}

@[simp] theorem length_reapSlots (expire : Bool) :
    (reapSlots now expire slots).length = slots.length := by
  induction slots generalizing expire with
  | nil => rfl
  | cons accepted rest ih =>
    unfold reapSlots
    split
    · rfl
    · simp [ih]

/-- A slot stays as it is, or it expires at or behind an old one. -/
theorem getElem?_reapSlots {expire : Bool} (h : (reapSlots now expire slots)[i]? = some x) :
    ∃ y, slots[i]? = some y ∧ (x = y ∨ (x = 1 ∧ (expire = true ∨ ∃ (k : Nat) (z : Int), k ≤ i ∧
      slots[k]? = some z ∧ 1 < z ∧ z + controlReplayTimeBacktrack < now))) := by
  induction slots generalizing expire i with
  | nil => cases h
  | cons accepted rest ih =>
    unfold reapSlots at h
    split at h
    · exact ⟨x, h, .inl rfl⟩
    · cases i with
      | zero =>
        refine ⟨accepted, rfl, ?_⟩
        have hx : (if (expire || decide (1 < accepted ∧
            accepted + controlReplayTimeBacktrack < now)) = true then 1 else accepted) = x :=
          Option.some.inj h
        split at hx
        next hold =>
          refine .inr ⟨hx.symm, ?_⟩
          obtain hold | hold := Bool.or_eq_true_iff.mp hold
          · exact .inl hold
          · exact .inr ⟨0, accepted, Nat.le_refl 0, rfl, of_decide_eq_true hold⟩
        · exact .inl hx.symm
      | succ i =>
        obtain ⟨y, hy, hsame | ⟨hx, hold | ⟨k, z, hk, hz, hold⟩⟩⟩ := ih h
        · exact ⟨y, hy, .inl hsame⟩
        · refine ⟨y, hy, .inr ⟨hx, ?_⟩⟩
          obtain hold | hold := Bool.or_eq_true_iff.mp hold
          · exact .inl hold
          · exact .inr ⟨0, accepted, Nat.zero_le _, rfl, of_decide_eq_true hold⟩
        · exact ⟨y, hy, .inr ⟨hx, .inr ⟨k + 1, z, Nat.succ_le_succ hk, hz, hold⟩⟩⟩

theorem length_slideSlots {shift : Nat} (h : slots.length = controlReplayWindow) :
    (slideSlots shift slots).length = controlReplayWindow := by
  unfold slideSlots
  split
  · exact List.length_replicate
  · rw [List.length_append, List.length_replicate, List.length_take]
    omega

theorem getElem?_slideSlots {shift : Nat} (h : (slideSlots shift slots)[i]? = some x) :
    (i < shift ∧ x = 0) ∨ (shift ≤ i ∧ slots[i - shift]? = some x) := by
  unfold slideSlots at h
  split at h
  · obtain ⟨hi, hx⟩ := Table.of_getElem?_replicate h
    exact .inl ⟨by omega, hx⟩
  · obtain hlt | hge := Nat.lt_or_ge i shift
    · rw [List.getElem?_append_left (by rwa [List.length_replicate])] at h
      exact .inl ⟨hlt, (Table.of_getElem?_replicate h).2⟩
    · rw [List.getElem?_append_right (by rwa [List.length_replicate]),
        List.length_replicate] at h
      rw [List.getElem?_take] at h
      split at h
      · exact .inr ⟨hge, h⟩
      · cases h

/-! ## The window and the packets it accepted -/

/-- The reading of a clock that can be told from an unseen slot. -/
def Readable (now : Int) : Prop := -2 ^ 63 ≤ now ∧ now < 2 ^ 63 ∧ now ≠ 0

theorem unixNano_of_readable (h : Readable now) : unixNano now = now := by
  obtain ⟨hlow, hhigh, -⟩ := h
  unfold unixNano
  rw [Int.bmod_eq_of_le] <;> omega

/-- What the slots say of the accepted packets, at the last reading of the clock. -/
structure Window (r : ReplayState) (accepted : List Presented) (last : Int) : Prop where
  length : r.slots.length = controlReplayWindow
  seen : r.seen = true ↔ accepted ≠ []
  highest : r.seen = true → ∃ a ∈ accepted, a.unixTime = r.time ∧ a.packetID = r.highID
  newest : ∀ a ∈ accepted, a.unixTime ≤ r.time
  below : ∀ a ∈ accepted, a.unixTime = r.time → a.packetID ≤ r.highID
  marked : ∀ a ∈ accepted, a.unixTime = r.time →
    r.slots[r.highID.toNat - a.packetID.toNat]? ≠ some 0
  stamped : ∀ (i : Nat) (x : Int), r.slots[i]? = some x → x ≠ 0 → x ≠ 1 →
    ∃ a ∈ accepted, a.unixTime = r.time ∧ a.packetID.toNat + i = r.highID.toNat ∧ a.now = x
  expired : ∀ i : Nat, r.slots[i]? = some 1 → ∃ a ∈ accepted, a.unixTime = r.time ∧
    r.highID.toNat ≤ a.packetID.toNat + i ∧
    (a.packetID.toNat + i = r.highID.toNat ∨ a.now + controlReplayTimeBacktrack < last)

namespace Window

variable {r : ReplayState} {accepted : List Presented} {e : Presented}

theorem start (last : Int) : Window ReplayState.start [] last where
  length := rfl
  seen := by simp [ReplayState.start]
  highest := nofun
  newest := nofun
  below := nofun
  marked := nofun
  stamped i x hx hzero := absurd (Table.of_getElem?_replicate hx).2 hzero
  expired i hx := absurd (Table.of_getElem?_replicate hx).2 Int.one_ne_zero

section

variable (h : Window r accepted last)
include h

theorem later (clock : last ≤ now) : Window r accepted now := by
  refine { h with expired := ?_ }
  intro i hi
  obtain ⟨a, ha, htime, hid, hwhy⟩ := h.expired i hi
  exact ⟨a, ha, htime, hid, hwhy.imp_right fun hold => Int.lt_of_lt_of_le hold clock⟩

theorem older {unixTime : UInt32} (new : r.seen = false ∨ r.time < unixTime) :
    ∀ a ∈ accepted, a.unixTime < unixTime := by
  intro a ha
  obtain hunseen | hnewer := new
  · rw [Bool.eq_false_iff, Ne, h.seen, not_not] at hunseen
    rw [hunseen] at ha
    cases ha
  · exact UInt32.lt_of_le_of_lt (h.newest a ha) hnewer

theorem reap (clock : last ≤ now) : Window (r.reap now) accepted now := by
  refine ⟨(length_reapSlots false).trans h.length, h.seen, h.highest, h.newest, h.below, ?_, ?_, ?_⟩
  · intro a ha htime hzero
    obtain ⟨y, hy, rfl | ⟨⟨⟩, -⟩⟩ := getElem?_reapSlots hzero
    exact h.marked a ha htime hy
  · intro i x hx hzero hone
    obtain ⟨y, hy, rfl | ⟨hexpired, -⟩⟩ := getElem?_reapSlots hx
    · exact h.stamped i x hy hzero hone
    · exact absurd hexpired hone
  · intro i hx
    obtain ⟨y, hy, rfl | ⟨-, hnever | ⟨k, z, hk, hz, hstamp, hold⟩⟩⟩ := getElem?_reapSlots hx
    · exact (h.later clock).expired i hy
    · cases hnever
    · obtain ⟨a, ha, htime, hid, rfl⟩ := h.stamped k z hz (by omega) (by omega)
      exact ⟨a, ha, htime, by show r.highID.toNat ≤ _; omega, .inr hold⟩

/-- The window opens anew for the first packet and for a newer time stamp. -/
theorem reset (readable : Readable e.now) (new : r.seen = false ∨ r.time < e.unixTime) :
    Window ⟨e.unixTime, e.packetID,
      unixNano e.now :: List.replicate (controlReplayWindow - 1) 0, true⟩
      (accepted ++ [e]) e.now := by
  have hold := h.older new
  have hself : ∀ a ∈ accepted ++ [e], a.unixTime = e.unixTime → a = e := by
    intro a ha htime
    rcases Table.mem_concat ha with ha | rfl
    · exact absurd htime (UInt32.ne_of_lt (hold a ha))
    · rfl
  have hmem : e ∈ accepted ++ [e] := List.mem_concat_self
  have hnano := unixNano_of_readable readable
  refine ⟨by simp [controlReplayWindow], by simp, fun _ => ⟨e, hmem, rfl, rfl⟩, ?_, ?_, ?_, ?_, ?_⟩
  · exact Table.forall_concat (fun a ha => UInt32.le_of_lt (hold a ha)) (UInt32.le_refl _)
  · intro a ha htime
    rw [hself a ha htime]
    exact UInt32.le_refl _
  · intro a ha htime
    rw [hself a ha htime, Nat.sub_self, hnano]
    exact fun hzero => readable.2.2 (Option.some.inj hzero)
  · intro i x hx hzero hone
    cases i with
    | zero => exact ⟨e, hmem, rfl, rfl, hnano.symm.trans (Option.some.inj hx)⟩
    | succ i => exact absurd (Table.of_getElem?_replicate hx).2 hzero
  · intro i hx
    cases i with
    | zero => exact ⟨e, hmem, rfl, Nat.le_refl _, .inl rfl⟩
    | succ i => exact absurd (Table.of_getElem?_replicate hx).2 Int.one_ne_zero

section

variable (readable : Readable e.now) (seen : r.seen = true) (time : e.unixTime = r.time)
include readable seen time

/-- An id above the highest moves the window. -/
theorem advance (above : r.highID < e.packetID) : Window { r with
      highID := e.packetID
      slots := (slideSlots (e.packetID - r.highID).toNat r.slots).set 0 (unixNano e.now) }
      (accepted ++ [e]) last := by
  have hshift := UInt32.toNat_sub_of_le _ _ (UInt32.le_of_lt above)
  rw [UInt32.lt_iff_toNat_lt] at above
  have hmem : e ∈ accepted ++ [e] := List.mem_concat_self
  have hnano := unixNano_of_readable readable
  have hslots : ∀ (i : Nat) (x : Int),
      ((slideSlots (e.packetID - r.highID).toNat r.slots).set 0 (unixNano e.now))[i]? = some x →
      x ≠ 0 → (i = 0 ∧ x = e.now) ∨ ∃ k, i = k + (e.packetID.toNat - r.highID.toNat) ∧
        r.slots[k]? = some x := by
    intro i x hx hzero
    rw [hnano] at hx
    obtain ⟨-, hx⟩ | ⟨hi, hx⟩ := Table.getElem?_set_cases hx
    · obtain ⟨-, hx⟩ | ⟨hge, hx⟩ := getElem?_slideSlots hx
      · exact absurd hx hzero
      · rw [hshift] at hge hx
        exact .inr ⟨_, (Nat.sub_add_cancel hge).symm, hx⟩
    · exact .inl ⟨hi.symm, hx⟩
  have hbelow : ∀ a ∈ accepted, a.unixTime = r.time → a.packetID.toNat ≤ r.highID.toNat :=
    fun a ha htime => UInt32.le_iff_toNat_le.mp (h.below a ha htime)
  refine ⟨?_, by simp [seen], fun _ => ⟨e, hmem, time, rfl⟩, ?_, ?_, ?_, ?_, ?_⟩
  · rw [List.length_set]
    exact length_slideSlots h.length
  · exact Table.forall_concat h.newest (time ▸ UInt32.le_refl _)
  · intro a ha htime
    rcases Table.mem_concat ha with ha | rfl
    · have hle := hbelow a ha htime
      exact UInt32.le_iff_toNat_le.mpr (by show _ ≤ e.packetID.toNat; omega)
    · exact UInt32.le_refl _
  · intro a ha htime hzero
    change ((slideSlots _ r.slots).set 0 _)[e.packetID.toNat - a.packetID.toNat]? = _ at hzero
    rw [hnano] at hzero
    obtain ⟨hne, hzero⟩ | ⟨-, hzero⟩ := Table.getElem?_set_cases hzero
    · rcases Table.mem_concat ha with ha | rfl
      · have hle := hbelow a ha htime
        obtain ⟨hlt, -⟩ | ⟨-, hzero⟩ := getElem?_slideSlots hzero
        · omega
        · refine h.marked a ha htime ?_
          rw [← hzero]
          congr 1
          omega
      · exact absurd (Nat.sub_self _).symm hne
    · exact readable.2.2 hzero.symm
  · intro i x hx hzero hone
    obtain ⟨rfl, rfl⟩ | ⟨k, rfl, hk⟩ := hslots i x hx hzero
    · exact ⟨e, hmem, time, rfl, rfl⟩
    · obtain ⟨a, ha, htime, hid, hnow⟩ := h.stamped k x hk hzero hone
      exact ⟨a, List.mem_append_left _ ha, htime, by show _ = e.packetID.toNat; omega, hnow⟩
  · intro i hx
    obtain ⟨rfl, -⟩ | ⟨k, rfl, hk⟩ := hslots i 1 hx Int.one_ne_zero
    · exact ⟨e, hmem, time, Nat.le_refl _, .inl rfl⟩
    · obtain ⟨a, ha, htime, hid, hwhy⟩ := h.expired k hk
      refine ⟨a, List.mem_append_left _ ha, htime, ?_, hwhy.imp_left ?_⟩
      · show e.packetID.toNat ≤ _
        omega
      · intro heq
        show _ = e.packetID.toNat
        omega

/-- An unseen id fills its gap. -/
theorem fill (below : e.packetID ≤ r.highID) :
    Window { r with slots := r.slots.set (r.highID - e.packetID).toNat (unixNano e.now) }
      (accepted ++ [e]) last := by
  have hdiff := UInt32.toNat_sub_of_le _ _ below
  have hle := UInt32.le_iff_toNat_le.mp below
  have hmem : e ∈ accepted ++ [e] := List.mem_concat_self
  rw [hdiff, unixNano_of_readable readable]
  refine ⟨List.length_set.trans h.length, by simp [seen], ?_, ?_, ?_, ?_, ?_, ?_⟩
  · intro hseen
    obtain ⟨a, ha, hhigh⟩ := h.highest hseen
    exact ⟨a, List.mem_append_left _ ha, hhigh⟩
  · exact Table.forall_concat h.newest (time ▸ UInt32.le_refl _)
  · exact Table.forall_concat h.below fun _ => below
  · intro a ha htime hzero
    obtain ⟨hne, hzero⟩ | ⟨-, hzero⟩ := Table.getElem?_set_cases hzero
    · rcases Table.mem_concat ha with ha | rfl
      · exact h.marked a ha htime hzero
      · exact absurd rfl hne
    · exact readable.2.2 hzero.symm
  · intro i x hx hzero hone
    obtain ⟨-, hx⟩ | ⟨rfl, rfl⟩ := Table.getElem?_set_cases hx
    · obtain ⟨a, ha, hstamp⟩ := h.stamped i x hx hzero hone
      exact ⟨a, List.mem_append_left _ ha, hstamp⟩
    · exact ⟨e, hmem, time, Nat.add_sub_cancel' hle, rfl⟩
  · intro i hx
    obtain ⟨-, hx⟩ | ⟨rfl, -⟩ := Table.getElem?_set_cases hx
    · obtain ⟨a, ha, hexpired⟩ := h.expired i hx
      exact ⟨a, List.mem_append_left _ ha, hexpired⟩
    · have heq := Nat.add_sub_cancel' hle
      exact ⟨e, hmem, time, Nat.le_of_eq heq.symm, .inl heq⟩

end

end

end Window

/-! ## Runs -/

/-- What the accepted packets are, beside the window. -/
structure Sound (g : Guard) (last : Int) : Prop where
  window : Window g.replay g.accepted last
  once : (g.accepted.map fun a => (a.packetID, a.unixTime)).Nodup
  nonzero : ∀ a ∈ g.accepted, a.packetID ≠ 0
  sorted : g.accepted.Pairwise fun a b => a.unixTime ≤ b.unixTime

variable {g : Guard} {e : Presented} {r : ReplayState}

/-- A packet is accepted with a new pair. -/
theorem Sound.accept (h : Sound g last) (nonzero : e.packetID ≠ 0)
    (window : Window r (g.accepted ++ [e]) now) (newest : ∀ a ∈ g.accepted, a.unixTime ≤ e.unixTime)
    (new : ∀ a ∈ g.accepted, a.unixTime = e.unixTime → a.packetID ≠ e.packetID) :
    Sound ⟨r, g.accepted ++ [e]⟩ now := by
  refine ⟨window, ?_, ?_, ?_⟩
  · rw [List.map_append, List.map_singleton, ← List.concat_eq_append]
    refine h.once.concat ?_
    intro hmem
    obtain ⟨a, ha, heq⟩ := List.mem_map.mp hmem
    exact new a ha (congrArg Prod.snd heq) (congrArg Prod.fst heq)
  · exact Table.forall_concat h.nonzero nonzero
  · exact Table.pairwise_concat h.sorted newest

theorem Sound.refuse (h : Sound g last) (window : Window r g.accepted now) :
    Sound ⟨r, g.accepted⟩ now :=
  { h with window }

theorem Sound.present (h : Sound g last) (clock : last ≤ e.now) (readable : Readable e.now) :
    Sound (g.present e) e.now := by
  have hwindow := h.window
  have hreap := hwindow.reap clock
  have hchecks := checkReplayLocked_inv g.replay e.now e.packetID e.unixTime
  unfold Guard.present
  generalize g.replay.checkReplayLocked e.now e.packetID e.unixTime = result at hchecks ⊢
  obtain ⟨r, outcome⟩ := result
  cases hchecks with
  | zero | backtrack => exact h.refuse (hwindow.later clock)
  | reset nonzero new =>
    have hold := hwindow.older new
    exact h.accept nonzero (hwindow.reset readable new) (fun a ha => UInt32.le_of_lt (hold a ha))
      fun a ha htime => absurd htime (UInt32.ne_of_lt (hold a ha))
  | advance nonzero seen time above =>
    refine h.accept nonzero (hreap.advance readable seen time above)
      (time ▸ hwindow.newest) ?_
    intro a ha htime
    have hle := hwindow.below a ha (htime.trans time)
    exact UInt32.ne_of_lt (UInt32.lt_of_le_of_lt hle above)
  | stale | taken => exact h.refuse hreap
  | fill nonzero seen time below gap =>
    refine h.accept nonzero (hreap.fill readable seen time below) (time ▸ hwindow.newest) ?_
    intro a ha htime hid
    exact hreap.marked a ha (htime.trans time) (hid ▸ gap)

theorem sound_run {events : List Presented} (clock : events.Pairwise fun e f => e.now ≤ f.now)
    (readable : ∀ e ∈ events, Readable e.now) (last : Int)
    (later : ∀ e ∈ events, e.now ≤ last) : Sound (Guard.run events) last := by
  induction events using List.reverseRecOn generalizing last with
  | nil => exact ⟨Window.start last, List.nodup_nil, nofun, List.Pairwise.nil⟩
  | append_singleton events e ih =>
    have hmem : e ∈ events ++ [e] := List.mem_concat_self
    rw [List.pairwise_append] at clock
    obtain ⟨hclock, -, hlater⟩ := clock
    have hbefore := ih hclock (fun f hf => readable f (List.mem_append_left _ hf)) e.now
      fun f hf => hlater f hf e List.mem_cons_self
    have hafter := hbefore.present (Int.le_refl _) (readable e hmem)
    unfold Guard.run
    rw [List.foldl_append]
    exact { hafter with window := hafter.window.later (later e hmem) }

/-- An id is refused only if it was accepted or an accepted id from it on is too old. -/
theorem Window.admits {accepted : List Presented} {packetID : UInt32}
    (h : Window r accepted now) (nonzero : packetID ≠ 0)
    (new : ∀ a ∈ accepted, a.unixTime = r.time → a.packetID ≠ packetID)
    (recent : r.highID < packetID ∨ (r.highID.toNat ≤ packetID.toNat + 63 ∧
      ∀ a ∈ accepted, a.unixTime = r.time → packetID ≤ a.packetID →
        now ≤ a.now + controlReplayTimeBacktrack)) :
    (r.checkReplayLocked now packetID r.time).2 = none := by
  have hreap := h.reap (Int.le_refl now)
  have hchecks := checkReplayLocked_inv r now packetID r.time
  generalize (r.checkReplayLocked now packetID r.time).1 = after at hchecks
  generalize (r.checkReplayLocked now packetID r.time).2 = outcome at hchecks ⊢
  cases hchecks with
  | zero hzero => exact absurd hzero nonzero
  | reset | advance | fill => rfl
  | backtrack _ older => exact absurd older (UInt32.lt_irrefl _)
  | stale _ _ below far =>
    obtain above | ⟨hnear, -⟩ := recent
    · exact absurd above (UInt32.not_lt.mpr below)
    · unfold controlReplayWindow at far
      omega
  | taken _ _ below near taken =>
    obtain above | ⟨-, hrecent⟩ := recent
    · exact absurd above (UInt32.not_lt.mpr below)
    have hle := UInt32.le_iff_toNat_le.mp below
    rw [← hreap.length] at near
    have hslot := List.getElem?_eq_getElem near
    generalize (r.reap now).slots[r.highID.toNat - packetID.toNat] = x at hslot
    -- The slot has the time at which the id was accepted, or is expired.
    by_cases hone : x = 1
    · subst hone
      obtain ⟨a, ha, htime, hid, heq | hold⟩ := hreap.expired _ hslot
      · change _ = r.highID.toNat at heq
        exact absurd (UInt32.toNat_inj.mp (by omega)) (new a ha htime)
      · change r.highID.toNat ≤ _ at hid
        have hrecent := hrecent a ha htime (UInt32.le_iff_toNat_le.mpr (by omega))
        omega
    · have hzero : x ≠ 0 := fun hzero => taken (hzero ▸ hslot)
      obtain ⟨a, ha, htime, hid, -⟩ := hreap.stamped _ x hslot hzero hone
      change _ = r.highID.toNat at hid
      exact absurd (UInt32.toNat_inj.mp (by omega)) (new a ha htime)

/-- For a clock that does not go back and never reads the epoch, in the years that it can
tell in nanoseconds: a pair is accepted at most once and never with id 0, the time stamps of
the accepted pairs do not go back, and an id that was not accepted with the newest time stamp
is accepted with it if it is above the highest such id, or at most 63 below it while every
accepted id from it on is at most 15 seconds old. -/
theorem replay_window_exact {events : List Presented}
    (clock : events.Pairwise fun e f => e.now ≤ f.now)
    (readable : ∀ e ∈ events, Readable e.now) :
    ((Guard.run events).accepted.map fun a => (a.packetID, a.unixTime)).Nodup ∧
    (∀ a ∈ (Guard.run events).accepted, a.packetID ≠ 0) ∧
    ((Guard.run events).accepted.Pairwise fun a b => a.unixTime ≤ b.unixTime) ∧
    ∀ (now : Int) (packetID : UInt32), (∀ e ∈ events, e.now ≤ now) → packetID ≠ 0 →
      ∀ high ∈ (Guard.run events).accepted,
      (∀ a ∈ (Guard.run events).accepted, a.unixTime ≤ high.unixTime) →
      (∀ a ∈ (Guard.run events).accepted, a.unixTime = high.unixTime →
        a.packetID ≤ high.packetID ∧ a.packetID ≠ packetID) →
      (high.packetID < packetID ∨ (high.packetID.toNat ≤ packetID.toNat + 63 ∧
        ∀ a ∈ (Guard.run events).accepted, a.unixTime = high.unixTime →
          packetID ≤ a.packetID → now ≤ a.now + controlReplayTimeBacktrack)) →
      ((Guard.run events).replay.checkReplayLocked now packetID high.unixTime).2 = none := by
  have hend : ∃ last, ∀ e ∈ events, e.now ≤ last := by
    obtain rfl | ⟨before, e, rfl⟩ := List.eq_nil_or_concat events
    · exact ⟨0, nofun⟩
    · refine ⟨e.now, ?_⟩
      intro f hf
      rw [List.concat_eq_append] at clock hf
      rcases Table.mem_concat hf with hf | rfl
      · exact (List.pairwise_append.mp clock).2.2 f hf e List.mem_cons_self
      · exact Int.le_refl _
  obtain ⟨last, hlast⟩ := hend
  have hsound := sound_run clock readable last hlast
  refine ⟨hsound.once, hsound.nonzero, hsound.sorted, ?_⟩
  intro now packetID hlater hnonzero high hhigh hnewest hids hrecent
  have hwindow := (sound_run clock readable now hlater).window
  have hseen : (Guard.run events).replay.seen = true :=
    hwindow.seen.mpr (List.ne_nil_of_mem hhigh)
  obtain ⟨top, htop, htime, hid⟩ := hwindow.highest hseen
  have htimes : high.unixTime = (Guard.run events).replay.time :=
    UInt32.le_antisymm (hwindow.newest high hhigh) (htime ▸ hnewest top htop)
  have hhighest : high.packetID = (Guard.run events).replay.highID :=
    UInt32.le_antisymm (hwindow.below high hhigh htimes)
      (hid ▸ (hids top htop (htime.trans htimes.symm)).1)
  rw [htimes] at hids hrecent ⊢
  rw [hhighest] at hrecent
  exact hwindow.admits hnonzero (fun a ha ht => (hids a ha ht).2) hrecent

/-- Two ids are accepted with a gap between them. -/
def twoAccepted : List Presented := [⟨2, 1, 7⟩, ⟨3, 3, 7⟩]

theorem replay_window_exact_twoAccepted :
    (twoAccepted.Pairwise fun e f => e.now ≤ f.now) ∧
      ((Guard.run twoAccepted).replay.checkReplayLocked 4 2 7).2 = none := by
  have hclock : twoAccepted.Pairwise fun e f => e.now ≤ f.now := by decide
  have hreadable : ∀ e ∈ twoAccepted, Readable e.now := by
    unfold Readable
    decide
  obtain ⟨-, -, -, hadmits⟩ := replay_window_exact hclock hreadable
  exact ⟨hclock, hadmits 4 2 (by decide) (by decide) ⟨3, 3, 7⟩ (by decide) (by decide) (by decide)
    (.inr ⟨by decide, by decide⟩)⟩

/-- At the epoch an accepted packet leaves its slot unseen, and is accepted again. -/
theorem accepted_twice_at_epoch :
    ([⟨0, 1, 7⟩, ⟨0, 1, 7⟩] : List Presented).Pairwise (fun e f => e.now ≤ f.now) ∧
      ((Guard.run [⟨0, 1, 7⟩, ⟨0, 1, 7⟩]).accepted.map fun a => (a.packetID, a.unixTime)) =
        [(1, 7), (1, 7)] :=
  ⟨by decide, rfl⟩

end OpenVPN.ControlReplay
