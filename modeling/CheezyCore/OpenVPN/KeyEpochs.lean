import Mathlib.Logic.Function.Basic
import CheezyCore.Foundation.Table
import CheezyCore.Foundation.Transition

/-!
# Data epochs of a client

A rekey installs a new data channel beside the previous one. Packets are decrypted by the
channel whose key id they carry, the previous one only until its expiry. Packets are
encrypted by the previous channel until the peer is seen to use the new one, or its window is
over.

Every critical section of `dataLock` is one step with the readings it takes of the clock. How
the readings of different sections lie in time is left open, since sections under a read lock
overlap. `writeDataPacket` holds `writeSem`, a `semaphore.Weighted` of size one, of which is
taken that `Acquire(ctx, 1)` waits until no other call holds it, so that there is one writer at
a time; between its sections anything else may happen. `MarkPeerActive` takes no lock: a mark
that falls between the check of a section and its encryption comes after that section here. An
epoch is named by its place in the order of installation. `selectionStart` is what
`outboundStart` was when the newest epoch was installed, `encrypted` and `decrypted` are history.
-/

namespace OpenVPN.KeyEpochs

abbrev EpochId := Nat

/-- `authDeferredExpire`: 60 seconds in nanoseconds. -/
def authDeferredExpire : Int := 60000000000

/-- What the client needs to know of a `DataChannel`. -/
structure Epoch where
  keyID : UInt8
  recvEvidence : Bool
  deriving DecidableEq, Repr

/-- The readings of `time.Now()` in one critical section, in the order they are taken. -/
structure Times where
  first : Int
  second : Int
  third : Int

/-- Where `writeDataPacket` is. -/
inductive Phase where
  | selecting
  | promoting
  | revalidating (outbound : EpochId)
  /-- It waits for the epoch after this number of installations. -/
  | paused (installed : Nat)
  deriving DecidableEq, Repr

structure State where
  epochs : List Epoch
  data : Option EpochId
  outboundKey : Option EpochId
  outboundStart : Int
  selectionStart : Int
  retiring : Option EpochId
  retiringExpiry : Option Int
  pendingRetiringExpiry : Option Int
  pendingOutboundStart : Option Int
  dataByKey : UInt8 → Option EpochId
  writer : Option Phase
  /-- The epochs of packets that were decrypted and whose reader calls `MarkPeerActive`. -/
  marks : List EpochId
  encrypted : List EpochId
  decrypted : List (EpochId × UInt8)

inductive Action where
  | install (keyID : UInt8) (times : Times)
  | stage (deadline : Int)
  /-- `writeDataPacket` acquires `writeSem`. -/
  | write
  | select (times : Times)
  | promote (times : Times)
  | revalidate (times : Times)
  /-- `<-changed`. -/
  | resume
  /-- The context or the client ends while the writer is paused. -/
  | giveUp
  /-- `decryptDataPacket` of a packet with this key id, which authenticates or not. -/
  | decrypt (label : UInt8) (opens : Bool) (times : Times)
  /-- `MarkPeerActive` of the reader in this place. -/
  | mark (reader : Nat)

/-- Whether a deadline is set and over. -/
def deadlineOver (deadline : Option Int) (now : Int) : Bool :=
  match deadline with
  | none => false
  | some deadline => decide (deadline < now)

namespace State

def start (clock : Int) : State where
  epochs := []
  data := none
  outboundKey := none
  outboundStart := clock
  selectionStart := clock
  retiring := none
  retiringExpiry := none
  pendingRetiringExpiry := none
  pendingOutboundStart := none
  dataByKey := fun _ => none
  writer := none
  marks := []
  encrypted := []
  decrypted := []

def keyID (s : State) (e : EpochId) : Option UInt8 := s.epochs[e]?.map Epoch.keyID

/-- `PeerActive`. -/
def peerActive (s : State) (e : EpochId) : Bool := (s.epochs[e]?.map Epoch.recvEvidence).getD false

def selectionExpired (s : State) (now : Int) : Bool :=
  decide (s.outboundStart + authDeferredExpire < now)

def retiringExpired (s : State) (now : Int) : Bool :=
  s.retiring.isSome && decide (s.outboundKey = s.retiring) && deadlineOver s.retiringExpiry now

/-- The condition under which the newest epoch takes over, with the two readings it takes. -/
def promotionDue (s : State) (data : EpochId) (now later : Int) : Bool :=
  s.peerActive data || s.selectionExpired now || s.retiringExpired later

/-- The map after an installation, with the entries of other epochs deleted. -/
def keyMap (s : State) (keyID : UInt8) : UInt8 → Option EpochId :=
  let oldKey := s.data.bind s.keyID
  let withOld :=
    match s.data, oldKey with
    | some old, some key =>
      if key ≠ keyID then Function.update s.dataByKey key (some old) else s.dataByKey
    | _, _ => s.dataByKey
  let withNew := Function.update withOld keyID (some s.epochs.length)
  fun id => if id ≠ keyID ∧ oldKey ≠ some id then none else withNew id

/-- `transitionWindow()` is `window`. -/
def installDataChannel (window : Int) (s : State) (keyID : UInt8) (times : Times) : State :=
  let outboundStart :=
    match s.data, s.pendingOutboundStart with
    | some _, some pending => pending
    | _, _ => times.first
  { s with
    epochs := s.epochs ++ [⟨keyID, false⟩]
    data := some s.epochs.length
    outboundKey := s.data.or (some s.epochs.length)
    outboundStart := outboundStart
    selectionStart := outboundStart
    retiring := s.data
    retiringExpiry :=
      match s.data, s.pendingRetiringExpiry with
      | none, _ => none
      | some _, some pending => some pending
      | some _, none => some (times.second + window)
    pendingRetiringExpiry := none
    pendingOutboundStart := none
    dataByKey := s.keyMap keyID }

def stageRetiringWindow (window : Int) (s : State) (deadline : Int) : State :=
  { s with
    pendingRetiringExpiry := some deadline
    pendingOutboundStart := some (deadline - window) }

/-- The first critical section of the loop in `writeDataPacket`. -/
def select (s : State) (times : Times) : State :=
  match s.data with
  | none => { s with writer := none }
  | some data =>
    if deadlineOver s.pendingRetiringExpiry times.first then
      { s with writer := some (.paused s.epochs.length) }
    else
      let outbound := s.outboundKey.getD data
      if outbound ≠ data ∧ s.promotionDue data times.second times.third = true then
        { s with writer := some .promoting }
      else { s with writer := some (.revalidating outbound) }

/-- The second one, taken when the newest epoch is to take over. -/
def promote (s : State) (times : Times) : State :=
  match s.data, s.outboundKey with
  | some data, some outbound =>
    if outbound ≠ data ∧ s.promotionDue data times.first times.second = true then
      { s with
        outboundKey := s.data
        outboundStart := times.third
        writer := some .selecting }
    else { s with writer := some .selecting }
  | _, _ => { s with writer := some .selecting }

/-- The last one, in which the packet is encrypted. -/
def revalidate (s : State) (outbound : EpochId) (times : Times) : State :=
  if deadlineOver s.pendingRetiringExpiry times.first then
    { s with writer := some (.paused s.epochs.length) }
  else if (s.keyID outbound).bind s.dataByKey = some outbound ∧
      (s.data = some outbound ∨ s.retiring = some outbound ∨ s.outboundKey = some outbound) then
    match s.data with
    | none => { s with writer := some .selecting }
    | some data =>
      if outbound ≠ data ∧ s.promotionDue data times.second times.third = true then
        { s with writer := some .selecting }
      else
        { s with
          encrypted := s.encrypted ++ [outbound]
          writer := none }
  else { s with writer := some .selecting }

/-- Whether a key id is that of the previous epoch behind its expiry. -/
def expiredLabel (s : State) (label : UInt8) (now : Int) : Bool :=
  decide (s.retiring.bind s.keyID = some label) && deadlineOver s.retiringExpiry now

def decryptDataPacket (s : State) (label : UInt8) (opens : Bool) (times : Times) : State :=
  if deadlineOver s.pendingRetiringExpiry times.first ∨ s.expiredLabel label times.second then
    s
  else
    match s.dataByKey label with
    | none => s
    | some e =>
      if opens then
        { s with
          decrypted := s.decrypted ++ [(e, label)]
          marks := if s.data = some e then s.marks ++ [e] else s.marks }
      else s

def markPeerActive (s : State) (e : EpochId) : State :=
  { s with epochs := s.epochs.modify e fun epoch => { epoch with recvEvidence := true } }

/-- A new epoch has another key id than the one before. -/
def next (window : Int) (s : State) : Action → Option State
  | .install keyID times =>
    if s.data.bind s.keyID ≠ some keyID then
      some (s.installDataChannel window keyID times)
    else none
  | .stage deadline => some (s.stageRetiringWindow window deadline)
  | .write => if s.writer = none then some { s with writer := some .selecting } else none
  | .select times =>
    if s.writer = some .selecting then some (s.select times) else none
  | .promote times =>
    if s.writer = some .promoting then some (s.promote times) else none
  | .revalidate times =>
    match s.writer with
    | some (.revalidating outbound) =>
      some (s.revalidate outbound times)
    | _ => none
  | .resume =>
    match s.writer with
    | some (.paused installed) =>
      if installed < s.epochs.length then some { s with writer := some .selecting } else none
    | _ => none
  | .giveUp =>
    match s.writer with
    | some (.paused _) => some { s with writer := none }
    | _ => none
  | .decrypt label opens times =>
    some (s.decryptDataPacket label opens times)
  | .mark reader =>
    match s.marks[reader]? with
    | none => none
    | some e => some { s.markPeerActive e with marks := s.marks.eraseIdx reader }

end State

variable {window : Int} {s s' : State} {times : Times} {a : Action} {label : UInt8}
variable {outbound : EpochId}

/-- The newest epoch and the one before it are in use, each under its own key id. A writer
that has chosen the previous epoch has not been overtaken by a promotion. -/
structure Sound (s : State) : Prop where
  newest : ∀ n, s.data = some n ↔ s.epochs.length = n + 1
  previous : ∀ n, s.retiring = some n ↔ s.epochs.length = n + 2
  outbound : ∀ n, s.data = some n → s.outboundKey = some n ∨
    (s.outboundKey = s.retiring ∧ s.outboundStart = s.selectionStart)
  expiry : s.retiring ≠ none → s.retiringExpiry ≠ none
  keyed : ∀ id e, s.dataByKey id = some e →
    (s.data = some e ∨ s.retiring = some e) ∧ s.keyID e = some id
  selected : ∀ o, s.writer = some (.revalidating o) →
    s.data ≠ none ∧ (s.retiring = some o → s.outboundKey = some o)

theorem sound_start (clock : Int) : Sound (State.start clock) where
  newest _ := iff_of_false nofun nofun
  previous _ := iff_of_false nofun nofun
  outbound := nofun
  expiry := absurd rfl
  keyed := nofun
  selected := nofun

namespace Sound

section

variable (h : Sound s)
include h

theorem newest_ne_previous {n : EpochId} (hdata : s.data = some n) : s.retiring ≠ some n := by
  intro hretiring
  have hlength := (h.newest n).mp hdata
  have hlength' := (h.previous n).mp hretiring
  omega

theorem install {keyID : UInt8} (other : s.data.bind s.keyID ≠ some keyID) :
    Sound (s.installDataChannel window keyID times) := by
  refine ⟨?_, ?_, ?_, ?_, ?_, ?_⟩
  · intro n
    simp only [State.installDataChannel, Option.some.injEq, List.length_append,
      List.length_singleton]
    exact Nat.succ_inj.symm
  · intro n
    simp only [State.installDataChannel, List.length_append, List.length_singleton]
    rw [h.newest]
    omega
  · intro n hn
    simp only [State.installDataChannel] at hn ⊢
    cases hdata : s.data with
    | none => exact .inl hn
    | some old => exact .inr ⟨rfl, trivial⟩
  · intro hretiring
    simp only [State.installDataChannel] at hretiring ⊢
    split
    next hnone => exact absurd hnone hretiring
    · exact Option.some_ne_none _
    · exact Option.some_ne_none _
  · intro id e he
    have hmap : s.keyMap keyID id = some e := he
    unfold State.keyMap at hmap
    split at hmap
    · cases hmap
    next hkept =>
      by_cases hid : id = keyID
      · subst hid
        rw [Function.update_self] at hmap
        cases hmap
        refine ⟨.inl rfl, ?_⟩
        simp only [State.keyID, State.installDataChannel, List.getElem?_concat_length,
          Option.map_some]
      · rw [Function.update_of_ne hid] at hmap
        have hold : s.data.bind s.keyID = some id := by
          by_contra hne
          exact hkept ⟨hid, hne⟩
        obtain ⟨old, hdata, hkey⟩ := Option.bind_eq_some_iff.mp hold
        rw [hdata] at hmap
        simp only [Option.bind_some, hkey] at hmap
        rw [if_pos hid, Function.update_self] at hmap
        cases hmap
        refine ⟨.inr hdata, ?_⟩
        have hlength := (h.newest e).mp hdata
        show ((s.epochs ++ [_])[e]?).map Epoch.keyID = some id
        rw [List.getElem?_append_left (by omega)]
        exact hkey
  · intro o ho
    refine ⟨Option.some_ne_none _, ?_⟩
    intro hretiring
    change s.data = some o at hretiring
    show s.data.or (some s.epochs.length) = some o
    rw [hretiring]
    rfl

theorem select : Sound (s.select times) := by
  fun_cases State.select s times with
  | case4 data hdata _ outbound =>
    refine { h with selected := ?_ }
    rintro o ⟨⟩
    rw [hdata]
    refine ⟨Option.some_ne_none data, ?_⟩
    dsimp only [outbound]
    intro hretiring
    obtain hout | ⟨hout, -⟩ := h.outbound data hdata
    · rw [hout] at hretiring
      exact absurd hretiring (h.newest_ne_previous hdata)
    · rw [hout] at hretiring ⊢
      cases hr : s.retiring with
      | none =>
        rw [hr] at hretiring
        cases hretiring
      | some o => rfl
  | _ => exact { h with selected := nofun }

theorem promote : Sound (s.promote times) := by
  fun_cases State.promote s times with
  | case1 => exact { h with outbound := fun n hn => .inl hn, selected := nofun }
  | _ => exact { h with selected := nofun }

theorem revalidate : Sound (s.revalidate outbound times) := by
  fun_cases State.revalidate s outbound times with
  | _ => exact { h with selected := nofun }

theorem decrypt {opens : Bool} : Sound (s.decryptDataPacket label opens times) := by
  fun_cases State.decryptDataPacket s label opens times with
  | _ => exact { h with }

theorem mark (e : EpochId) : Sound (s.markPeerActive e) := by
  have hkey : (s.markPeerActive e).keyID = s.keyID := by
    funext i
    simp only [State.keyID, State.markPeerActive, List.getElem?_modify]
    cases s.epochs[i]? with
    | none => rfl
    | some epoch =>
      split <;> rfl
  have hlength : (s.markPeerActive e).epochs.length = s.epochs.length := List.length_modify _ _ _
  refine ⟨?_, ?_, h.outbound, h.expiry, ?_, h.selected⟩
  · rw [hlength]
    exact h.newest
  · rw [hlength]
    exact h.previous
  · rw [hkey]
    exact h.keyed

end

end Sound

/-! ## Which epoch a packet belongs to -/

/-- The epoch that encrypts a packet is the newest, or the previous one before its expiry,
within the window of the newest and without evidence for it. -/
def Encrypts (s : State) (times : Times) (e : EpochId) : Prop :=
  s.data = some e ∨ (s.retiring = some e ∧
    (∃ newest, s.data = some newest ∧ s.peerActive newest = false) ∧
    times.second ≤ s.selectionStart + authDeferredExpire ∧
    ∃ expiry, s.retiringExpiry = some expiry ∧ times.third ≤ expiry)

/-- The epoch that decrypts a packet has its key id, and is the newest or the previous one
before its expiry. -/
def Decrypts (s : State) (now : Int) (e : EpochId) (label : UInt8) : Prop :=
  s.keyID e = some label ∧ (s.data = some e ∨ (s.retiring = some e ∧
    ∃ expiry, s.retiringExpiry = some expiry ∧ now ≤ expiry))

theorem le_of_not_deadlineOver {deadline now : Int} (h : deadlineOver (some deadline) now = false) :
    now ≤ deadline :=
  Int.not_lt.mp (of_decide_eq_false h)

/-- A writer that does not give way has found none of the reasons to. -/
theorem Sound.encrypts_of_not_due (h : Sound s) {data : EpochId}
    (hwriter : s.writer = some (.revalidating outbound)) (hdata : s.data = some data)
    (valid : s.data = some outbound ∨ s.retiring = some outbound ∨ s.outboundKey = some outbound)
    (due : ¬(outbound ≠ data ∧ s.promotionDue data times.second times.third = true)) :
    Encrypts s times outbound := by
  by_cases hnewest : outbound = data
  · exact .inl (hnewest ▸ hdata)
  have hout := h.outbound data hdata
  have hretiring : s.retiring = some outbound := by
    obtain hvalid | hvalid | hvalid := valid
    · exact absurd (Option.some.inj (hvalid.symm.trans hdata)) hnewest
    · exact hvalid
    · obtain hkey | ⟨hkey, -⟩ := hout
      · exact absurd (Option.some.inj (hvalid.symm.trans hkey)) hnewest
      · exact hkey.symm.trans hvalid
  have hkey : s.outboundKey = some outbound := (h.selected outbound hwriter).2 hretiring
  have hstart : s.outboundStart = s.selectionStart := by
    obtain hother | ⟨-, hstart⟩ := hout
    · exact absurd (Option.some.inj (hkey.symm.trans hother)) hnewest
    · exact hstart
  have hnot : s.promotionDue data times.second times.third = false :=
    Bool.eq_false_iff.mpr fun hdue => due ⟨hnewest, hdue⟩
  unfold State.promotionDue at hnot
  rw [Bool.or_eq_false_iff, Bool.or_eq_false_iff] at hnot
  obtain ⟨⟨hpeer, hwindow⟩, hexpired⟩ := hnot
  refine .inr ⟨hretiring, ⟨data, hdata, hpeer⟩, ?_, ?_⟩
  · rw [← hstart]
    exact Int.not_lt.mp (of_decide_eq_false hwindow)
  · obtain ⟨expiry, hexpiry⟩ := Option.ne_none_iff_exists'.mp
      (h.expiry (hretiring ▸ Option.some_ne_none outbound))
    refine ⟨expiry, hexpiry, ?_⟩
    unfold State.retiringExpired at hexpired
    rw [hretiring, hkey, hexpiry] at hexpired
    simp only [Option.isSome_some, decide_true, Bool.and_self, Bool.true_and] at hexpired
    exact le_of_not_deadlineOver hexpired

theorem Sound.decrypts_of_not_expired (h : Sound s) {e : EpochId} (he : s.dataByKey label = some e)
    (expired : s.expiredLabel label times.second = false) : Decrypts s times.second e label := by
  obtain ⟨huse, hkey⟩ := h.keyed label e he
  refine ⟨hkey, huse.imp_right ?_⟩
  intro hretiring
  obtain ⟨expiry, hexpiry⟩ := Option.ne_none_iff_exists'.mp
    (h.expiry (hretiring ▸ Option.some_ne_none e))
  refine ⟨hretiring, expiry, hexpiry, ?_⟩
  unfold State.expiredLabel at expired
  rw [hretiring, Option.bind_some, hkey, hexpiry, decide_eq_true rfl] at expired
  exact le_of_not_deadlineOver expired

/-- The history of a step: at most one packet is encrypted or decrypted. -/
inductive Handles (s s' : State) : Action → Prop where
  | nothing (a : Action) (encrypted : s'.encrypted = s.encrypted)
      (decrypted : s'.decrypted = s.decrypted) : Handles s s' a
  | encrypts (times : Times) (e : EpochId) (allowed : Encrypts s times e)
      (encrypted : s'.encrypted = s.encrypted ++ [e]) (decrypted : s'.decrypted = s.decrypted) :
      Handles s s' (.revalidate times)
  | decrypts (label : UInt8) (times : Times) (e : EpochId)
      (allowed : Decrypts s times.second e label)
      (encrypted : s'.encrypted = s.encrypted)
      (decrypted : s'.decrypted = s.decrypted ++ [(e, label)]) :
      Handles s s' (.decrypt label true times)

theorem select_history :
    (s.select times).encrypted = s.encrypted ∧ (s.select times).decrypted = s.decrypted := by
  fun_cases State.select s times with
  | _ => exact ⟨rfl, rfl⟩

theorem promote_history :
    (s.promote times).encrypted = s.encrypted ∧ (s.promote times).decrypted = s.decrypted := by
  fun_cases State.promote s times with
  | _ => exact ⟨rfl, rfl⟩

theorem Sound.revalidate_history (h : Sound s)
    (hwriter : s.writer = some (.revalidating outbound)) :
    Handles s (s.revalidate outbound times) (.revalidate times) := by
  fun_cases State.revalidate s outbound times with
  | case4 _ hvalid data hdata hdue =>
    exact .encrypts times outbound (h.encrypts_of_not_due hwriter hdata hvalid.2 hdue) rfl rfl
  | _ => exact .nothing _ rfl rfl

theorem Sound.decrypt_history (h : Sound s) {opens : Bool} :
    Handles s (s.decryptDataPacket label opens times) (.decrypt label opens times) := by
  fun_cases State.decryptDataPacket s label opens times with
  | case3 hopen e he hopens =>
    subst hopens
    have hexpired := Bool.eq_false_iff.mpr (not_or.mp hopen).2
    exact .decrypts label times e (h.decrypts_of_not_expired he hexpired) rfl rfl
  | _ => exact .nothing _ rfl rfl

theorem sound_next (h : Sound s) (hnext : s.next window a = some s') :
    Sound s' ∧ Handles s s' a := by
  cases a with
  | install keyID times =>
    obtain ⟨hother, rfl⟩ := Transition.of_guard hnext
    exact ⟨h.install hother, .nothing _ rfl rfl⟩
  | stage deadline =>
    cases hnext
    exact ⟨{ h with }, .nothing _ rfl rfl⟩
  | write =>
    obtain ⟨-, rfl⟩ := Transition.of_guard hnext
    exact ⟨{ h with selected := nofun }, .nothing _ rfl rfl⟩
  | select times =>
    obtain ⟨-, rfl⟩ := Transition.of_guard hnext
    exact ⟨h.select, .nothing _ select_history.1 select_history.2⟩
  | promote times =>
    obtain ⟨-, rfl⟩ := Transition.of_guard hnext
    exact ⟨h.promote, .nothing _ promote_history.1 promote_history.2⟩
  | revalidate times =>
    simp only [State.next] at hnext
    split at hnext
    next hwriter =>
      cases hnext
      exact ⟨h.revalidate, h.revalidate_history hwriter⟩
    · cases hnext
  | resume =>
    simp only [State.next] at hnext
    split at hnext
    · obtain ⟨-, rfl⟩ := Transition.of_guard hnext
      exact ⟨{ h with selected := nofun }, .nothing _ rfl rfl⟩
    · cases hnext
  | giveUp =>
    simp only [State.next] at hnext
    split at hnext <;> cases hnext
    exact ⟨{ h with selected := nofun }, .nothing _ rfl rfl⟩
  | decrypt label opens times =>
    cases hnext
    exact ⟨h.decrypt, h.decrypt_history⟩
  | mark reader =>
    simp only [State.next] at hnext
    split at hnext <;> cases hnext
    exact ⟨{ h.mark _ with },
      .nothing _ rfl rfl⟩

/-- In every run the map has the newest and the previous epoch at most, each under its own key
id. A packet is decrypted by the epoch whose key id it carries, and by the previous one only
before its expiry. A packet is encrypted by the newest epoch, or by the previous one before
its expiry, within 60 seconds of the newest epoch's start and while no packet of the newest
epoch has come from the peer. -/
theorem epochs_safe {clock : Int} {actions : List Action}
    (h : Transition.run (State.next window) (State.start clock) actions = some s) :
    (∀ id e, s.dataByKey id = some e → s.keyID e = some id ∧
      (s.epochs.length = e + 1 ∨ s.epochs.length = e + 2)) ∧
    (∀ e, (s.data = some e ↔ s.epochs.length = e + 1) ∧
      (s.retiring = some e ↔ s.epochs.length = e + 2)) ∧
    ∀ a s', s.next window a = some s' → Handles s s' a := by
  have hsound : Sound s :=
    Transition.run_invariant (fun _ _ _ hs hnext => (sound_next hs hnext).1) (sound_start clock) h
  refine ⟨?_, fun e => ⟨hsound.newest e, hsound.previous e⟩, fun a s' hnext => ?_⟩
  · intro id e he
    obtain ⟨huse, hkey⟩ := hsound.keyed id e he
    exact ⟨hkey, huse.imp (hsound.newest e).mp (hsound.previous e).mp⟩
  · exact (sound_next hsound hnext).2

/-- All readings of a section are the same. -/
def Times.at (now : Int) : Times := ⟨now, now, now⟩

/-- Two epochs are installed; a packet is encrypted by the first one. -/
def deferredWrite : List Action :=
  [.install 0 (.at 1), .install 1 (.at 2), .write, .select (.at 3), .revalidate (.at 4)]

theorem epochs_safe_deferredWrite :
    ∃ s, Transition.run (State.next 3600) (State.start 0) deferredWrite = some s ∧
      s.encrypted = [0] ∧ ∀ a s', s.next 3600 a = some s' → Handles s s' a := by
  refine ⟨_, (and_iff_left_of_imp fun h => ?_).mpr rfl⟩
  exact ⟨rfl, (epochs_safe h).2.2⟩

end OpenVPN.KeyEpochs
