import CheezyCore.Foundation.Table
import CheezyCore.Mkcp.Conn

/-!
# What the functions of a connection leave alone

All functions but reading, writing and the reception of data only drop segments of the send
window, change timers and windows, or move between states. `Drops` says which segments may be
gone; it composes along the calls. `Says` is what a flush may put into a segment.
-/

namespace Mkcp

/-- The states in which the send window is kept. -/
def Conn.Open (c : Conn) : Prop := c.state.keepsWindow = true

/-! ## Steps that only drop segments of the send window -/

/-- A segment that leaves the send window of an open connection is one of the `gone` ones. -/
structure Sends (gone : UInt32 → Prop) (c c' : Conn) : Prop where
  sendNext : c'.sendNext = c.sendNext
  window : ∀ s ∈ c'.sendWindow, ∃ r ∈ c.sendWindow, r.number = s.number ∧ r.payload = s.payload
  open_iff : c'.Open → c.Open ∧
    ∀ r ∈ c.sendWindow, (∃ s ∈ c'.sendWindow, s.number = r.number) ∨ gone r.number

namespace Sends

variable {gone : UInt32 → Prop} {c c' c'' : Conn}

theorem refl (c : Conn) : Sends gone c c :=
  ⟨rfl, fun s hs => ⟨s, hs, rfl, rfl⟩, fun hopen => ⟨hopen, fun r hr => .inl ⟨r, hr, rfl⟩⟩⟩

theorem trans (first : Sends gone c c') (second : Sends gone c' c'') : Sends gone c c'' where
  sendNext := second.sendNext.trans first.sendNext
  window s hs := by
    obtain ⟨r, hr, hnumber, hpayload⟩ := second.window s hs
    obtain ⟨q, hq, hnumber', hpayload'⟩ := first.window r hr
    exact ⟨q, hq, hnumber'.trans hnumber, hpayload'.trans hpayload⟩
  open_iff hopen := by
    obtain ⟨hmiddle, hsecond⟩ := second.open_iff hopen
    obtain ⟨hstart, hfirst⟩ := first.open_iff hmiddle
    refine ⟨hstart, fun r hr => ?_⟩
    rcases hfirst r hr with ⟨s, hs, hsr⟩ | hgone
    · rcases hsecond s hs with ⟨t, ht, hts⟩ | hgone
      · exact .inl ⟨t, ht, hts.trans hsr⟩
      · exact .inr (hsr ▸ hgone)
    · exact .inr hgone

end Sends

/-- Besides, nothing of what was received changes; acknowledgements may be dropped. -/
structure Drops (gone : UInt32 → Prop) (c c' : Conn) : Prop extends Sends gone c c' where
  recvNext : c'.recvNext = c.recvNext
  recvCache : c'.recvCache = c.recvCache
  readBuf : c'.readBuf = c.readBuf
  acks : ∀ a ∈ c'.ackList, ∃ b ∈ c.ackList, b.number = a.number

/-- Nothing leaves the send window. -/
abbrev Keeps (c c' : Conn) : Prop := Drops (fun _ => False) c c'

namespace Drops

variable {gone gone' : UInt32 → Prop} {c c' c'' : Conn}

theorem refl (c : Conn) : Drops gone c c :=
  ⟨.refl c, rfl, rfl, rfl, fun a ha => ⟨a, ha, rfl⟩⟩

theorem trans (first : Drops gone c c') (second : Drops gone c' c'') : Drops gone c c'' where
  toSends := first.toSends.trans second.toSends
  recvNext := second.recvNext.trans first.recvNext
  recvCache := second.recvCache.trans first.recvCache
  readBuf := second.readBuf.trans first.readBuf
  acks a ha := by
    obtain ⟨b, hb, hba⟩ := second.acks a ha
    obtain ⟨d, hd, hdb⟩ := first.acks b hb
    exact ⟨d, hd, hdb.trans hba⟩

theorem mono (h : Drops gone c c') (imp : ∀ n, gone n → gone' n) : Drops gone' c c' :=
  { h with
    open_iff := fun hopen => ⟨(h.open_iff hopen).1, fun r hr =>
      ((h.open_iff hopen).2 r hr).imp_right (imp r.number)⟩ }

theorem of_keeps (h : Keeps c c') : Drops gone c c' := h.mono nofun

end Drops

theorem Keeps.refl (c : Conn) : Keeps c c := Drops.refl c

namespace Conn

variable {c : Conn} {st : AckFlush}

/-! ### Changes of state -/

section

variable (begin : UInt32)
include begin

/-- A state without a send window is never left for one with it. -/
theorem keeps_setState {state : ConnState} (h : state.keepsWindow = true → c.Open) :
    Keeps c (c.setState state begin) := by
  rw [setState]
  split
  · exact .refl c
  · refine ⟨⟨rfl, ?_, ?_⟩, rfl, rfl, rfl, fun a ha => ⟨a, ha, rfl⟩⟩
    · intro s hs
      split at hs
      · exact ⟨s, hs, rfl, rfl⟩
      · cases hs
    · intro hopen
      have hkeeps : state.keepsWindow = true := hopen
      refine ⟨h hkeeps, fun r hr => .inl ⟨r, ?_, rfl⟩⟩
      rwa [if_pos hkeeps]

theorem keeps_setStateIf {p : Prop} [Decidable p] {state : ConnState}
    (h : p → state.keepsWindow = true → c.Open) : Keeps c (c.setStateIf p state begin) := by
  rw [setStateIf]
  split
  · next hp => exact keeps_setState begin (h hp)
  · exact .refl c

theorem keeps_handleOption (opt : UInt8) : Keeps c (c.handleOption opt begin) := by
  rw [handleOption]
  split
  · split
    · exact keeps_setState begin nofun
    · exact keeps_setState begin nofun
    · exact .refl c
  · exact .refl c

theorem keeps_handleTerminate : Keeps c (c.handleTerminate begin) := by
  rw [handleTerminate]
  split
  · exact keeps_setState begin nofun
  · exact keeps_setState begin nofun
  · exact keeps_setState begin nofun
  · exact keeps_setState begin nofun
  · exact .refl c

theorem keeps_close : Keeps c (c.close begin) := by
  rw [close]
  split
  · next hstate => exact keeps_setState begin fun _ => by rw [Open, hstate]; rfl
  · exact keeps_setState begin nofun
  · exact keeps_setState begin nofun
  · exact .refl c

end

/-! ### Acknowledgements -/

theorem keeps_processSendingNext (next : UInt32) : Keeps c (c.processSendingNext next) where
  recvNext := rfl
  recvCache := rfl
  readBuf := rfl
  sendNext := rfl
  acks a ha := ⟨a, (List.mem_filter.mp ha).1, rfl⟩
  window s hs := ⟨s, hs, rfl, rfl⟩
  open_iff hopen := ⟨hopen, fun r hr => .inl ⟨r, hr, rfl⟩⟩

theorem keeps_findFirstUnacked : Keeps c c.findFirstUnacked := { Keeps.refl c with }

/-- A part of the send window is dropped. -/
theorem drops_sendWindow {gone : UInt32 → Prop} {window : List DataSegment} (total : UInt32)
    (hsub : ∀ s ∈ window, s ∈ c.sendWindow)
    (hgone : ∀ r ∈ c.sendWindow, r ∈ window ∨ gone r.number) :
    Drops gone c { c with sendWindow := window, totalInFlightSize := total } where
  recvNext := rfl
  recvCache := rfl
  readBuf := rfl
  sendNext := rfl
  acks a ha := ⟨a, ha, rfl⟩
  window s hs := ⟨s, hsub s hs, rfl, rfl⟩
  open_iff hopen := ⟨hopen, fun r hr => (hgone r hr).imp_left fun hkept => ⟨r, hkept, rfl⟩⟩

theorem drops_processReceivingNext (next : UInt32) :
    Drops (· < next) c (c.processReceivingNext next) := by
  refine Drops.trans (drops_sendWindow c.totalInFlightSize ?_ ?_) (.of_keeps keeps_findFirstUnacked)
  · intro s hs
    exact (List.mem_filter.mp hs).1
  · intro r hr
    rcases UInt32.lt_or_le r.number next with hlt | hle
    · exact .inr hlt
    · exact .inl (List.mem_filter.mpr ⟨hr, decide_eq_true hle⟩)

theorem drops_processAck (number : UInt32) : Drops (· = number) c (c.processAck number).2 := by
  rw [processAck]
  split
  · exact .refl c
  · split
    · refine Drops.trans (drops_sendWindow _ ?_ ?_) (.of_keeps keeps_findFirstUnacked)
      · intro s hs
        exact List.mem_of_mem_eraseP hs
      · intro r hr
        by_cases hnumber : r.number = number
        · exact .inr hnumber
        · refine .inl ((List.mem_eraseP_of_neg ?_).mpr hr)
          rw [beq_iff_eq]
          exact hnumber
    · exact .refl c

theorem drops_ackLoop {numbers all : List UInt32} (hall : ∀ n ∈ numbers, n ∈ all) {maxack : UInt32}
    {removed : Bool} : Drops (· ∈ all) c (ackLoop numbers c maxack removed).1 := by
  induction numbers generalizing c maxack removed with
  | nil => exact .refl c
  | cons number rest ih =>
    have hfirst : Drops (· ∈ all) c (c.processAck number).2 :=
      (drops_processAck number).mono fun n hn => hn ▸ hall number List.mem_cons_self
    have hrest : ∀ n ∈ rest, n ∈ all := fun n hn => hall n (List.mem_cons_of_mem number hn)
    rw [ackLoop]
    split
    · exact hfirst.trans (ih hrest)
    · exact hfirst.trans (ih hrest)

/-- Segments after a change of their timers. -/
theorem keeps_sendWindow {window : List DataSegment} (total : UInt32)
    (h : window.map (fun s => (s.number, s.payload)) =
      c.sendWindow.map fun s => (s.number, s.payload)) :
    Keeps c { c with sendWindow := window, totalInFlightSize := total } where
  recvNext := rfl
  recvCache := rfl
  readBuf := rfl
  sendNext := rfl
  acks a ha := ⟨a, ha, rfl⟩
  window s hs := by
    have hmem := List.mem_map_of_mem (f := fun s : DataSegment => (s.number, s.payload)) hs
    rw [h] at hmem
    obtain ⟨r, hr, hrs⟩ := List.mem_map.mp hmem
    exact ⟨r, hr, (Prod.mk.inj hrs).1, (Prod.mk.inj hrs).2⟩
  open_iff hopen := by
    refine ⟨hopen, fun r hr => .inl ?_⟩
    have hmem := List.mem_map_of_mem (f := fun s : DataSegment => (s.number, s.payload)) hr
    rw [← h] at hmem
    obtain ⟨s, hs, hsr⟩ := List.mem_map.mp hmem
    exact ⟨s, hs, (Prod.mk.inj hsr).1⟩

theorem map_fastAckLoop (number reduction : UInt32) (window : List DataSegment) :
    (fastAckLoop number reduction window).map (fun s => (s.number, s.payload)) =
      window.map fun s => (s.number, s.payload) := by
  induction window with
  | nil => rfl
  | cons seg rest ih =>
    rw [fastAckLoop]
    split
    · rfl
    · rw [List.map_cons, ih]
      split <;> rfl

theorem keeps_handleFastAck (number : UInt32) : Keeps c (c.handleFastAck number) := by
  rw [handleFastAck]
  split
  · exact .refl c
  · exact keeps_sendWindow c.totalInFlightSize (map_fastAckLoop _ _ _)

theorem keeps_smooth (rtt : UInt32) : Keeps c (c.smooth rtt) := by
  rw [smooth]
  split
  · exact { Keeps.refl c with }
  · exact { Keeps.refl c with }

theorem keeps_updateRTT (rtt current : UInt32) : Keeps c (c.updateRTT rtt current) := by
  rw [updateRTT]
  split
  · exact .refl c
  · exact (keeps_smooth rtt).trans { Keeps.refl _ with }

theorem keeps_updatePeerRTO (rto current : UInt32) : Keeps c (c.updatePeerRTO rto current) := by
  rw [updatePeerRTO]
  split
  · exact .refl c
  · exact { Keeps.refl c with }

theorem keeps_growRemoteWindow (window : UInt32) : Keeps c (c.growRemoteWindow window) := by
  rw [growRemoteWindow]
  split
  · exact { Keeps.refl c with }
  · exact .refl c

theorem keeps_finishAck (timestamp current : UInt32) (result : Conn × UInt32 × Bool) :
    Keeps result.1 (finishAck timestamp current result) := by
  rw [finishAck]
  split
  · split
    · exact (keeps_handleFastAck _).trans (keeps_updateRTT _ _)
    · exact keeps_handleFastAck _
  · exact .refl _

/-- The numbers a segment without data acknowledges. -/
theorem drops_inputAck (s : AckSegment) (current begin : UInt32) :
    Drops (fun n => n < s.receivingNext ∨ n ∈ s.numberList) c (c.inputAck s current begin) := by
  have hnext : Drops (fun n => n < s.receivingNext ∨ n ∈ s.numberList) c
      (((c.handleOption s.option begin).growRemoteWindow s.receivingWindow).processReceivingNext
        s.receivingNext) :=
    (Drops.of_keeps (keeps_handleOption _ _)).trans ((Drops.of_keeps
      (keeps_growRemoteWindow _)).trans ((drops_processReceivingNext _).mono fun _ => .inl))
  simp only [inputAck]
  split
  · exact hnext
  · refine hnext.trans (Drops.trans ?_ (.of_keeps (keeps_finishAck _ _ _)))
    exact (drops_ackLoop fun _ hn => hn).mono fun _ => .inr

theorem drops_inputCmdOnly (s : CmdOnlySegment) (current begin : UInt32) :
    Drops (· < s.receivingNext) c (c.inputCmdOnly s current begin) := by
  have hcommand : Keeps c (if s.cmd = commandTerminate then
      (c.handleOption s.option begin).handleTerminate begin
      else c.handleOption s.option begin) := by
    split
    · exact (keeps_handleOption _ _).trans (keeps_handleTerminate _)
    · exact keeps_handleOption _ _
  exact (Drops.of_keeps hcommand).trans ((drops_processReceivingNext _).trans (.of_keeps
    ((keeps_processSendingNext _).trans (keeps_updatePeerRTO _ _))))

/-! ## What a flush sends -/

/-- The segment repeats what its sender has in its send window, in its list of acknowledgements
and as its next number. -/
def Says (c : Conn) : Segment → Prop
  | .data s => ∃ r ∈ c.sendWindow, r.number = s.number ∧ r.payload = s.payload
  | .ack s => s.receivingNext = c.recvNext ∧ s.numberList.length ≤ 128 ∧
      ∀ n ∈ s.numberList, ∃ a ∈ c.ackList, a.number = n
  | .cmdOnly s => s.receivingNext = c.recvNext ∧ s.cmd ≠ commandData ∧ s.cmd ≠ commandACK

theorem Says.of_keeps {c c' : Conn} {seg : Segment} (h : Says c' seg) (keeps : Keeps c c') :
    Says c seg := by
  cases seg with
  | data s =>
    obtain ⟨r, hr, hnumber, hpayload⟩ := h
    obtain ⟨q, hq, hnumber', hpayload'⟩ := keeps.window r hr
    exact ⟨q, hq, hnumber'.trans hnumber, hpayload'.trans hpayload⟩
  | ack s =>
    obtain ⟨hnext, hlength, hnumbers⟩ := h
    refine ⟨hnext.trans keeps.recvNext, hlength, fun n hn => ?_⟩
    obtain ⟨a, ha, rfl⟩ := hnumbers n hn
    exact keeps.acks a ha
  | cmdOnly s => exact ⟨h.1.trans keeps.recvNext, h.2⟩

theorem says_ping {cmd : UInt8} (h : cmd ≠ commandData ∧ cmd ≠ commandACK) :
    Says c (.cmdOnly (c.pingSegment cmd)) := ⟨rfl, h⟩

/-- What `flushAcks` has collected of the list of acknowledgements. -/
structure AckFlush.Sound (c : Conn) (st : AckFlush) : Prop where
  next : st.ack.receivingNext = c.recvNext
  room : st.ack.numberList.length < 128
  numbers : ∀ n ∈ st.ack.numberList, ∃ a ∈ c.ackList, a.number = n
  segments : ∀ ack ∈ st.segments, Says c (.ack ack)
  candidates : ∀ n ∈ st.candidates, ∃ a ∈ c.ackList, a.number = n

theorem AckFlush.Sound.item (h : st.Sound c) (current : UInt32) {item : AckItem}
    (hitem : item ∈ c.ackList) : (c.flushAckItem current st item).1.Sound c := by
  have hadd : ∀ numbers : List UInt32, (∀ n ∈ numbers, ∃ a ∈ c.ackList, a.number = n) →
      ∀ n ∈ numbers ++ [item.number], ∃ a ∈ c.ackList, a.number = n := by
    intro numbers hnumbers
    exact Table.forall_concat hnumbers ⟨item, hitem, rfl⟩
  rw [flushAckItem]
  split
  · split
    · exact { h with candidates := hadd _ h.candidates }
    · exact h
  · dsimp only
    have hroom := h.room
    split
    · next hfull =>
      refine ⟨rfl, Nat.zero_lt_succ 127, nofun, ?_, h.candidates⟩
      exact Table.forall_concat h.segments ⟨h.next, Nat.le_of_eq hfull, hadd _ h.numbers⟩
    · next hfull =>
      refine ⟨h.next, ?_, hadd _ h.numbers, h.segments, h.candidates⟩
      rw [List.length_append, List.length_singleton] at hfull ⊢
      omega

theorem flushAckItems_spec (current : UInt32) {items : List AckItem}
    (hitems : ∀ item ∈ items, item ∈ c.ackList) (h : st.Sound c) :
    (c.flushAckItems current items st).1.Sound c ∧
      ∀ a ∈ (c.flushAckItems current items st).2, ∃ b ∈ items, b.number = a.number := by
  induction items generalizing st with
  | nil => exact ⟨h, nofun⟩
  | cons item rest ih =>
    rw [List.forall_mem_cons] at hitems
    have hfirst := h.item current hitems.1
    obtain ⟨hsound, hnumbers⟩ := ih hitems.2 hfirst
    refine ⟨hsound, List.forall_mem_cons.mpr ⟨?_, fun a ha => ?_⟩⟩
    · refine ⟨item, List.mem_cons_self, ?_⟩
      fun_cases flushAckItem c current st item with
      | _ => rfl
    · exact List.exists_mem_cons_of_exists (hnumbers a ha)

theorem AckFlush.Sound.lastAck (h : st.Sound c) : ∀ ack ∈ Conn.lastAck st, Says c (.ack ack) := by
  intro ack hack
  rw [Conn.lastAck] at hack
  split at hack
  · rw [List.mem_singleton.mp hack]
    refine ⟨h.next, ?_, ?_⟩
    · have hroom := h.room
      simp only [List.length_append, List.length_take]
      omega
    · exact List.forall_mem_append.mpr
        ⟨h.numbers, fun n hn => h.candidates n (List.mem_of_mem_take hn)⟩
  · cases hack

theorem flushAcks_spec (current : UInt32) : Keeps c (c.flushAcks current).1 ∧
    ∀ ack ∈ (c.flushAcks current).2, Says c (.ack ack) := by
  rw [flushAcks]
  split
  · exact ⟨.refl c, nofun⟩
  · have hstart : AckFlush.Sound c { ack := c.newAckSegment, dirty := c.ackDirty } :=
      ⟨rfl, Nat.zero_lt_succ 127, nofun, nofun, nofun⟩
    obtain ⟨hsound, hnumbers⟩ := flushAckItems_spec current (fun item hitem => hitem) hstart
    refine ⟨⟨{ (Keeps.refl c).toSends with }, rfl, rfl, rfl, hnumbers⟩, ?_⟩
    exact List.forall_mem_append.mpr ⟨hsound.segments, hsound.lastAck⟩

theorem flushSendLoop_spec (current cwnd : UInt32) (window : List DataSegment)
    (count : SendCount) :
    (c.flushSendLoop current cwnd window count).1.map (fun s => (s.number, s.payload)) =
      window.map (fun s => (s.number, s.payload)) ∧
    ∀ s ∈ (c.flushSendLoop current cwnd window count).2.1,
      ∃ r ∈ window, r.number = s.number ∧ r.payload = s.payload := by
  fun_induction flushSendLoop c current cwnd window count with
  | case1 => exact ⟨rfl, nofun⟩
  | case2 seg rest count _ others ih =>
    refine ⟨congrArg (List.cons (seg.number, seg.payload)) ih.1, fun s hs => ?_⟩
    exact List.exists_mem_cons_of_exists (ih.2 s hs)
  | case3 seg rest => exact ⟨rfl, List.forall_mem_singleton.mpr ⟨seg, List.mem_cons_self, rfl, rfl⟩⟩
  | case4 seg rest =>
    rename_i ih
    refine ⟨congrArg (List.cons (seg.number, seg.payload)) ih.1, List.forall_mem_cons.mpr ?_⟩
    exact ⟨⟨seg, List.mem_cons_self, rfl, rfl⟩,
      fun s hs => List.exists_mem_cons_of_exists (ih.2 s hs)⟩

theorem keeps_adapt (count : SendCount) : Keeps c (c.adapt count) := by
  rw [adapt]
  split
  · rw [onPacketLoss]
    split
    · exact .refl c
    · exact { Keeps.refl c with }
  · exact .refl c

theorem flushSend_spec (current : UInt32) : Keeps c (c.flushSend current).1 ∧
    ∀ seg ∈ (c.flushSend current).2, Says c seg := by
  rw [flushSend]
  split
  · split
    · exact ⟨{ Keeps.refl c with }, List.forall_mem_singleton.mpr (says_ping (by decide))⟩
    · exact ⟨.refl c, nofun⟩
  · obtain ⟨hwindow, hsent⟩ := c.flushSendLoop_spec current c.sendLimit c.sendWindow
      { total := c.totalInFlightSize }
    refine ⟨(keeps_sendWindow _ hwindow).trans ((keeps_adapt _).trans
      { Keeps.refl _ with }), fun seg hseg => ?_⟩
    obtain ⟨s, hs, rfl⟩ := List.mem_map.mp hseg
    exact hsent s hs

theorem flushPing_spec (current : UInt32) : Keeps c (c.flushPing current).1 ∧
    ∀ seg ∈ (c.flushPing current).2, Says c seg := by
  rw [flushPing]
  split
  · exact ⟨{ Keeps.refl c with }, List.forall_mem_singleton.mpr (says_ping (by decide))⟩
  · exact ⟨.refl c, nofun⟩

theorem flushActive_spec (current : UInt32) : Keeps c (c.flushActive current).1 ∧
    ∀ seg ∈ (c.flushActive current).2, Says c seg := by
  obtain ⟨hacks, hackSegments⟩ := c.flushAcks_spec current
  obtain ⟨hdata, hdataSegments⟩ := (c.flushAcks current).1.flushSend_spec current
  obtain ⟨hping, hpingSegments⟩ :=
    ((c.flushAcks current).1.flushSend current).1.flushPing_spec current
  refine ⟨hacks.trans (hdata.trans hping), ?_⟩
  simp only [flushActive, List.forall_mem_append]
  refine ⟨fun seg hseg => ?_, fun seg hseg => (hdataSegments seg hseg).of_keeps hacks,
    fun seg hseg => (hpingSegments seg hseg).of_keeps (hacks.trans hdata)⟩
  obtain ⟨ack, hack, rfl⟩ := List.mem_map.mp hseg
  exact hackSegments ack hack

section

variable (current begin : UInt32)
include current begin

theorem keeps_flushState : Keeps c (c.flushState current begin) := by
  refine Drops.trans (keeps_setStateIf begin ?_) (keeps_setStateIf begin fun _ => nofun)
  intro hactive _
  rw [Open, hactive.1]
  rfl

theorem keeps_flushTimeouts : Keeps c (c.flushTimeouts current begin) := by
  refine Drops.trans (keeps_setStateIf begin ?_) (keeps_setStateIf begin ?_)
  · exact fun _ => nofun
  · exact fun _ => nofun

theorem flushTerminating_spec : Keeps c (c.flushTerminating current begin).1 ∧
      ∀ seg ∈ (c.flushTerminating current begin).2, Says c seg := by
  have hping : Keeps c { c with lastPing := current } := { Keeps.refl c with }
  exact ⟨hping.trans (keeps_setStateIf begin fun _ => nofun),
    List.forall_mem_singleton.mpr (says_ping (by decide))⟩

/-- A flush sends nothing but what the connection had before it. -/
theorem flush_spec : Keeps c (c.flush current begin).1 ∧
    ∀ seg ∈ (c.flush current begin).2, Says c seg := by
  rw [flush]
  split
  · exact ⟨.refl c, nofun⟩
  · have hstate := c.keeps_flushState current begin
    dsimp only
    split
    · obtain ⟨hkeeps, hsegments⟩ :=
        (c.flushState current begin).flushTerminating_spec current begin
      exact ⟨hstate.trans hkeeps, fun seg hseg => (hsegments seg hseg).of_keeps hstate⟩
    · have htimeouts :=
        hstate.trans ((c.flushState current begin).keeps_flushTimeouts current begin)
      obtain ⟨hkeeps, hsegments⟩ :=
        ((c.flushState current begin).flushTimeouts current begin).flushActive_spec current
      exact ⟨htimeouts.trans hkeeps, fun seg hseg => (hsegments seg hseg).of_keeps htimeouts⟩

end

end Conn

end Mkcp
