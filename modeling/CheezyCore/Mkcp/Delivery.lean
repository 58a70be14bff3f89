import CheezyCore.Mkcp.Effects
import CheezyCore.Mkcp.Network
import CheezyCore.Foundation.Transition

/-!
# Reliable delivery

A segment is named by its number: the position of its payload in the list of all payloads
written. The receiver `Holds` a number when it has kept the segment or delivered it, and never
lets go of it. Everything a side says about numbers in its acknowledgements is true when it is
said, so it stays true however long the packet is on its way.
-/

namespace Mkcp

open Transition

/-! ## What is true of a side -/

/-- The segment is in the receive cache, or was delivered. -/
def Conn.Holds (c : Conn) (n : UInt32) : Prop :=
  n < c.recvNext ∨ ∃ s ∈ c.recvCache, s.number = n

/-- What a connection has received of a list of payloads. -/
structure Received (payloads : List Bytes) (obtained : Bytes) (c : Conn) : Prop where
  next_le : c.recvNext.toNat ≤ payloads.length
  data : obtained ++ c.readBuf = (payloads.take c.recvNext.toNat).flatten
  cache : ∀ s ∈ c.recvCache, payloads[s.number.toNat]? = some s.payload
  acks : ∀ ack ∈ c.ackList, c.Holds ack.number

/-- A segment says nothing false about its sender. -/
def Honest (payloads : List Bytes) (c : Conn) : Segment → Prop
  | .data s => payloads[s.number.toNat]? = some s.payload
  | .ack s => s.receivingNext ≤ c.recvNext ∧ s.numberList.length ≤ 128 ∧
      ∀ n ∈ s.numberList, c.Holds n
  | .cmdOnly s => s.receivingNext ≤ c.recvNext ∧ s.cmd ≠ commandData ∧ s.cmd ≠ commandACK

/-- Of the segments of `x`, none is lost: it waits in the send window, or `y` holds it. -/
def Retained (x y : Side) : Prop :=
  x.conn.Open → ∀ n < x.written.length,
    (∃ s ∈ x.conn.sendWindow, s.number.toNat = n) ∨ y.conn.Holds (UInt32.ofNat n)

/-- The direction from `x` to `y`. -/
structure Link (x y : Side) : Prop where
  sendNext : x.conn.sendNext.toNat = x.written.length
  window : ∀ s ∈ x.conn.sendWindow, x.written[s.number.toNat]? = some s.payload
  packets : ∀ packet ∈ x.sent, ∃ seg, packet = seg.serialize ∧ Honest x.written x.conn seg
  received : Received x.written y.obtained y.conn
  retained : Retained x y

/-! ## What a side can do to its direction and to the other one -/

/-- The receiver lets go of nothing. -/
structure Grows (c c' : Conn) : Prop where
  next : c.recvNext ≤ c'.recvNext
  holds : ∀ n, c.Holds n → c'.Holds n

section Conns

variable {gone : UInt32 → Prop} {c c' c'' : Conn} {payloads more : List Bytes} {obtained : Bytes}

theorem Grows.trans (first : Grows c c') (second : Grows c' c'') : Grows c c'' :=
  ⟨UInt32.le_trans first.next second.next, fun n hn => second.holds n (first.holds n hn)⟩

theorem Drops.grows (h : Drops gone c c') : Grows c c' := by
  refine ⟨UInt32.le_of_eq h.recvNext.symm, fun n hn => ?_⟩
  rwa [Conn.Holds, h.recvNext, h.recvCache]

theorem Received.of_drops (h : Received payloads obtained c) (drops : Drops gone c c') :
    Received payloads obtained c' where
  next_le := by
    rw [drops.recvNext]
    exact h.next_le
  data := by rw [drops.readBuf, drops.recvNext, h.data]
  cache := by
    rw [drops.recvCache]
    exact h.cache
  acks a ha := by
    obtain ⟨b, hb, hba⟩ := drops.acks a ha
    rw [← hba]
    exact drops.grows.holds _ (h.acks b hb)

theorem Honest.mono {seg : Segment} (h : Honest payloads c seg) (grows : Grows c c') :
    Honest (payloads ++ more) c' seg := by
  cases seg with
  | data s =>
    have hlt := Table.lt_length h
    change (payloads ++ more)[s.number.toNat]? = some s.payload
    rw [List.getElem?_append_left hlt]
    exact h
  | ack s =>
    exact ⟨UInt32.le_trans h.1 grows.next, h.2.1, fun n hn => grows.holds n (h.2.2 n hn)⟩
  | cmdOnly s => exact ⟨UInt32.le_trans h.1 grows.next, h.2⟩

/-! ### Reception of data -/

section

variable (h : Received payloads obtained c)
include h

theorem Received.keepData {s : DataSegment} (hs : payloads[s.number.toNat]? = some s.payload) :
    Received payloads obtained (c.keepData s) ∧ Grows c (c.keepData s) := by
  rw [Conn.keepData]
  split
  · -- the segment is kept, now or since an earlier copy of it
    generalize hcache : (if c.recvCache.any (·.number == s.number) then c.recvCache
        else c.recvCache ++ [s]) = cache
    have hkept : ∃ r ∈ cache, r.number = s.number := by
      rw [← hcache]
      split
      · next hany =>
        obtain ⟨r, hr, hnumber⟩ := List.any_eq_true.mp hany
        exact ⟨r, hr, beq_iff_eq.mp hnumber⟩
      · exact ⟨s, List.mem_concat_self, rfl⟩
    have hold : ∀ r ∈ c.recvCache, r ∈ cache := by
      intro r hr
      rw [← hcache]
      split
      · exact hr
      · exact List.mem_append_left _ hr
    have hnew : ∀ r ∈ cache, payloads[r.number.toNat]? = some r.payload := by
      rw [← hcache]
      split
      · exact h.cache
      · exact Table.forall_concat h.cache hs
    have hgrows : ∀ n, c.Holds n → n < c.recvNext ∨ ∃ r ∈ cache, r.number = n :=
      fun n hn => hn.imp_right fun ⟨r, hr, hnumber⟩ => ⟨r, hold r hr, hnumber⟩
    refine ⟨⟨h.next_le, h.data, hnew, ?_⟩, UInt32.le_refl _, hgrows⟩
    exact Table.forall_concat (fun a ha => hgrows a.number (h.acks a ha)) (.inr hkept)
  · exact ⟨h, UInt32.le_refl _, fun n hn => hn⟩

/-- One round of the delivery loop moves the next segment to the read buffer. -/
theorem Received.deliverRound (hsmall : payloads.length < 2 ^ 31) {s : DataSegment}
    (hs : c.recvCache.find? (·.number == c.recvNext) = some s) : Received payloads obtained { c with
        recvCache := c.recvCache.filter (·.number != c.recvNext)
        recvNext := c.recvNext + 1
        readBuf := c.readBuf ++ s.payload } ∧
      Grows c { c with
        recvCache := c.recvCache.filter (·.number != c.recvNext)
        recvNext := c.recvNext + 1
        readBuf := c.readBuf ++ s.payload } := by
  have hnumber : s.number = c.recvNext := by simpa using List.find?_some hs
  have hpayload := h.cache s (List.mem_of_find?_eq_some hs)
  rw [hnumber] at hpayload
  have hlt := Table.lt_length hpayload
  have hnext : (c.recvNext + 1).toNat = c.recvNext.toNat + 1 := by
    rw [UInt32.toNat_add]
    exact Nat.mod_eq_of_lt (by simp only [UInt32.reduceToNat]; omega)
  have hgrows : ∀ n, c.Holds n → n < c.recvNext + 1 ∨
      ∃ r ∈ c.recvCache.filter (·.number != c.recvNext), r.number = n := by
    rintro n (hn | ⟨r, hr, rfl⟩)
    · left
      rw [UInt32.lt_iff_toNat_lt] at hn ⊢
      omega
    · by_cases hr' : r.number = c.recvNext
      · left
        rw [hr', UInt32.lt_iff_toNat_lt]
        omega
      · exact .inr ⟨r, List.mem_filter.mpr ⟨hr, bne_iff_ne.mpr hr'⟩, rfl⟩
  refine ⟨⟨?_, ?_, fun r hr => h.cache r (List.mem_filter.mp hr).1,
    fun a ha => hgrows a.number (h.acks a ha)⟩, ?_, hgrows⟩
  · change (c.recvNext + 1).toNat ≤ _
    omega
  · change obtained ++ (c.readBuf ++ s.payload) = (payloads.take (c.recvNext + 1).toNat).flatten
    rw [hnext, ← List.append_assoc, h.data, List.take_add_one, hpayload]
    simp
  · change c.recvNext ≤ c.recvNext + 1
    rw [UInt32.le_iff_toNat_le]
    omega

theorem Received.deliverLoop (hsmall : payloads.length < 2 ^ 31) (fuel : Nat) :
    Received payloads obtained (Conn.deliverLoop fuel c) ∧
      Grows c (Conn.deliverLoop fuel c) ∧ Sends (fun _ => False) c (Conn.deliverLoop fuel c) := by
  fun_induction Conn.deliverLoop fuel c with
  | case1 c | case2 _ c => exact ⟨h, ⟨UInt32.le_refl _, fun n hn => hn⟩, .refl c⟩
  | case3 fuel c s hfind ih =>
    obtain ⟨hround, hgrows⟩ := h.deliverRound hsmall hfind
    obtain ⟨hrest, hgrows', hsends⟩ := ih hround
    exact ⟨hrest, hgrows.trans hgrows', hsends.sendNext, hsends.window, hsends.open_iff⟩

end

end Conns

/-! ## Both directions -/

section Links

variable {gone : UInt32 → Prop} {x y : Side} {c' : Conn}

/-- A side that keeps the segments its peer does not hold keeps its own direction. -/
theorem Link.forward (h : Link x y) (sends : Sends gone x.conn c') (grows : Grows x.conn c')
    (hgone : ∀ n, gone n → y.conn.Holds n) : Link { x with conn := c' } y where
  sendNext := by
    rw [sends.sendNext, h.sendNext]
  window s hs := by
    obtain ⟨r, hr, hnumber, hpayload⟩ := sends.window s hs
    rw [← hnumber, ← hpayload]
    exact h.window r hr
  packets packet hpacket := by
    obtain ⟨seg, hseg, hhonest⟩ := h.packets packet hpacket
    have hmono : Honest (x.written ++ []) c' seg := hhonest.mono grows
    rw [List.append_nil] at hmono
    exact ⟨seg, hseg, hmono⟩
  received := h.received
  retained hopen n hn := by
    obtain ⟨hbefore, hleft⟩ := sends.open_iff hopen
    rcases h.retained hbefore n hn with ⟨r, hr, rfl⟩ | hholds
    · rcases hleft r hr with ⟨s, hs, hsr⟩ | hr
      · exact .inl ⟨s, hs, congrArg UInt32.toNat hsr⟩
      · right
        rw [UInt32.ofNat_toNat]
        exact hgone r.number hr
    · exact .inr hholds

/-- A side that lets go of nothing keeps the direction of its peer. -/
theorem Link.backward (h : Link y x) (received : Received y.written x.obtained c')
    (grows : Grows x.conn c') : Link y { x with conn := c' } :=
  { h with
    received
    retained := fun hopen n hn => (h.retained hopen n hn).imp_right (grows.holds _) }

/-- What a segment of the peer does. -/
theorem Link.inputSegment (hxy : Link x y) (hyx : Link y x) (hsmall : y.written.length < 2 ^ 31)
    (current begin : UInt32) {seg : Segment} (honest : Honest y.written y.conn seg) :
    Link { x with conn := x.conn.inputSegment current begin seg } y ∧
      Link y { x with conn := x.conn.inputSegment current begin seg } := by
  cases seg with
  | data s =>
    have hkeeps : Keeps x.conn
        ((x.conn.handleOption s.option begin).processSendingNext s.sendingNext) :=
      (Conn.keeps_handleOption _ _).trans (Conn.keeps_processSendingNext _)
    obtain ⟨hkept, hgrows⟩ := (hyx.received.of_drops hkeeps).keepData honest
    obtain ⟨hdelivered, hgrows', hsends⟩ := hkept.deliverLoop hsmall _
    have hsame : Sends (fun _ => False)
        ((x.conn.handleOption s.option begin).processSendingNext s.sendingNext)
        (((x.conn.handleOption s.option begin).processSendingNext s.sendingNext).keepData s) := by
      rw [Conn.keepData]
      split
      · exact { (Keeps.refl _).toSends with }
      · exact { (Keeps.refl _).toSends with }
    have grows := hkeeps.grows.trans (hgrows.trans hgrows')
    exact ⟨hxy.forward (hkeeps.toSends.trans (hsame.trans hsends)) grows nofun,
      hyx.backward hdelivered grows⟩
  | ack s =>
    have drops := x.conn.drops_inputAck s current begin
    refine ⟨hxy.forward drops.toSends drops.grows ?_,
      hyx.backward (hyx.received.of_drops drops) drops.grows⟩
    rintro n (hn | hn)
    · exact .inl (UInt32.lt_of_lt_of_le hn honest.1)
    · exact honest.2.2 n hn
  | cmdOnly s =>
    have drops := x.conn.drops_inputCmdOnly s current begin
    refine ⟨hxy.forward drops.toSends drops.grows ?_,
      hyx.backward (hyx.received.of_drops drops) drops.grows⟩
    intro n hn
    exact .inl (UInt32.lt_of_lt_of_le hn honest.1)

theorem Link.keeps (hxy : Link x y) (hyx : Link y x) (keeps : Keeps x.conn c') :
    Link { x with conn := c' } y ∧ Link y { x with conn := c' } :=
  ⟨hxy.forward keeps.toSends keeps.grows nofun,
    hyx.backward (hyx.received.of_drops keeps) keeps.grows⟩

section

variable {segments : List Segment} (hxy : Link x y) (hyx : Link y x)
variable (hsmall : y.written.length < 2 ^ 31) (current begin : UInt32)
variable (honest : ∀ seg ∈ segments, Honest y.written y.conn seg)
include hxy hyx hsmall current begin honest

theorem Link.inputLoop : Link { x with conn := Conn.inputLoop current begin segments x.conn } y ∧
      Link y { x with conn := Conn.inputLoop current begin segments x.conn } := by
  induction segments generalizing x with
  | nil => exact ⟨hxy, hyx⟩
  | cons seg rest ih =>
    rw [List.forall_mem_cons] at honest
    rw [Conn.inputLoop]
    split
    · exact ⟨hxy, hyx⟩
    · obtain ⟨hforward, hbackward⟩ :=
        hxy.inputSegment hyx hsmall current begin honest.1
      exact ih hforward hbackward honest.2

theorem Link.input : Link { x with conn := x.conn.input segments current begin } y ∧
      Link y { x with conn := x.conn.input segments current begin } := by
  rw [Conn.input]
  split
  · exact ⟨hxy, hyx⟩
  · have hkeeps : Keeps x.conn { x.conn with lastIncoming := current } :=
      { Keeps.refl _ with }
    obtain ⟨hforward, hbackward⟩ := hxy.keeps hyx hkeeps
    exact hforward.inputLoop hbackward hsmall current begin honest

end

/-- A packet of an honest peer that fits the buffer is read as it was written. -/
theorem honest_readPacket (hyx : Link y x) {packet : Bytes} (hpacket : packet ∈ y.sent)
    (hlength : packet.length ≤ readBufferSize) :
    ∀ seg ∈ readPacket packet, Honest y.written y.conn seg := by
  obtain ⟨seg, rfl, honest⟩ := hyx.packets packet hpacket
  have hwell : seg.WellFormed := by
    cases seg with
    | data s =>
      change s.payload.length < 2 ^ 16
      simp only [Segment.serialize, List.length_append, BigEndian.putUint16_length,
        BigEndian.length_putUint32, List.length_cons, List.length_nil, readBufferSize] at hlength
      omega
    | ack s => exact Nat.lt_of_le_of_lt honest.2.1 (by decide)
    | cmdOnly s => exact honest.2
  rw [readPacket_serialize hwell]
  intro r hr
  rw [List.mem_singleton.mp hr]
  cases seg with
  | _ => exact honest

section

variable (hxy : Link x y) (hyx : Link y x)
include hxy hyx

theorem Link.write {b : Bytes} (hwrite : x.conn.write b = some c')
    (hsmall : x.written.length + 1 < 2 ^ 31) :
    Link { x with conn := c', written := x.written ++ [x.conn.nextPayload b] } y ∧
      Link y { x with conn := c', written := x.written ++ [x.conn.nextPayload b] } := by
  obtain ⟨⟨-, hactive, -⟩, rfl⟩ := of_guard hwrite
  have hnext := hxy.sendNext
  have hend : (x.written ++ [x.conn.nextPayload b])[x.conn.sendNext.toNat]? =
      some (x.conn.nextPayload b) := by rw [hnext, List.getElem?_concat_length]
  have hgrows : Grows x.conn { x.conn with
      sendNext := x.conn.sendNext + 1
      sendWindow := x.conn.sendWindow ++
        [{ number := x.conn.sendNext, payload := x.conn.nextPayload b }] } :=
    ⟨UInt32.le_refl _, fun n hn => hn⟩
  have hbefore : ∀ {i : Nat} {payload : Bytes}, x.written[i]? = some payload →
      (x.written ++ [x.conn.nextPayload b])[i]? = some payload := by
    intro i payload hi
    exact Table.getElem?_append hi _
  refine ⟨⟨?_, ?_, ?_, ?_, ?_⟩, hyx.sendNext, hyx.window, hyx.packets, ?_, hyx.retained⟩
  · rw [UInt32.toNat_add, List.length_append, hnext]
    exact Nat.mod_eq_of_lt (by simp only [UInt32.reduceToNat]; omega)
  · exact Table.forall_concat (fun s hs => hbefore (hxy.window s hs)) hend
  · intro packet hpacket
    obtain ⟨seg, hseg, honest⟩ := hxy.packets packet hpacket
    exact ⟨seg, hseg, honest.mono hgrows⟩
  · refine ⟨?_, ?_, fun s hs => hbefore (hxy.received.cache s hs), hxy.received.acks⟩
    · rw [List.length_append]
      exact Nat.le_add_right_of_le hxy.received.next_le
    · rw [hxy.received.data, List.take_append_of_le_length hxy.received.next_le]
  · intro _ n hn
    rw [List.length_append, List.length_singleton] at hn
    rcases Nat.lt_or_ge n x.written.length with hlt | hge
    · have hopen : x.conn.Open := by rw [Conn.Open, hactive]; rfl
      rcases hxy.retained hopen n hlt with ⟨s, hs, hnumber⟩ | hheld
      · exact .inl ⟨s, List.mem_append_left _ hs, hnumber⟩
      · exact .inr hheld
    · refine .inl ⟨_, List.mem_concat_self, ?_⟩
      change x.conn.sendNext.toNat = n
      omega
  · exact { hyx.received with }

theorem Link.flush (current begin : UInt32) : Link { x with
        conn := (x.conn.flush current begin).1
        sent := x.sent ++ (x.conn.flush current begin).2.map Segment.serialize } y ∧
      Link y { x with
        conn := (x.conn.flush current begin).1
        sent := x.sent ++ (x.conn.flush current begin).2.map Segment.serialize } := by
  obtain ⟨keeps, hsegments⟩ := x.conn.flush_spec current begin
  obtain ⟨hforward, hbackward⟩ := hxy.keeps hyx keeps
  refine ⟨{ hforward with packets := ?_ }, { hbackward with }⟩
  refine List.forall_mem_append.mpr ⟨hforward.packets, fun packet hpacket => ?_⟩
  obtain ⟨seg, hseg, rfl⟩ := List.mem_map.mp hpacket
  have hrepeats := hsegments seg hseg
  refine ⟨seg, rfl, ?_⟩
  cases seg with
  | data s =>
    obtain ⟨r, hr, hnumber, hpayload⟩ := hrepeats
    change x.written[s.number.toNat]? = some s.payload
    rw [← hnumber, ← hpayload]
    exact hxy.window r hr
  | ack s =>
    obtain ⟨hnext, hlength, hnumbers⟩ := hrepeats
    refine ⟨UInt32.le_of_eq (hnext.trans keeps.recvNext.symm), hlength, fun n hn => ?_⟩
    obtain ⟨a, ha, rfl⟩ := hnumbers n hn
    exact keeps.grows.holds _ (hyx.received.acks a ha)
  | cmdOnly s => exact ⟨UInt32.le_of_eq (hrepeats.1.trans keeps.recvNext.symm), hrepeats.2⟩

theorem Link.read (size : Nat) : Link { x with
        conn := (x.conn.read size).2
        obtained := x.obtained ++ (x.conn.read size).1 } y ∧
      Link y { x with
        conn := (x.conn.read size).2
        obtained := x.obtained ++ (x.conn.read size).1 } := by
  have hdata : x.obtained ++ x.conn.readBuf.take size ++ x.conn.readBuf.drop size =
      (y.written.take x.conn.recvNext.toNat).flatten := by
    rw [List.append_assoc, List.take_append_drop, hyx.received.data]
  exact ⟨{ hxy with }, { hyx with received := { hyx.received with data := hdata } }⟩

/-- What a side does keeps both directions. -/
theorem Link.step {x' : Side} {event : Event} (hstep : x.step y.sent event = some x')
    (hx : x'.written.length < 2 ^ 31) (hy : y.written.length < 2 ^ 31) : Link x' y ∧ Link y x' := by
  cases event with
  | write b =>
    obtain ⟨c', hwrite, rfl⟩ := Option.map_eq_some_iff.mp hstep
    refine hxy.write hyx hwrite ?_
    rwa [List.length_append] at hx
  | read size =>
    cases hstep
    exact hxy.read hyx size
  | close begin =>
    cases hstep
    exact hxy.keeps hyx (Conn.keeps_close begin)
  | flush current begin =>
    cases hstep
    exact hxy.flush hyx current begin
  | receive i current begin =>
    obtain ⟨packet, hpacket, hguard⟩ := Option.bind_eq_some_iff.mp hstep
    obtain ⟨hlength, rfl⟩ := of_guard hguard
    exact hxy.input hyx hy current begin
      (honest_readPacket hyx (List.mem_of_getElem? hpacket) hlength)

end

/-- What was written stays written. -/
theorem Side.written_le {x' : Side} {incoming : List Bytes} {event : Event}
    (hstep : x.step incoming event = some x') : x.written.length ≤ x'.written.length := by
  cases event with
  | write b =>
    obtain ⟨c', -, rfl⟩ := Option.map_eq_some_iff.mp hstep
    rw [List.length_append]
    exact Nat.le_add_right _ _
  | receive i current begin =>
    obtain ⟨packet, -, hguard⟩ := Option.bind_eq_some_iff.mp hstep
    obtain ⟨-, rfl⟩ := of_guard hguard
    exact Nat.le_refl _
  | _ =>
    cases hstep
    exact Nat.le_refl _

end Links

/-- The numbers of both sides stay below half of their range. -/
def World.Small (w : World) : Prop :=
  w.a.written.length < 2 ^ 31 ∧ w.b.written.length < 2 ^ 31

theorem link_newConn (cfg cfg' : Config) (conv : UInt16) (overhead overhead' : Int) :
    Link { conn := newConn cfg conv overhead } { conn := newConn cfg' conv overhead' } :=
  ⟨rfl, nofun, nofun, ⟨Nat.le_refl _, rfl, nofun, nofun⟩,
    fun _ _ hn => absurd hn (Nat.not_lt_zero _)⟩

theorem links_of_run {cfg cfg' : Config} {conv : UInt16} {overhead overhead' : Int}
    {actions : List Action} {w : World}
    (h : run World.next (newWorld (newConn cfg conv overhead) (newConn cfg' conv overhead'))
      actions = some w) (small : w.Small) : Link w.a w.b ∧ Link w.b w.a := by
  refine run_invariant (P := fun w => w.Small → Link w.a w.b ∧ Link w.b w.a) ?_
    (fun _ => ⟨link_newConn _ _ _ _ _, link_newConn _ _ _ _ _⟩) h small
  intro w action t hw hstep ht
  cases action with
  | a event =>
    obtain ⟨x', hside, rfl⟩ := Option.map_eq_some_iff.mp hstep
    obtain ⟨hab, hba⟩ := hw ⟨Nat.lt_of_le_of_lt (Side.written_le hside) ht.1, ht.2⟩
    exact hab.step hba hside ht.1 ht.2
  | b event =>
    obtain ⟨x', hside, rfl⟩ := Option.map_eq_some_iff.mp hstep
    obtain ⟨hab, hba⟩ := hw ⟨ht.1, Nat.lt_of_le_of_lt (Side.written_le hside) ht.2⟩
    exact (hba.step hab hside ht.2 ht.1).symm

theorem Link.obtained_isPrefix {x y : Side} (h : Link x y) : y.obtained <+: x.written.flatten := by
  have hdata := h.received.data
  refine List.IsPrefix.trans ⟨y.conn.readBuf, hdata⟩ ?_
  refine ⟨(x.written.drop y.conn.recvNext.toNat).flatten, ?_⟩
  rw [← List.flatten_append, List.take_append_drop]

/-- A reader obtains a prefix of what the peer has written, and a side that keeps its send
window has in it every segment that its peer does not hold, whatever the network does. -/
theorem reliable_delivery {cfg cfg' : Config} {conv : UInt16} {overhead overhead' : Int}
    {actions : List Action} {w : World}
    (h : run World.next (newWorld (newConn cfg conv overhead) (newConn cfg' conv overhead'))
      actions = some w) (small : w.Small) :
    w.a.obtained <+: w.b.written.flatten ∧ w.b.obtained <+: w.a.written.flatten ∧
      Retained w.a w.b ∧ Retained w.b w.a := by
  obtain ⟨hab, hba⟩ := links_of_run h small
  exact ⟨hba.obtained_isPrefix, hab.obtained_isPrefix, hab.retained, hba.retained⟩

/-- Two bytes cross the network. -/
theorem reliable_delivery_packet :
    ∃ w, run World.next (newWorld (newConn {} 7 0) (newConn {} 7 0)) [.a (.write [1, 2]),
        .a (.flush 10 10), .b (.receive 0 12 12), .b (.receive 0 13 13), .b (.read 8)] = some w ∧
      w.b.obtained = [1, 2] ∧ w.b.obtained <+: w.a.written.flatten := by
  refine exists_of_map (f := fun w => (w.b.obtained, w.a.written.length, w.b.written.length))
    (b := ([1, 2], 1, 0)) (by decide +kernel) fun w hrun hw => ?_
  simp only [Prod.mk.injEq] at hw
  obtain ⟨hread, ha, hb⟩ := hw
  have hsmall : w.Small := ⟨by omega, by omega⟩
  exact ⟨hread, (reliable_delivery hrun hsmall).2.1⟩

end Mkcp
