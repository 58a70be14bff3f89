import CheezyCore.XrayMux.Downlink
import CheezyCore.XrayMux.Registry

/-!
# What the steps of the downlink do

The queue of a `sessionPipe` and its byte count, the data frames as a `Framing` of the
received bytes, and the inversion of `Downlink.next`: `Moves` has one constructor for
each way in which a goroutine of the downlink can change the state.
-/

namespace XrayMux

open BigEndian Chunks

/-! ## Pipes -/

variable {expired : Bool}

namespace SessionPipe

variable {limit : Int} {p p' : SessionPipe} {data : List UInt8} {room : Nat}

/-- The count of a pipe is the number of its queued bytes, and within the limit. No
chunk is empty. -/
structure Valid (limit : Int) (p : SessionPipe) : Prop where
  limit : p.limit = limit
  size : p.nbytes = (p.chunks.map List.length).sum
  fits : p.nbytes ≤ p.limit
  chunks : ∀ chunk ∈ p.chunks, chunk ≠ []

theorem valid_new (h : 0 ≤ limit) : (newSessionPipe limit).Valid limit :=
  ⟨rfl, rfl, h, nofun⟩

theorem write_ok (h : p.write data = some (.ok p')) :
    p.closed = false ∧ p.nbytes + data.length ≤ p.limit ∧
      p' = { p with chunks := p.chunks ++ [data], nbytes := p.nbytes + data.length } := by
  unfold write at h
  split at h
  · cases h
  · next hclosed =>
    split at h <;> cases h
    next hfits => exact ⟨Bool.eq_false_iff.mpr hclosed, hfits, rfl⟩

theorem write_error {e : Err} (h : p.write data = some (.error e)) : p.closed = true := by
  unfold write at h
  split at h
  · next hclosed => exact hclosed
  · split at h
    · cases h
    · cases h

theorem Valid.write (hp : p.Valid limit) (h : p.write data = some (.ok p')) (hdata : data ≠ []) :
    p'.Valid limit := by
  obtain ⟨-, hfits, rfl⟩ := write_ok h
  refine ⟨hp.limit, ?_, hfits, ?_⟩
  · have hsize := hp.size
    simp only [List.map_append, List.sum_append, List.map_singleton, List.sum_singleton]
    omega
  · exact Table.forall_concat hp.chunks hdata

theorem write_contents (h : p.write data = some (.ok p')) :
    p'.contents = p.contents ++ data := by
  obtain ⟨-, -, rfl⟩ := write_ok h
  simp [contents]

/-- Reading takes a first part of the contents. -/
theorem readLocked_contents (p : SessionPipe) (room : Nat) :
    (p.readLocked room).1 ++ (p.readLocked room).2.contents = p.contents :=
  takeChunk_append_flatten room p.chunks

theorem Valid.readLocked (hp : p.Valid limit) (room : Nat) : (p.readLocked room).2.Valid limit := by
  have hlength := congrArg List.length (takeChunk_append_flatten room p.chunks)
  rw [List.length_append, List.length_flatten, List.length_flatten] at hlength
  have hsize := hp.size
  have hfits := hp.fits
  refine ⟨hp.limit, ?_, ?_, takeChunk_ne_nil hp.chunks⟩
  · change p.nbytes - ((takeChunk room p.chunks).1.length : Int) =
      ((takeChunk room p.chunks).2.map List.length).sum
    omega
  · change p.nbytes - ((takeChunk room p.chunks).1.length : Int) ≤ p.limit
    omega

section

variable (cause : Option Err)
include cause

@[simp] theorem close_contents (p : SessionPipe) : (p.close cause).contents = p.contents := by
  unfold close
  split
  · rfl
  · rfl

@[simp] theorem close_chunks (p : SessionPipe) : (p.close cause).chunks = p.chunks := by
  unfold close
  split
  · rfl
  · rfl

@[simp] theorem close_closed (p : SessionPipe) : (p.close cause).closed = true := by
  unfold close
  split
  · next h => exact h
  · rfl

theorem Valid.close (hp : p.Valid limit) : (p.close cause).Valid limit := by
  unfold SessionPipe.close
  split
  · exact hp
  · exact { hp with }

theorem Valid.drop (hp : p.Valid limit) : (p.drop cause).Valid limit := by
  refine ⟨hp.limit, rfl, ?_, nofun⟩
  have hsize := hp.size
  have hfits := hp.fits
  change 0 ≤ p.limit
  omega

end

theorem readDeadline_data {bytes : List UInt8}
    (h : p.readDeadline room expired = some (.data bytes, p')) :
    p.chunks ≠ [] ∧ bytes = (p.readLocked room).1 ∧ p' = (p.readLocked room).2 := by
  unfold readDeadline at h
  split at h
  · split at h
    · cases h
    · obtain ⟨-, ⟨⟩⟩ := Transition.of_guard h
  · next hne =>
    cases h
    exact ⟨hne, rfl, rfl⟩

theorem readDeadline_failed {e : Err} (h : p.readDeadline room expired = some (.failed e, p')) :
    p.chunks = [] ∧ p.closed = true := by
  unfold readDeadline at h
  split at h
  · next hempty =>
    split at h
    · next hclosed => exact ⟨hempty, hclosed⟩
    · obtain ⟨-, ⟨⟩⟩ := Transition.of_guard h
  · cases h

/-- `readAvailable` does to a pipe what `readLocked` does. -/
theorem readAvailable_eq (p : SessionPipe) (room : Nat) (h : (p.readAvailable room).1 ≠ []) :
    p.readAvailable room = p.readLocked room := by
  unfold readAvailable at h ⊢
  split at h
  · exact absurd rfl h
  · next hne => rw [if_neg hne]

end SessionPipe

/-! ## Data frames -/

namespace DataFrame

/-- The header, then the length and the bytes of the payload if there is one. -/
def wire (x : DataFrame) : List UInt8 :=
  x.header.wire ++ if x.header.option &&& optionData ≠ 0 then
    putUint16 (UInt16.ofNat x.payload.length) ++ x.payload else []

structure WellFormed (x : DataFrame) : Prop where
  header : x.header.WellFormed
  size : x.payload.length < 65536
  bare : x.header.option &&& optionData = 0 → x.payload = []

end DataFrame

/-- `readLoop` reads exactly the well-formed data frames. -/
theorem readFrame_ok_iff {r rest : List UInt8} {x : DataFrame} :
    readFrame r = .ok (x, rest) ↔ x.WellFormed ∧ r = x.wire ++ rest := by
  constructor
  · fun_cases readFrame r with
    | case4 header tail hheader hdata size tail hsize payload tail hpayload =>
      rintro ⟨⟩
      obtain ⟨hwell, rfl⟩ := readFrameMetadata_ok_iff.mp hheader
      obtain ⟨rfl, htwo⟩ := readFull_ok_iff.mp hsize
      obtain ⟨rfl, hlength⟩ := readFull_ok_iff.mp hpayload
      refine ⟨⟨hwell, hlength ▸ (word size).toNat_lt, fun hno => absurd hno hdata⟩, ?_⟩
      rw [DataFrame.wire, if_pos hdata, hlength, UInt16.ofNat_toNat,
        putUint16_word htwo, List.append_assoc, List.append_assoc]
    | case5 header tail hheader hbare =>
      rintro ⟨⟩
      obtain ⟨hwell, rfl⟩ := readFrameMetadata_ok_iff.mp hheader
      refine ⟨⟨hwell, Nat.zero_lt_succ _, fun _ => rfl⟩, ?_⟩
      rw [DataFrame.wire, if_neg hbare, List.append_nil]
    | _ => rintro ⟨⟩
  · rintro ⟨hx, rfl⟩
    unfold readFrame DataFrame.wire
    rw [List.append_assoc, readFrameMetadata_ok_iff.mpr ⟨hx.header, rfl⟩]
    by_cases hdata : x.header.option &&& optionData ≠ 0
    · have hlength : (UInt16.ofNat x.payload.length).toNat = x.payload.length := by
        exact Nat.mod_eq_of_lt hx.size
      have hword : word (putUint16 (UInt16.ofNat x.payload.length)) =
          UInt16.ofNat x.payload.length := uint16_bytes _
      have hsize : readFull 2 (putUint16 (UInt16.ofNat x.payload.length) ++ x.payload ++ rest) =
          .ok (putUint16 (UInt16.ofNat x.payload.length), x.payload ++ rest) :=
        readFull_ok_iff.mpr ⟨List.append_assoc .., rfl⟩
      simp only [if_pos hdata, hsize, hword, hlength, readFull_append]
    · have hnil : x.payload = [] := hx.bare (by simpa using hdata)
      simp only [if_neg hdata, List.nil_append]
      rw [← hnil]

/-- The stream of a carrier is made of data frames. -/
def dataFraming : Framing UInt8 DataFrame where
  Valid := DataFrame.WellFormed
  wire := DataFrame.wire
  read r := (readFrame r).toOption
  read_eq_some {r rest x} := by
    rw [← readFrame_ok_iff]
    cases readFrame r with
    | error e | ok result => simp [Except.toOption]

theorem isShort_shortRead (left : List UInt8) : (shortRead left).isShort = true := by
  unfold shortRead
  split
  · rfl
  · rfl

/-- A part of a header that misses its end is short. -/
theorem readFrameMetadata_short {header : FrameMetadata} (h : header.WellFormed)
    {r more : List UInt8} (hmore : more ≠ []) (hwire : header.wire = r ++ more) :
    ∃ e, readFrameMetadata r = .error e ∧ e.isShort = true := by
  have hmax := FrameMetadata.body_length_le (fun t ht => (h.target t ht).addressable)
  have hfour := header.four_le_body_length
  have hn := ofNat_length_toNat hmax
  have hpos : 0 < more.length := List.length_pos_iff.mpr hmore
  unfold readFrameMetadata
  cases hsize : readFull 2 r with
  | error left => exact ⟨_, rfl, rfl⟩
  | ok result =>
    obtain ⟨size, tail⟩ := result
    obtain ⟨rfl, htwo⟩ := readFull_ok_iff.mp hsize
    -- The two bytes read are those of the length, so the body is what is missing.
    rw [List.append_assoc] at hwire
    obtain ⟨hput, hbody⟩ := List.append_inj hwire (by rw [putUint16_length, htwo])
    have hword : word size = UInt16.ofNat header.body.length := by
      rw [← hput]
      exact uint16_bytes _
    have hshort : tail.length < header.body.length := by
      rw [hbody, List.length_append]
      omega
    simp only [hword, hn]
    rw [if_neg (by omega)]
    cases htail : readFull header.body.length tail with
    | ok result =>
      obtain ⟨rfl, hlength⟩ := readFull_ok_iff.mp htail
      rw [List.length_append] at hshort
      omega
    | error left =>
      refine ⟨_, rfl, ?_⟩
      unfold shortRead
      split <;> rfl

/-- Behind its header, a part of a data frame that misses its end is short. -/
theorem readFrame_short_payload {x : DataFrame} (hx : x.WellFormed) {r more : List UInt8}
    (hmore : more ≠ []) (hwire : x.wire = x.header.wire ++ r ++ more) :
    ∃ e, readFrame (x.header.wire ++ r) = .error e ∧ e.isShort = true := by
  have hpos : 0 < more.length := List.length_pos_iff.mpr hmore
  unfold readFrame
  rw [readFrameMetadata_ok_iff.mpr ⟨hx.header, rfl⟩]
  rw [List.append_assoc] at hwire
  replace hwire := List.append_cancel_left hwire
  by_cases hdata : x.header.option &&& optionData ≠ 0
  · rw [if_pos hdata] at hwire
    simp only [if_pos hdata]
    cases hsize : readFull 2 r with
    | error left => exact ⟨_, rfl, isShort_shortRead left⟩
    | ok result =>
      obtain ⟨size, tail⟩ := result
      obtain ⟨rfl, htwo⟩ := readFull_ok_iff.mp hsize
      rw [List.append_assoc] at hwire
      obtain ⟨hput, hpayload⟩ := List.append_inj hwire (by rw [putUint16_length, htwo])
      have hword : (word size).toNat = x.payload.length := by
        rw [← hput, show word (putUint16 _) = _ from uint16_bytes _]
        exact Nat.mod_eq_of_lt hx.size
      have hshort : tail.length < x.payload.length := by
        rw [hpayload, List.length_append]
        omega
      cases htail : readFull (word size).toNat tail with
      | error left => exact ⟨_, by simp only [htail], isShort_shortRead left⟩
      | ok result =>
        obtain ⟨payload, rest⟩ := result
        obtain ⟨rfl, hlength⟩ := readFull_ok_iff.mp htail
        rw [List.length_append] at hshort
        omega
  · rw [if_neg hdata] at hwire
    exact absurd (List.append_eq_nil_iff.mp hwire.symm).2 hmore

/-- The beginning of a data frame is short: `readLoop` reads on. -/
theorem readFrame_short {r : List UInt8} (h : dataFraming.Incomplete r) :
    ∃ e, readFrame r = .error e ∧ e.isShort = true := by
  obtain ⟨x, more, hx, hmore, hwire⟩ := h
  have hsplit := hwire
  rcases List.append_eq_append_iff.mp hsplit with ⟨tail, rfl, -⟩ | ⟨tail, hheader, -⟩
  · exact readFrame_short_payload hx hmore hwire
  · by_cases htail : tail = []
    · rw [htail, List.append_nil] at hheader
      rw [← hheader, ← List.append_nil x.header.wire]
      rw [← hheader, ← List.append_nil x.header.wire] at hwire
      exact readFrame_short_payload hx hmore hwire
    · obtain ⟨e, he, hshort⟩ := readFrameMetadata_short hx.header htail hheader
      refine ⟨e, ?_, hshort⟩
      rw [readFrame, he]

/-! ## Steps -/

/-- The ways in which a reader moves bytes: from the pipe into its buffer, and from the
buffer to its caller. -/
inductive InboxMove (b : Inbox) : Inbox → Prop where
  | read {room reader} : b.reader = .idle → b.pipe.chunks ≠ [] →
      reader.held = (b.pipe.readLocked room).1 →
      InboxMove b { b with pipe := (b.pipe.readLocked room).2, reader }
  | more {room left bytes} : b.reader = .draining room bytes →
      InboxMove b { b with
        pipe := (b.pipe.readLocked room).2
        reader := .draining left (bytes ++ (b.pipe.readLocked room).1) }
  | finish {room bytes} : b.reader = .draining room bytes →
      InboxMove b { b with reader := .idle, returned := b.returned ++ bytes }
  | packets {packets} :
      InboxMove b { b with packets }

namespace Downlink

variable {d d' : Downlink} {order : List Nat} {ref : Nat}

/-- The ways in which an action can change the downlink. -/
inductive Moves (d : Downlink) : Downlink → Prop where
  | idle : Moves d d
  | act {a u} : d.allows a = true → d.uplink.next a = some u → Moves d (d.sync u)
  | drop {refs cause} : d.uplink.teardown = .running refs cause →
      d.dropped = false →
      Moves d { d with carrier := d.carrier.drop (some cause), dropped := true }
  | receive {bytes err} : d.fill = .reading → bytes ≠ [] →
      Moves d { d with received := d.received ++ bytes, fill := .writing bytes err }
  | carrierEnd {e} : d.fill = .reading →
      Moves d { d with carrier := d.carrier.close (some e), fill := .stopped }
  | carrierRefuse {chunk err e} :
      d.fill = .writing chunk err → d.carrier.closed = true →
      Moves d { d with carrier := d.carrier.close (some e), fill := .stopped }
  | carrierStore {chunk p} : d.fill = .writing chunk none →
      d.carrier.write chunk = some (.ok p) → Moves d { d with carrier := p, fill := .reading }
  | carrierLast {chunk p e} :
      d.fill = .writing chunk (some e) → d.carrier.write chunk = some (.ok p) →
      Moves d { d with carrier := p.close (some e), fill := .stopped }
  | refill : d.loop = .frame → d.carrier.chunks ≠ [] →
      Moves d { d with
        carrier := (d.carrier.readLocked workerReadBuffer).2
        pending := d.pending ++ (d.carrier.readLocked workerReadBuffer).1 }
  | endLoop {external : External} {order : List Nat} {u : Uplink} {e : Err} : d.loop = .frame →
      readFrame d.pending = .error e →
      (e.isShort = true → d.carrier.chunks = [] ∧ d.carrier.closed = true) →
      d.uplink.enterClose external.failure order = some u →
      Moves d { d with
        uplink := u, loop := .stopped
        loopClosed := d.loopClosed || d.uplink.teardown = .idle }
  | decode {x rest sent u} : d.loop = .frame →
      readFrame d.pending = .ok (x, rest) →
      d.uplink.receive x.header x.payload sent = some u →
      Moves d { d with
        uplink := u, pending := rest, handled := d.handled ++ [x]
        loop := if u.demux = .reading then .frame else .pushing }
  | skip {ref frame payload f} :
      d.loop = .pushing → d.uplink.demux = .delivering ref frame payload →
      d.uplink.flows[ref]? = some f → payload = [] ∨ f.packet = true →
      Moves d { d with loop := .pushed }
  | pushPacket {ref frame payload f b packets} : d.loop = .pushing →
      d.uplink.demux = .delivering ref frame payload → d.uplink.flows[ref]? = some f →
      d.inboxes[ref]? = some b → f.packet = true →
      Moves d { d with inboxes := d.inboxes.set ref { b with packets }, loop := .pushed }
  | push {ref frame payload f b p} : d.loop = .pushing →
      d.uplink.demux = .delivering ref frame payload → d.uplink.flows[ref]? = some f →
      d.inboxes[ref]? = some b → f.packet = false → payload ≠ [] →
      b.pipe.write payload = some (.ok p) →
      Moves d { d with inboxes := d.inboxes.set ref { b with pipe := p }, loop := .pushed }
  | refuse {ref frame payload f b} : d.loop = .pushing →
      d.uplink.demux = .delivering ref frame payload →
      d.uplink.flows[ref]? = some f → d.inboxes[ref]? = some b →
      (f.packet = false ∧ b.pipe.closed = true) ∨ (f.packet = true ∧ f.done = true ∧
        ∃ addr, metadataPacketAddr (frame.target <|> f.target) = .ok addr) →
      Moves d d.refuse
  | deliver {ref frame payload order u} :
      d.loop = .pushed → d.uplink.demux = .delivering ref frame payload →
      d.uplink.deliver order = some u →
      Moves d { d with
        uplink := u
        loop := if u.demux = .stopped then .stopped
          else if (Uplink.remoteEnding frame).isSome then .finishing ref else .frame }
  | resume {ref f} : d.loop = .finishing ref → d.uplink.flows[ref]? = some f →
      f.finish = .complete → Moves d { d with loop := .frame }
  | report {ref f b e} : d.uplink.flows[ref]? = some f →
      d.inboxes[ref]? = some b → f.opening = .started → b.reader = .idle →
      b.pipe.chunks = [] → b.pipe.closed = true →
      Moves d { d with inboxes := d.inboxes.set ref { b with reported := some e } }
  | inbox {ref b b'} : d.inboxes[ref]? = some b → InboxMove b b' →
      Moves d { d with inboxes := d.inboxes.set ref b' }

theorem carrierRead_moves {bytes : List UInt8} {err : Option Err}
    (h : d.carrierRead bytes err = some d') : Moves d d' := by
  obtain ⟨hguard, h⟩ := Transition.of_guard_bind h
  obtain ⟨hreading, -⟩ := hguard
  split at h
  · next hne =>
    cases h
    exact .receive hreading hne
  · next hnil =>
    rw [Classical.not_not] at hnil
    subst hnil
    rw [List.append_nil] at h
    split at h <;> cases h
    · exact .idle
    · exact .carrierEnd hreading

theorem carrierWrite_moves (h : d.carrierWrite = some d') : Moves d d' := by
  unfold carrierWrite at h
  split at h
  · next chunk err hfill =>
    split at h <;> cases h
    next hwrite => exact .carrierRefuse hfill (SessionPipe.write_error hwrite)
    next hwrite => exact .carrierStore hfill hwrite
    next hwrite => exact .carrierLast hfill hwrite
  · cases h

theorem refill_moves (h : d.refill order = some d') : Moves d d' := by
  obtain ⟨hloop, h⟩ := Transition.of_guard_bind h
  split at h
  · cases h
  · next e hread =>
    obtain ⟨-, h⟩ := Transition.of_guard_bind h
    split at h
    · next bytes p hdata =>
      cases h
      obtain ⟨hne, rfl, rfl⟩ := SessionPipe.readDeadline_data hdata
      exact .refill hloop hne
    · next cause p hfailed =>
      obtain ⟨u, hu, rfl⟩ := Option.map_eq_some_iff.mp h
      exact .endLoop hloop hread (fun _ => SessionPipe.readDeadline_failed hfailed) hu
    · cases h

theorem decode_moves {sent : Bool} (h : d.decode sent order = some d') : Moves d d' := by
  obtain ⟨hloop, h⟩ := Transition.of_guard_bind h
  split at h
  · next x rest hread =>
    obtain ⟨u, hu, rfl⟩ := Option.map_eq_some_iff.mp h
    exact .decode hloop hread hu
  · next e hread =>
    split at h
    · cases h
    · next hshort =>
      obtain ⟨u, hu, rfl⟩ := Option.map_eq_some_iff.mp h
      exact .endLoop hloop hread (fun htrue => absurd htrue hshort) hu

theorem push_moves {closed : Bool} (h : d.push closed = some d') : Moves d d' := by
  unfold push at h
  split at h
  · next ref frame payload hloop hdemux =>
    obtain ⟨f, hf, h⟩ := Option.bind_eq_some_iff.mp h
    obtain ⟨b, hb, h⟩ := Option.bind_eq_some_iff.mp h
    split at h
    · next hnil =>
      cases h
      exact .skip hloop hdemux hf (.inl hnil)
    · next hpayload =>
      split at h
      · next hpacket =>
        split at h
        · cases h
          exact .skip hloop hdemux hf (.inr hpacket)
        · next addr haddr =>
          split at h
          · obtain ⟨hdone, rfl⟩ := Transition.of_guard h
            exact .refuse hloop hdemux hf hb (.inr ⟨hpacket, hdone, addr, haddr⟩)
          · obtain ⟨-, rfl⟩ := Transition.of_guard h
            exact .pushPacket hloop hdemux hf hb hpacket
      · next hstream =>
        have hstream : f.packet = false := Bool.eq_false_iff.mpr hstream
        split at h
        · cases h
        · next hwrite =>
          cases h
          exact .refuse hloop hdemux hf hb (.inl ⟨hstream, SessionPipe.write_error hwrite⟩)
        · next hwrite =>
          cases h
          exact .push hloop hdemux hf hb hstream hpayload hwrite
  · cases h

theorem read_moves {room : Nat} (h : d.read ref room expired = some d') : Moves d d' := by
  obtain ⟨f, hf, h⟩ := Option.bind_eq_some_iff.mp h
  obtain ⟨b, hb, h⟩ := Option.bind_eq_some_iff.mp h
  obtain ⟨hguard, h⟩ := Transition.of_guard_bind h
  obtain ⟨-, hstarted, hidle, -⟩ := hguard
  split at h
  · cases h
  · cases h
    exact .idle
  · next hfailed =>
    cases h
    obtain ⟨hempty, hclosed⟩ := SessionPipe.readDeadline_failed hfailed
    exact .report hf hb hstarted hidle hempty hclosed
  · next bytes p hdata =>
    cases h
    obtain ⟨hne, rfl, rfl⟩ := SessionPipe.readDeadline_data hdata
    refine .inbox hb (.read hidle hne ?_)
    split
    · next hnil => exact hnil.symm
    · rfl

theorem drain_moves (h : d.drain ref = some d') : Moves d d' := by
  obtain ⟨b, hb, h⟩ := Option.bind_eq_some_iff.mp h
  split at h
  · cases h
  · next room bytes hreader =>
    split at h <;> cases h
    · exact .inbox hb (.finish hreader)
    next hmore =>
      have hne : (b.pipe.readAvailable room).1 ≠ [] := fun hnil => hmore (.inr hnil)
      rw [SessionPipe.readAvailable_eq b.pipe room hne]
      exact .inbox hb (.more hreader)

theorem act_moves {a : Action} (h : d.act a = some d') : Moves d d' := by
  obtain ⟨hallows, h⟩ := Transition.of_guard_bind h
  obtain ⟨u, hu, rfl⟩ := Option.map_eq_some_iff.mp h
  exact .act hallows hu

theorem drop_moves (h : d.drop = some d') : Moves d d' := by
  unfold drop at h
  split at h
  · next hrun =>
    split at h <;> cases h
    next hdropped => exact .drop hrun (Bool.eq_false_iff.mpr hdropped)
  · cases h

theorem deliver_moves (h : d.deliver order = some d') : Moves d d' := by
  unfold deliver at h
  split at h
  · next hloop hdemux =>
    obtain ⟨u, hu, rfl⟩ := Option.map_eq_some_iff.mp h
    exact .deliver hloop hdemux hu
  · cases h

theorem resume_moves (h : d.resume = some d') : Moves d d' := by
  unfold resume at h
  split at h
  · next ref hloop =>
    obtain ⟨f, hf, h⟩ := Option.bind_eq_some_iff.mp h
    obtain ⟨hcomplete, rfl⟩ := Transition.of_guard h
    exact .resume hloop hf hcomplete
  · cases h

theorem readFrom_moves (h : d.readFrom ref = some d') : Moves d d' := by
  obtain ⟨b, hb, h⟩ := Option.bind_eq_some_iff.mp h
  split at h <;> cases h
  exact .inbox hb .packets

/-- Every action of the downlink moves it. -/
theorem next_moves {a : DownAction} (h : d.next a = some d') : Moves d d' := by
  cases a with
  | act a => exact act_moves h
  | drop => exact drop_moves h
  | carrierRead bytes err => exact carrierRead_moves h
  | carrierWrite => exact carrierWrite_moves h
  | fill order => exact refill_moves h
  | decode sent order => exact decode_moves h
  | push closed => exact push_moves h
  | deliver order => exact deliver_moves h
  | resume => exact resume_moves h
  | read ref room expired => exact read_moves h
  | drain ref => exact drain_moves h
  | readFrom ref => exact readFrom_moves h

end Downlink

end XrayMux
