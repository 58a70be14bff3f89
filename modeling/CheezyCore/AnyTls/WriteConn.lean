import CheezyCore.AnyTls.Padding
import CheezyCore.Foundation.Transition

/-!
# What a client session writes to its connection

`writeConn` gets the bytes of one or more frames. While the session is buffering it keeps
them; otherwise it sends them after the ones it kept, and pads the first packets: it cuts the
bytes at the sizes of the padding scheme, fills up the record with the last of them by a waste
frame and sends further waste frames in place of the sizes that remain.

Writes to the connection succeed. The length field of a waste frame and of a control frame
has 16 bits. `Fits` says that the lengths a step writes there are not cut off.
-/

namespace AnyTls

open Transition

def maxFrameDataLen : Nat := 0xFFFF

/-- A frame of `n` bytes that recvLoop throws away. -/
def wasteFrame (n : Nat) : Frame := ⟨cmdWaste, 0, List.replicate n 0⟩

/-- The bytes of frames, one after the other. -/
def encode (fs : List Frame) : Bytes := grammar.stream (fs.map Frame.raw)

/-- The waste frame that fills up a record of size `l` after `remain` bytes of payload. There
is none if its header has no room, or if it would have no data. -/
def fillUp (l : Int) (remain : Nat) : List Nat :=
  let paddingLen := l - remain - headerOverHeadSize
  if 0 < paddingLen then [paddingLen.toNat] else []

/-- The loop of `writeConn` over the sizes of the records, and the write of what is left. -/
def writeRecords : List Int → Bytes → List Bytes
  | [], b => if b = [] then [] else [b]
  | l :: pktSizes, b =>
    if l = checkMark then
      if b = [] then [] else writeRecords pktSizes b
    else if l < b.length then b.take l.toNat :: writeRecords pktSizes (b.drop l.toNat)
    else if b ≠ [] then
      (b ++ encode ((fillUp l b.length).map wasteFrame)) :: writeRecords pktSizes []
    else encode [wasteFrame l.toNat] :: writeRecords pktSizes []

/-- The lengths of the paddings that `remain` bytes of payload get. -/
def paddingLens : List Int → Nat → List Nat
  | [], _ => []
  | l :: pktSizes, remain =>
    if l = checkMark then
      if remain = 0 then [] else paddingLens pktSizes remain
    else if l < remain then paddingLens pktSizes (remain - l.toNat)
    else if remain ≠ 0 then fillUp l remain ++ paddingLens pktSizes 0
    else l.toNat :: paddingLens pktSizes 0

/-- The fields of a client `Session` that writing uses, and the writes to its connection. -/
structure Session where
  padding : PaddingFactory
  sendPadding : Bool := true
  buffering : Bool := false
  buffer : Bytes := []
  pktCounter : UInt32 := 0
  written : List Bytes := []

def newClientSession (padding : PaddingFactory) : Session := { padding }

namespace Session

/-- The bytes on the connection. -/
def wire (s : Session) : Bytes := s.written.flatten

/-- The next packet is padded. -/
def Pads (s : Session) : Prop := s.sendPadding = true ∧ s.pktCounter + 1 < s.padding.stop

instance (s : Session) : Decidable s.Pads := inferInstanceAs (Decidable (_ ∧ _))

/-- `writeConn` after the kept bytes were put in front. -/
def send (s : Session) (b : Bytes) (draw : Nat → Nat) : Session :=
  if s.sendPadding then
    if s.pktCounter + 1 < s.padding.stop then
      let pktSizes := s.padding.generateRecordPayloadSizes (s.pktCounter + 1) draw
      { s with pktCounter := s.pktCounter + 1, written := s.written ++ writeRecords pktSizes b }
    else
      { s with pktCounter := s.pktCounter + 1, sendPadding := false, written := s.written ++ [b] }
  else { s with written := s.written ++ [b] }

def writeConn (s : Session) (b : Bytes) (draw : Nat → Nat) : Session :=
  if s.buffering then { s with buffer := s.buffer ++ b }
  else { s with buffer := [] }.send (s.buffer ++ b) draw

/-- The paddings of the next packet if it has `remain` bytes of payload. -/
def paddings (s : Session) (remain : Nat) (draw : Nat → Nat) : List Nat :=
  if s.Pads then
    paddingLens (s.padding.generateRecordPayloadSizes (s.pktCounter + 1) draw) remain
  else []

end Session

/-- The frames of `writeDataFrame`. -/
def dataFrames (sid : UInt32) (data : Bytes) : List Frame :=
  if data = [] then []
  else if data.length ≤ maxFrameDataLen then [⟨cmdPSH, sid, data⟩]
  else (Chunks.pieces maxFrameDataLen data).map fun chunk => ⟨cmdPSH, sid, chunk⟩

/-- The control frames of a session that is not a server's. -/
inductive Control where
  /-- `Run`; the text of the settings holds the client's metadata. -/
  | settings (data : Bytes)
  | syn (sid : UInt32)
  | fin (sid : UInt32)
  | heartResponse (sid : UInt32)
  /-- `HandshakeSuccess`, without data, and `HandshakeFailure`. -/
  | synAck (sid : UInt32) (data : Bytes)

def Control.frame : Control → Frame
  | settings data => ⟨cmdSettings, 0, data⟩
  | syn sid => ⟨cmdSYN, sid, []⟩
  | fin sid => ⟨cmdFIN, sid, []⟩
  | heartResponse sid => ⟨cmdHeartResponse, sid, []⟩
  | synAck sid data => ⟨cmdSYNACK, sid, data⟩

inductive Action where
  | writeDataFrame (sid : UInt32) (data : Bytes) (draw : Nat → Nat)
  | writeControlFrame (control : Control) (draw : Nat → Nat)
  /-- `Run` starts to buffer and `OpenStream` ends it. -/
  | setBuffering (buffering : Bool)
  | updatePaddingScheme (rawScheme : Bytes)

namespace Action

/-- The frames an action hands to the session. -/
def frames : Action → List Frame
  | writeDataFrame sid data _ => dataFrames sid data
  | writeControlFrame control _ => [control.frame]
  | _ => []

/-- The data of a control frame. -/
def controlData : Action → Bytes
  | writeControlFrame control _ => control.frame.data
  | _ => []

def draw : Action → Nat → Nat
  | writeDataFrame _ _ draw => draw
  | writeControlFrame _ draw => draw
  | _ => fun _ => 0

end Action

namespace Session

/-- An empty write returns before `writeConn`. A scheme that is not accepted changes nothing. -/
def step (s : Session) : Action → Session
  | .writeDataFrame sid data draw =>
    if data = [] then s else s.writeConn (encode (dataFrames sid data)) draw
  | .writeControlFrame control draw => s.writeConn (encode [control.frame]) draw
  | .setBuffering buffering => { s with buffering }
  | .updatePaddingScheme rawScheme =>
    { s with padding := (newPaddingFactory rawScheme).getD s.padding }

def next (s : Session) (a : Action) : Option Session := some (s.step a)

/-- The data of a control frame and every padding the step writes have a length of 16 bits. -/
def Fits (s : Session) (a : Action) : Prop :=
  a.controlData.length < 2 ^ 16 ∧
    (a.frames ≠ [] → s.buffering = false →
      ∀ n ∈ s.paddings (s.buffer.length + (encode a.frames).length) a.draw, n < 2 ^ 16)

instance (s : Session) (a : Action) : Decidable (s.Fits a) := inferInstanceAs (Decidable (_ ∧ _))

end Session

/-! ## The bytes of a packet -/

theorem encode_append (fs gs : List Frame) : encode (fs ++ gs) = encode fs ++ encode gs := by
  rw [encode, List.map_append, Framing.stream, List.flatMap_append]
  rfl

/-- Cutting and padding only appends waste frames. -/
theorem flatten_writeRecords (pktSizes : List Int) (b : Bytes) :
    (writeRecords pktSizes b).flatten =
      b ++ encode ((paddingLens pktSizes b.length).map wasteFrame) := by
  induction pktSizes generalizing b with
  | nil =>
    rw [writeRecords]
    split
    · next hnil => rw [hnil]; rfl
    · rw [List.flatten_singleton]
      exact (List.append_nil b).symm
  | cons l pktSizes ih =>
    have hzero : b.length = 0 ↔ b = [] := List.length_eq_zero_iff
    rw [writeRecords, paddingLens]
    simp only [hzero, ne_eq]
    split
    · split
      · next hnil => rw [hnil]; rfl
      · exact ih b
    · split
      · rw [List.flatten_cons, ih, List.length_drop, ← List.append_assoc, List.take_append_drop]
      · have hrest := ih []
        rw [List.nil_append, List.length_nil] at hrest
        split
        · rw [List.flatten_cons, hrest, List.map_append, encode_append, List.append_assoc]
        · next hne =>
          rw [not_not] at hne
          rw [List.flatten_cons, hrest, ← encode_append, hne]
          rfl

variable {a : Action}

namespace Session

variable {s : Session}

/-- What `writeConn` does when the session is not buffering. -/
theorem wire_send (b : Bytes) (draw : Nat → Nat) :
    (s.send b draw).wire =
      s.wire ++ (b ++ encode ((s.paddings b.length draw).map wasteFrame)) := by
  rw [send, paddings]
  by_cases hpad : s.sendPadding = true
  · by_cases hstop : s.pktCounter + 1 < s.padding.stop
    · rw [if_pos hpad, if_pos hstop, if_pos ⟨hpad, hstop⟩]
      rw [wire, List.flatten_append, flatten_writeRecords]
      rfl
    · rw [if_pos hpad, if_neg hstop, if_neg fun h => hstop h.2]
      simp [wire, encode]
  · rw [if_neg hpad, if_neg fun h => hpad h.1]
    simp [wire, encode]

theorem buffer_send (b : Bytes) (draw : Nat → Nat) : (s.send b draw).buffer = s.buffer := by
  rw [send]
  split
  · split <;> rfl
  · rfl

theorem writeConn_of_buffering (h : s.buffering = true) (b : Bytes) (draw : Nat → Nat) :
    s.writeConn b draw = { s with buffer := s.buffer ++ b } := if_pos h

section

variable (h : s.buffering = false) (b : Bytes) (draw : Nat → Nat)
include h b draw

theorem wire_writeConn : (s.writeConn b draw).wire = s.wire ++ (s.buffer ++ b ++
      encode ((s.paddings (s.buffer.length + b.length) draw).map wasteFrame)) := by
  rw [writeConn, if_neg (by rw [h]; exact Bool.false_ne_true), wire_send, List.length_append]
  rfl

theorem buffer_writeConn : (s.writeConn b draw).buffer = [] := by
  rw [writeConn, if_neg (by rw [h]; exact Bool.false_ne_true), buffer_send]

end

/-- A step with frames is one call of `writeConn`. -/
theorem step_of_frames_ne_nil (h : a.frames ≠ []) :
    s.step a = s.writeConn (encode a.frames) a.draw := by
  cases a with
  | writeDataFrame sid data draw =>
    have hdata : data ≠ [] := fun hnil => h (if_pos hnil)
    rw [step, if_neg hdata]
    rfl
  | writeControlFrame control draw => rfl
  | setBuffering buffering | updatePaddingScheme rawScheme => exact absurd rfl h

/-- A step without frames touches neither the connection nor the kept bytes. -/
theorem step_of_frames_eq_nil (h : a.frames = []) :
    (s.step a).wire = s.wire ∧ (s.step a).buffer = s.buffer := by
  cases a with
  | writeDataFrame sid data draw =>
    rw [step]
    split
    · exact ⟨rfl, rfl⟩
    · next hdata =>
      rw [Action.frames, dataFrames, if_neg hdata] at h
      split at h
      · cases h
      · have hflat := Chunks.flatten_pieces (show 0 < maxFrameDataLen by decide) data
        rw [List.map_eq_nil_iff.mp h] at hflat
        exact absurd hflat.symm hdata
  | writeControlFrame control draw => cases h
  | setBuffering buffering | updatePaddingScheme rawScheme => exact ⟨rfl, rfl⟩

end Session

/-! ## Transparency -/

/-- Not a waste frame. -/
def isPayload (f : RawFrame) : Bool := f.cmd != cmdWaste

theorem mem_dataFrames {sid : UInt32} {data : Bytes} {f : Frame} (h : f ∈ dataFrames sid data) :
    f.cmd = cmdPSH ∧ f.data.length ≤ maxFrameDataLen := by
  rw [dataFrames] at h
  split at h
  · cases h
  · split at h
    · next hlength =>
      rw [List.mem_singleton.mp h]
      exact ⟨rfl, hlength⟩
    · obtain ⟨chunk, hchunk, rfl⟩ := List.mem_map.mp h
      exact ⟨rfl, (Chunks.mem_pieces (by decide) hchunk).2⟩

/-- No frame handed to the session is a waste frame, and one with data has a command that
carries them. -/
theorem Control.frame_spec (control : Control) : control.frame.cmd ≠ cmdWaste ∧
    (carriesData control.frame.cmd = true ∨ control.frame.data = []) := by
  cases control with
  | settings data => exact ⟨show cmdSettings ≠ cmdWaste by decide, .inl rfl⟩
  | syn sid => exact ⟨show cmdSYN ≠ cmdWaste by decide, .inr rfl⟩
  | fin sid => exact ⟨show cmdFIN ≠ cmdWaste by decide, .inr rfl⟩
  | heartResponse sid => exact ⟨show cmdHeartResponse ≠ cmdWaste by decide, .inr rfl⟩
  | synAck sid data => exact ⟨show cmdSYNACK ≠ cmdWaste by decide, .inl rfl⟩

/-- The frames of an action are read back as what they are if its control data fit. -/
theorem Action.frames_spec (hfits : a.controlData.length < 2 ^ 16) {f : RawFrame}
    (h : f ∈ a.frames.map Frame.raw) : grammar.Valid f ∧ isPayload f = true := by
  obtain ⟨f, hf, rfl⟩ := List.mem_map.mp h
  cases a with
  | writeDataFrame sid data draw =>
    obtain ⟨hcmd, hlength⟩ := mem_dataFrames hf
    refine ⟨f.valid_raw (Nat.lt_succ_of_le hlength) (.inl (by rw [hcmd]; rfl)), ?_⟩
    rw [Frame.raw, hcmd]
    rfl
  | writeControlFrame control draw =>
    cases List.mem_singleton.mp hf
    exact ⟨control.frame.valid_raw hfits control.frame_spec.2,
      bne_iff_ne.mpr control.frame_spec.1⟩
  | setBuffering buffering | updatePaddingScheme rawScheme => cases hf

theorem filter_isPayload_wasteFrames (lens : List Nat) :
    (lens.map fun n => (wasteFrame n).raw).filter isPayload = [] := by
  rw [List.filter_eq_nil_iff]
  intro f hf
  obtain ⟨n, -, rfl⟩ := List.mem_map.mp hf
  exact Bool.false_ne_true

/-- The bytes on the connection and the kept bytes are whole frames: without the waste frames
they are the ones handed to the session, in order. -/
structure Transparent (frames : List Frame) (s : Session) (sent held : List RawFrame) : Prop where
  sentValid : ∀ f ∈ sent, grammar.Valid f
  heldValid : ∀ f ∈ held, grammar.Valid f
  heldPayload : ∀ f ∈ held, isPayload f = true
  wire : s.wire = grammar.stream sent
  buffer : s.buffer = grammar.stream held
  order : sent.filter isPayload ++ held = frames.map Frame.raw

section Step

variable {frames : List Frame} {s : Session} {sent held : List RawFrame} {a : Action}

section

variable (h : Transparent frames s sent held)
include h

theorem Transparent.keep (hnil : a.frames = []) :
    Transparent (frames ++ a.frames) (s.step a) sent held where
  __ := h
  wire := (Session.step_of_frames_eq_nil hnil).1.trans h.wire
  buffer := (Session.step_of_frames_eq_nil hnil).2.trans h.buffer
  order := by rw [hnil, List.append_nil, h.order]

theorem Transparent.hold (hne : a.frames ≠ []) (hbuffering : s.buffering = true)
    (hfits : a.controlData.length < 2 ^ 16) :
    Transparent (frames ++ a.frames) (s.step a) sent (held ++ a.frames.map Frame.raw) where
  sentValid := h.sentValid
  heldValid := List.forall_mem_append.mpr ⟨h.heldValid, fun _ hf => (Action.frames_spec hfits hf).1⟩
  heldPayload :=
    List.forall_mem_append.mpr ⟨h.heldPayload, fun _ hf => (Action.frames_spec hfits hf).2⟩
  wire := by
    rw [Session.step_of_frames_ne_nil hne, Session.writeConn_of_buffering hbuffering]
    exact h.wire
  buffer := by
    rw [Session.step_of_frames_ne_nil hne, Session.writeConn_of_buffering hbuffering]
    rw [h.buffer, Framing.stream, Framing.stream, List.flatMap_append]
    rfl
  order := by rw [← List.append_assoc, h.order, List.map_append]

/-- The kept frames go out first, then the new ones, then the paddings. -/
theorem Transparent.flush (hne : a.frames ≠ []) (hbuffering : s.buffering = false)
    (hfits : s.Fits a) : ∃ sent, Transparent (frames ++ a.frames) (s.step a) sent [] := by
  have hnew := fun f hf => Action.frames_spec hfits.1 (f := f) hf
  let lens := s.paddings (s.buffer.length + (encode a.frames).length) a.draw
  let waste := lens.map fun n => (wasteFrame n).raw
  have hwaste : ∀ f ∈ waste, grammar.Valid f := by
    intro f hf
    obtain ⟨n, hn, rfl⟩ := List.mem_map.mp hf
    have hlength : (wasteFrame n).data.length < 2 ^ 16 := by
      rw [wasteFrame, List.length_replicate]
      exact hfits.2 hne hbuffering n hn
    exact (wasteFrame n).valid_raw hlength (.inl rfl)
  refine ⟨sent ++ (held ++ (a.frames.map Frame.raw ++ waste)), ?_, nofun, nofun, ?_, ?_, ?_⟩
  · simp only [List.forall_mem_append]
    exact ⟨h.sentValid, h.heldValid, fun f hf => (hnew f hf).1, hwaste⟩
  · rw [Session.step_of_frames_ne_nil hne, Session.wire_writeConn hbuffering, h.wire]
    simp only [Framing.stream, encode, List.flatMap_append, List.append_assoc, List.map_map,
      waste, lens, h.buffer]
    rfl
  · rw [Session.step_of_frames_ne_nil hne, Session.buffer_writeConn hbuffering]
    rfl
  · rw [List.append_nil, List.map_append, ← h.order]
    simp only [List.filter_append, List.append_assoc]
    rw [List.filter_eq_self.mpr h.heldPayload, List.filter_eq_self.mpr fun f hf => (hnew f hf).2,
      filter_isPayload_wasteFrames, List.append_nil]

theorem Transparent.step (hfits : s.Fits a) :
    ∃ sent held, Transparent (frames ++ a.frames) (s.step a) sent held := by
  by_cases hnil : a.frames = []
  · exact ⟨sent, held, h.keep hnil⟩
  · cases hbuffering : s.buffering with
    | true => exact ⟨sent, _, h.hold hnil hbuffering hfits.1⟩
    | false =>
      obtain ⟨sent, hsent⟩ := h.flush hnil hbuffering hfits
      exact ⟨sent, [], hsent⟩

end

end Step

/-- Decoding the connection yields the frames handed to the session, in order and with waste
frames between them, up to the ones that are kept; a write of a session that is not buffering
keeps none. -/
theorem padding_transparent (padding : PaddingFactory) (actions : List Action)
    (guarded : Guarded Session.next Session.Fits (newClientSession padding) actions) :
    ∃ t, run Session.next (newClientSession padding) actions = some t ∧
      (decodeAll t.wire).2 = [] ∧ (decodeAll t.buffer).2 = [] ∧
      (decodeAll t.wire).1.filter isPayload ++ (decodeAll t.buffer).1 =
        (actions.flatMap Action.frames).map Frame.raw ∧
      ∀ a u, t.next a = some u → a.frames ≠ [] → t.buffering = false → u.buffer = [] := by
  have hstep : ∀ (past : List Action) (s : Session) (a : Action),
      (∃ sent held, Transparent (past.flatMap Action.frames) s sent held) → s.Fits a →
      ∃ t, s.next a = some t ∧
        ∃ sent held, Transparent ((past ++ [a]).flatMap Action.frames) t sent held := by
    rintro past s a ⟨sent, held, h⟩ hfits
    refine ⟨s.step a, rfl, ?_⟩
    rw [List.flatMap_append, List.flatMap_singleton]
    exact h.step hfits
  have hstart : ∃ sent held, Transparent (([] : List Action).flatMap Action.frames)
      (newClientSession padding) sent held := ⟨[], [], nofun, nofun, nofun, rfl, rfl, rfl⟩
  obtain ⟨t, hrun, sent, held, h⟩ := guarded_run hstep hstart guarded
  refine ⟨t, hrun, ?_⟩
  rw [h.wire, h.buffer, decodeAll_stream h.sentValid, decodeAll_stream h.heldValid]
  refine ⟨rfl, rfl, h.order, ?_⟩
  rintro a u ⟨⟩ hne hbuffering
  rw [Session.step_of_frames_ne_nil hne, Session.buffer_writeConn hbuffering]

theorem padding_transparent_start :
    Guarded Session.next Session.Fits (newClientSession ⟨[(Strings.bytes "1", Strings.bytes
      "30-30,c,40-60")], 3⟩) [.setBuffering true, .writeControlFrame (.settings [118]) fun _ => 0,
        .writeControlFrame (.syn 1) fun _ => 0, .setBuffering false,
        .writeDataFrame 1 [120] fun _ => 7] ∧
      ∃ t, run Session.next (newClientSession ⟨[(Strings.bytes "1", Strings.bytes
        "30-30,c,40-60")], 3⟩) [.setBuffering true, .writeControlFrame (.settings [118]) fun _ => 0,
          .writeControlFrame (.syn 1) fun _ => 0, .setBuffering false,
          .writeDataFrame 1 [120] fun _ => 7] = some t ∧ (decodeAll t.wire).2 = [] := by
  refine (and_iff_left_of_imp fun guarded => ?_).mpr (by decide +kernel)
  obtain ⟨t, hrun, hleft, -⟩ := padding_transparent _ _ guarded
  exact ⟨t, hrun, hleft⟩

/-! ## A length that does not fit -/

/-- Seven zeros are a waste frame without data. -/
theorem stream_replicate_waste (m : Nat) :
    grammar.stream (List.replicate m (wasteFrame 0).raw) = List.replicate (7 * m) 0 := by
  induction m with
  | zero => rfl
  | succ m ih =>
    rw [List.replicate_succ, Framing.stream_cons, ih, Nat.mul_succ, Nat.add_comm,
      ← List.replicate_append_replicate]
    rfl

/-- Of zeros that no frame announces, up to six are left over. -/
theorem decodeAll_zeros {fs : List RawFrame} (valid : ∀ f ∈ fs, grammar.Valid f) (m : Nat)
    {r : Nat} (hr : r < 7) : (decodeAll (grammar.stream fs ++
      List.replicate (7 * m + r) 0)).2 = List.replicate r 0 := by
  have hread : grammar.read (List.replicate r 0) = none := by
    decide +revert
  have hall : ∀ f ∈ fs ++ List.replicate m (wasteFrame 0).raw, grammar.Valid f := by
    refine List.forall_mem_append.mpr ⟨valid, fun f hf => ?_⟩
    rw [List.eq_of_mem_replicate hf]
    rfl
  have hstream : grammar.stream fs ++ List.replicate (7 * m + r) 0 =
      grammar.stream (fs ++ List.replicate m (wasteFrame 0).raw) ++ List.replicate r 0 := by
    rw [← List.replicate_append_replicate, ← stream_replicate_waste, ← List.append_assoc]
    congr 1
    exact List.flatMap_append.symm
  rw [hstream, decodeAll_stream_append hall hread]

/-- The length field does not show `2 ^ 16` more bytes of data. -/
theorem encode_zeros (cmd : UInt8) (sid : UInt32) (data : Bytes) :
    encode [⟨cmd, sid, data ++ List.replicate (2 ^ 16) 0⟩] =
      grammar.stream [(Frame.mk cmd sid data).raw] ++ List.replicate (7 * 9362 + 2) 0 := by
  have hlength : UInt16.ofNat (data ++ List.replicate (2 ^ 16) (0 : UInt8)).length =
      UInt16.ofNat data.length := by
    apply UInt16.toNat_inj.mp
    rw [UInt16.toNat_ofNat', UInt16.toNat_ofNat', List.length_append, List.length_replicate]
    omega
  have hzeros : 7 * 9362 + 2 = 2 ^ 16 := by decide
  rw [hzeros]
  simp only [encode, Framing.stream, List.map_cons, List.map_nil, List.flatMap_cons,
    List.flatMap_nil, List.append_nil]
  change RawFrame.wire _ = RawFrame.wire _ ++ _
  simp only [RawFrame.wire, Frame.raw, hlength, List.append_assoc]

/-- A padding of 69985 bytes is announced as one of 4449, and a settings frame with a long text
of the client as one that ends before the text. Of the zeros that follow two are left over. -/
theorem long_lengths_left_over :
    (∃ padding t, newPaddingFactory (Strings.bytes "stop=2\n1=70000-70000") = some padding ∧
      run Session.next (newClientSession padding) [.writeDataFrame 1 [120] fun _ => 0] = some t ∧
      (decodeAll t.wire).2 = [0, 0]) ∧
    ∀ md5 : Bytes, md5.length = 32 → (decodeAll (encode [(Control.settings
      (Strings.bytes "v=2\npadding-md5=" ++ md5 ++ Strings.bytes "\nclient=" ++
        List.replicate (2 ^ 16) 0)).frame])).2 = [0, 0] := by
  constructor
  · let padding : PaddingFactory := ⟨[(Strings.bytes "stop", Strings.bytes "2"),
      (Strings.bytes "1", Strings.bytes "70000-70000")], 2⟩
    let push : Frame := ⟨cmdPSH, 1, [120]⟩
    refine ⟨padding, _, by decide +kernel, rfl, ?_⟩
    have hlens : (newClientSession padding).paddings (0 + (encode [push]).length)
        (fun _ => 0) = [69985] := by decide +kernel
    have hwaste : wasteFrame 69985 =
        ⟨cmdWaste, 0, List.replicate 4449 0 ++ List.replicate (2 ^ 16) 0⟩ := by
      rw [List.replicate_append_replicate]
      rfl
    have hwire : ((newClientSession padding).writeConn (encode [push]) fun _ => 0).wire =
        grammar.stream [push.raw, (wasteFrame 4449).raw] ++ List.replicate (7 * 9362 + 2) 0 := by
      rw [Session.wire_writeConn rfl]
      change [] ++ ([] ++ encode [push] ++ encode (((newClientSession padding).paddings
        (0 + (encode [push]).length) fun _ => 0).map wasteFrame)) = _
      rw [hlens, List.map_singleton, hwaste, encode_zeros, List.nil_append, ← List.append_assoc]
      rfl
    change (decodeAll ((newClientSession padding).writeConn (encode [push]) fun _ => 0).wire).2 = _
    rw [hwire]
    refine decodeAll_zeros ?_ 9362 (by decide)
    intro f hf
    rcases List.mem_pair.mp hf with rfl | rfl
    · rfl
    · refine (wasteFrame 4449).valid_raw ?_ (.inl rfl)
      rw [wasteFrame, List.length_replicate]
      decide
  · intro md5 hmd5
    rw [Control.frame, encode_zeros]
    refine decodeAll_zeros ?_ 9362 (by decide)
    intro f hf
    rw [List.mem_singleton.mp hf]
    refine Frame.valid_raw ?_ (.inl rfl)
    simp only [List.length_append, hmd5]
    decide

end AnyTls
