import CheezyCore.Foundation.ByteReader

/-!
# Segments of mKCP

A packet carries one segment: data, a list of acknowledged numbers, or a command alone. The
length of the data is written in 16 bits, the number of acknowledgements in 8.
-/

namespace Mkcp

open ByteReader BigEndian

abbrev Bytes := List UInt8

def commandACK : UInt8 := 0
def commandData : UInt8 := 1
def commandTerminate : UInt8 := 2
def commandPing : UInt8 := 3

def segmentOptionClose : UInt8 := 1

def dataSegmentOverhead : Nat := 18

structure DataSegment where
  conv : UInt16 := 0
  option : UInt8 := 0
  timestamp : UInt32 := 0
  number : UInt32
  sendingNext : UInt32 := 0
  payload : Bytes
  timeout : UInt32 := 0
  transmit : UInt32 := 0
  deriving DecidableEq, Repr

structure AckSegment where
  conv : UInt16
  option : UInt8 := 0
  receivingWindow : UInt32
  receivingNext : UInt32
  timestamp : UInt32 := 0
  numberList : List UInt32 := []
  deriving DecidableEq, Repr

structure CmdOnlySegment where
  conv : UInt16
  cmd : UInt8
  option : UInt8 := 0
  sendingNext : UInt32
  receivingNext : UInt32
  peerRTO : UInt32
  deriving DecidableEq, Repr

inductive Segment where
  | data (s : DataSegment)
  | ack (s : AckSegment)
  | cmdOnly (s : CmdOnlySegment)
  deriving DecidableEq, Repr

namespace Segment

def conversation : Segment → UInt16
  | data s => s.conv
  | ack s => s.conv
  | cmdOnly s => s.conv

def serialize : Segment → Bytes
  | data s =>
    putUint16 s.conv ++ ([commandData] ++ ([s.option] ++
      (putUint32 s.timestamp ++ (putUint32 s.number ++
        (putUint32 s.sendingNext ++
          (putUint16 (UInt16.ofNat s.payload.length) ++ s.payload))))))
  | ack s =>
    putUint16 s.conv ++ ([commandACK] ++ ([s.option] ++
      (putUint32 s.receivingWindow ++ (putUint32 s.receivingNext ++
        (putUint32 s.timestamp ++ ([UInt8.ofNat s.numberList.length] ++
          s.numberList.flatMap putUint32))))))
  | cmdOnly s =>
    putUint16 s.conv ++ ([s.cmd] ++ ([s.option] ++
      (putUint32 s.sendingNext ++ (putUint32 s.receivingNext ++
        putUint32 s.peerRTO))))

end Segment

inductive ReadError where
  | eof
  | unexpectedEOF
  deriving DecidableEq, Repr

instance : EndOfInput ReadError := ⟨.eof, .unexpectedEOF⟩

def readUint32s : Nat → Reader ReadError (List UInt32)
  | 0 => pure []
  | count + 1 => do
      let number ← readUint32
      let rest ← readUint32s count
      return number :: rest

def readData (conv : UInt16) (option : UInt8) : Reader ReadError Segment := do
  let timestamp ← readUint32
  let number ← readUint32
  let sendingNext ← readUint32
  let dataLen ← readUint16
  let payload ← readFull dataLen.toNat
  return .data { conv, option, timestamp, number, sendingNext, payload }

def readAck (conv : UInt16) (option : UInt8) : Reader ReadError Segment := do
  let receivingWindow ← readUint32
  let receivingNext ← readUint32
  let timestamp ← readUint32
  let count ← readByte
  let numberList ← readUint32s count.toNat
  return .ack { conv, option, receivingWindow, receivingNext, timestamp, numberList }

def readCmdOnly (conv : UInt16) (cmd option : UInt8) : Reader ReadError Segment := do
  let sendingNext ← readUint32
  let receivingNext ← readUint32
  let peerRTO ← readUint32
  return .cmdOnly { conv, cmd, option, sendingNext, receivingNext, peerRTO }

/-- The fields after the first four bytes, by command. -/
def readBody (conv : UInt16) (cmd option : UInt8) : Reader ReadError Segment :=
  if cmd = commandData then readData conv option
  else if cmd = commandACK then readAck conv option
  else readCmdOnly conv cmd option

/-- `readSegment`; a segment that is cut off is `nil`. -/
def readSegment : Reader ReadError Segment := do
  let conv ← readUint16
  let cmd ← readByte
  let option ← readByte
  readBody conv cmd option

/-- The loop of `packetReader.read` over what is left of a packet. -/
def readSegments : Nat → Bytes → List Segment
  | 0, _ => []
  | fuel + 1, b =>
    if b = [] then []
    else
      match readSegment.run b with
      | .error _ => []
      | .ok (seg, extra) => seg :: readSegments fuel extra

/-- A segment takes a byte or more of its packet. -/
def readPacket (b : Bytes) : List Segment := readSegments b.length b

/-! ## Round trip -/

namespace Segment

/-- The lengths fit, and the command of a segment without data is not that of another kind. -/
def WellFormed : Segment → Prop
  | data s => s.payload.length < 2 ^ 16
  | ack s => s.numberList.length < 2 ^ 8
  | cmdOnly s => s.cmd ≠ commandData ∧ s.cmd ≠ commandACK

/-- What the peer sees of a segment: the timer and the count of a data segment stay behind. -/
def received : Segment → Segment
  | data s => data { s with timeout := 0, transmit := 0 }
  | seg => seg

end Segment

theorem reads_readUint32s (numbers : List UInt32) :
    Reads (readUint32s numbers.length) (numbers.flatMap putUint32) numbers := by
  induction numbers with
  | nil => exact reads_pure []
  | cons number rest ih => exact (reads_readUint32 number).bind (ih.map _)

theorem reads_readData {s : DataSegment} (h : s.payload.length < 2 ^ 16) :
    Reads (readData s.conv s.option)
      (putUint32 s.timestamp ++ (putUint32 s.number ++
        (putUint32 s.sendingNext ++
          (putUint16 (UInt16.ofNat s.payload.length) ++ s.payload))))
      (Segment.data s).received := by
  have hlength : s.payload.length = (UInt16.ofNat s.payload.length).toNat :=
    (UInt16.toNat_ofNat_of_lt' h).symm
  exact (reads_readUint32 _).bind ((reads_readUint32 _).bind ((reads_readUint32 _).bind
    ((reads_readUint16 _).bind ((reads_readFull hlength).map _))))

theorem reads_readAck {s : AckSegment} (h : s.numberList.length < 2 ^ 8) :
    Reads (readAck s.conv s.option)
      (putUint32 s.receivingWindow ++ (putUint32 s.receivingNext ++
        (putUint32 s.timestamp ++ ([UInt8.ofNat s.numberList.length] ++
          s.numberList.flatMap putUint32))))
      (.ack s) := by
  have hcount : (UInt8.ofNat s.numberList.length).toNat = s.numberList.length :=
    UInt8.toNat_ofNat_of_lt' h
  have hnumbers := reads_readUint32s s.numberList
  rw [← hcount] at hnumbers
  exact (reads_readUint32 _).bind ((reads_readUint32 _).bind ((reads_readUint32 _).bind
    ((reads_readByte _).bind (hnumbers.map _))))

theorem reads_readSegment {seg : Segment} (h : seg.WellFormed) :
    Reads readSegment seg.serialize seg.received := by
  cases seg with
  | data s =>
    exact (reads_readUint16 _).bind ((reads_readByte _).bind ((reads_readByte _).bind
      (reads_readData h)))
  | ack s =>
    exact (reads_readUint16 _).bind ((reads_readByte _).bind ((reads_readByte _).bind
      (reads_readAck h)))
  | cmdOnly s =>
    refine (reads_readUint16 _).bind ((reads_readByte _).bind ((reads_readByte _).bind ?_))
    rw [readBody, if_neg h.1, if_neg h.2]
    exact (reads_readUint32 _).bind ((reads_readUint32 _).bind ((reads_readUint32 _).map _))

theorem Segment.serialize_ne_nil (seg : Segment) : seg.serialize ≠ [] := by
  cases seg with
  | _ => exact List.cons_ne_nil _ _

/-- A packet is read back as the segment it was written for. -/
theorem readPacket_serialize {seg : Segment} (h : seg.WellFormed) :
    readPacket seg.serialize = [seg.received] := by
  have hread := reads_readSegment h []
  rw [List.append_nil] at hread
  obtain ⟨fuel, hfuel⟩ : ∃ fuel, seg.serialize.length = fuel + 1 :=
    Nat.exists_eq_succ_of_ne_zero fun hzero => seg.serialize_ne_nil
      (List.eq_nil_of_length_eq_zero hzero)
  have hend : readSegments fuel [] = [] := by
    cases fuel with
    | zero | succ fuel => rfl
  rw [readPacket, hfuel, readSegments, if_neg seg.serialize_ne_nil, hread]
  exact congrArg _ hend

end Mkcp
