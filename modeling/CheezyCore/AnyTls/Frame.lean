import CheezyCore.Foundation.ByteReader
import CheezyCore.Foundation.Stream

/-!
# Frames of an AnyTLS session

A frame is a command, a stream number, the length of its data in 16 bits and the data.
`recvLoop` reads the data of some commands only: after the header of any other one, whatever
its length field says, it takes the next byte for the next header.
-/

namespace AnyTls

open ByteReader

abbrev Bytes := List UInt8

def cmdWaste : UInt8 := 0
def cmdSYN : UInt8 := 1
def cmdPSH : UInt8 := 2
def cmdFIN : UInt8 := 3
def cmdSettings : UInt8 := 4
def cmdAlert : UInt8 := 5
def cmdUpdatePaddingScheme : UInt8 := 6
def cmdSYNACK : UInt8 := 7
def cmdHeartResponse : UInt8 := 9
def cmdServerSettings : UInt8 := 10

def headerOverHeadSize : Nat := 1 + 4 + 2

/-- `frame`: what the session is asked to write. -/
structure Frame where
  cmd : UInt8
  sid : UInt32
  data : Bytes := []
  deriving DecidableEq, Repr

/-- A `rawHeader` and the data read after it. -/
structure RawFrame where
  cmd : UInt8
  sid : UInt32
  length : UInt16
  data : Bytes
  deriving DecidableEq, Repr

namespace RawFrame

def wire (f : RawFrame) : Bytes :=
  [f.cmd] ++ (BigEndian.putUint32 f.sid ++ (BigEndian.putUint16 f.length ++ f.data))

theorem wire_ne_nil (f : RawFrame) : f.wire ≠ [] := List.cons_ne_nil _ _

end RawFrame

/-- The length is converted to `uint16`. -/
def Frame.raw (f : Frame) : RawFrame := ⟨f.cmd, f.sid, UInt16.ofNat f.data.length, f.data⟩

/-- The commands after whose header `recvLoop` reads `hdr.Length()` bytes. -/
def carriesData (cmd : UInt8) : Bool :=
  cmd ∈ [cmdPSH, cmdSYNACK, cmdWaste, cmdSettings, cmdAlert, cmdUpdatePaddingScheme,
    cmdServerSettings]

inductive ReadError where
  | eof
  | unexpectedEOF
  deriving DecidableEq, Repr

instance : EndOfInput ReadError := ⟨.eof, .unexpectedEOF⟩

/-- What one round of `recvLoop` takes off the connection. -/
def readFrame : Reader ReadError RawFrame := do
  let cmd ← readByte
  let sid ← readUint32
  let length ← readUint16
  let data ← readFull (if carriesData cmd then length.toNat else 0)
  return ⟨cmd, sid, length, data⟩

theorem readFrame_eq_ok {input rest : Bytes} {f : RawFrame} :
    readFrame.run input = .ok (f, rest) ↔
      f.data.length = (if carriesData f.cmd then f.length.toNat else 0) ∧
        input = f.wire ++ rest := by
  simp only [readFrame, run_bind_eq_ok, readByte_eq_ok, readUint32_eq_ok, readUint16_eq_ok,
    readFull_eq_ok]
  constructor
  · rintro ⟨cmd, _, rfl, sid, _, rfl, length, _, rfl, data, _, ⟨rfl, hcount⟩, ⟨⟩⟩
    exact ⟨hcount, rfl⟩
  · rintro ⟨hcount, rfl⟩
    exact ⟨f.cmd, _, rfl, f.sid, _, rfl, f.length, _, rfl, f.data, _, ⟨rfl, hcount⟩, rfl⟩

/-- The frame grammar of `recvLoop`. -/
def grammar : Framing UInt8 RawFrame where
  Valid f := f.data.length = if carriesData f.cmd then f.length.toNat else 0
  wire := RawFrame.wire
  read input := (readFrame.run input).toOption
  read_eq_some {input rest f} := by
    rw [← readFrame_eq_ok]
    cases readFrame.run input with
    | error e | ok result => simp [Except.toOption]

/-- Decode all frames of a byte string; the second component is what no frame starts with. -/
def decodeAll (input : Bytes) : List RawFrame × Bytes := grammar.readAll input

theorem grammar_read_nil : grammar.read [] = none := rfl

section

variable {fs : List RawFrame} (valid : ∀ f ∈ fs, grammar.Valid f)
include valid

theorem decodeAll_stream_append {left : Bytes} (hleft : grammar.read left = none) :
    decodeAll (grammar.stream fs ++ left) = (fs, left) :=
  grammar.readAll_stream_append valid (fun f _ => f.wire_ne_nil) hleft

theorem decodeAll_stream : decodeAll (grammar.stream fs) = (fs, []) := by
  rw [← decodeAll_stream_append valid grammar_read_nil, List.append_nil]

end

/-- A frame is read back if its length fits and its command may have data. -/
theorem Frame.valid_raw {f : Frame} (hlength : f.data.length < 2 ^ 16)
    (hdata : carriesData f.cmd = true ∨ f.data = []) : grammar.Valid f.raw := by
  change f.data.length = if carriesData f.cmd then (UInt16.ofNat f.data.length).toNat else 0
  rw [UInt16.toNat_ofNat_of_lt' hlength]
  rcases hdata with hcarries | hnil
  · rw [if_pos hcarries]
  · rw [hnil, List.length_nil, ite_self]

end AnyTls
