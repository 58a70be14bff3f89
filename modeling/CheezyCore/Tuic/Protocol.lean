import CheezyCore.Foundation.ByteReader
import CheezyCore.Foundation.Netip

/-!
# The commands of TUIC version 5

The wire format of `Authenticate`, `Connect` and `Packet`. A server reads commands from
streams and datagrams of clients that have not authenticated yet.

A reader that fails returns an error. An index out of range, which makes the Go code panic,
is the error `panic` of the model.
-/

namespace Tuic

open ByteReader

abbrev Bytes := List UInt8

inductive ReadError where
  | eof
  | unexpectedEOF
  | other (text : String)
  | panic
  deriving DecidableEq, Repr

instance : EndOfInput ReadError := ⟨.eof, .unexpectedEOF⟩

/-! ## Heads -/

def authenticateType : UInt8 := 0x00
def connectType : UInt8 := 0x01
def packetType : UInt8 := 0x02
def dissociateType : UInt8 := 0x03
def heartbeatType : UInt8 := 0x04

/-- `CommandType.String`. -/
def commandTypeString (type : UInt8) : String :=
  if type = authenticateType then "Authenticate"
  else if type = connectType then "Connect"
  else if type = packetType then "Packet"
  else if type = dissociateType then "Dissociate"
  else if type = heartbeatType then "Heartbeat"
  else "UnknowCommand: 0x" ++ String.ofList (Nat.toDigits 16 type.toNat)

structure CommandHead where
  ver : UInt8
  type : UInt8
  deriving DecidableEq, Repr

def newCommandHead (type : UInt8) : CommandHead := ⟨0x05, type⟩

def readCommandHead : Reader ReadError CommandHead := do
  let ver ← readByte
  let type ← readByte
  return ⟨ver, type⟩

def CommandHead.write (head : CommandHead) : Bytes := [head.ver] ++ [head.type]

/-- The check with which every reader of a command starts. -/
def expectType (head : CommandHead) (type : UInt8) : Reader ReadError Unit :=
  if head.type ≠ type then throw (.other ("error command type: " ++ commandTypeString head.type))
  else pure ()

/-! ## Addresses -/

def atypDomainName : UInt8 := 0
def atypIPv4 : UInt8 := 1
def atypIPv6 : UInt8 := 2
def atypNone : UInt8 := 255

structure Address where
  type : UInt8
  addr : Bytes
  port : UInt16
  deriving DecidableEq, Repr

/-- The destination in `C.Metadata`. -/
structure Metadata where
  host : Bytes
  dstIP : Netip.Addr
  dstPort : UInt16
  deriving DecidableEq, Repr

/-- `NewAddress`, with the cases of `AddrType`: a host comes before an address. -/
def newAddress (m : Metadata) : Address :=
  if m.host ≠ [] ∨ ¬m.dstIP.isValid then
    ⟨atypDomainName, UInt8.ofNat m.host.length :: m.host, m.dstPort⟩
  else if m.dstIP.is4 then ⟨atypIPv4, m.dstIP.asSlice, m.dstPort⟩
  else ⟨atypIPv6, m.dstIP.asSlice, m.dstPort⟩

def newAddressAddrPort (addr : Netip.Addr) (port : UInt16) : Address :=
  if addr.unmap.is4 then ⟨atypIPv4, addr.unmap.asSlice, port⟩
  else ⟨atypIPv6, addr.unmap.asSlice, port⟩

/-- The slice for a domain name has `size` bytes; the first is set to `addrLen`, and the rest is
read. -/
def fillDomainName (addrLen : UInt8) (size : Nat) : Reader ReadError Bytes :=
  if size = 0 then throw .panic
  else do
    let name ← readFull (size - 1)
    return addrLen :: name

/-- The size of the slice is computed in `byte`. -/
def readDomainName : Reader ReadError Bytes := do
  let addrLen ← readByte
  fillDomainName addrLen (addrLen + 1).toNat

def readAddr (type : UInt8) : Reader ReadError Bytes :=
  if type = atypIPv4 then readFull 4
  else if type = atypIPv6 then readFull 16
  else if type = atypDomainName then readDomainName
  else pure []

def readPort (type : UInt8) : Reader ReadError UInt16 :=
  if type = atypNone then pure 0 else readUint16

def readAddress : Reader ReadError Address := do
  let type ← readByte
  let addr ← readAddr type
  let port ← readPort type
  return ⟨type, addr, port⟩

def Address.write (a : Address) : Bytes :=
  [a.type] ++ if a.type = atypNone then [] else a.addr ++ BigEndian.putUint16 a.port

/-! ## Commands -/

structure Authenticate where
  head : CommandHead
  uuid : BigEndian.Fixed 16
  token : BigEndian.Fixed 32
  deriving DecidableEq

def readAuthenticateWithHead (head : CommandHead) : Reader ReadError Authenticate := do
  expectType head authenticateType
  let uuid ← readFull 16
  let token ← readFull 32
  return ⟨head, .ofPrefix 16 uuid, .ofPrefix 32 token⟩

def readAuthenticate : Reader ReadError Authenticate := do
  let head ← readCommandHead
  readAuthenticateWithHead head

structure Connect where
  head : CommandHead
  addr : Address
  deriving DecidableEq, Repr

def readConnectWithHead (head : CommandHead) : Reader ReadError Connect := do
  expectType head connectType
  let addr ← readAddress
  return ⟨head, addr⟩

def readConnect : Reader ReadError Connect := do
  let head ← readCommandHead
  readConnectWithHead head

structure Packet where
  head : CommandHead
  assocID : UInt16
  pktID : UInt16
  fragTotal : UInt8
  fragID : UInt8
  size : UInt16
  addr : Address
  data : Bytes
  deriving DecidableEq, Repr

def newPacket (assocID pktID : UInt16) (fragTotal fragID : UInt8) (size : UInt16) (addr : Address)
    (data : Bytes) : Packet :=
  ⟨newCommandHead packetType, assocID, pktID, fragTotal, fragID, size, addr, data⟩

def readPacketWithHead (head : CommandHead) : Reader ReadError Packet := do
  expectType head packetType
  let assocID ← readUint16
  let pktID ← readUint16
  let fragTotal ← readByte
  let fragID ← readByte
  let size ← readUint16
  let addr ← readAddress
  let data ← readFull size.toNat
  return { head, assocID, pktID, fragTotal, fragID, size, addr, data }

def readPacket : Reader ReadError Packet := do
  let head ← readCommandHead
  readPacketWithHead head

def Packet.write (p : Packet) : Bytes :=
  p.head.write ++ (BigEndian.putUint16 p.assocID ++ (BigEndian.putUint16 p.pktID ++
    ([p.fragTotal] ++ ([p.fragID] ++ (BigEndian.putUint16 p.size ++ (p.addr.write ++ p.data))))))

end Tuic
