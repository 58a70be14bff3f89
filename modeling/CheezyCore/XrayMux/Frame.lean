import CheezyCore.Foundation.BigEndian

/-!
# Mux.Cool frame metadata

The frame header of `adapter/outbound/xraymux`: its constants, the part of the
connection metadata it reads, the encoder `encodeMetadata` and the decoder
`readFrameMetadata`. Every definition follows the Go function of the same name,
including the order of its checks and the text of its errors.

Byte slices and Go strings are byte lists, `[n]byte` arrays are `Fixed n`, and a
nil pointer is `none`. An `io.Reader` is the list of the bytes it still delivers
before its end of file, so a short read is an error and not a wait.
-/

namespace XrayMux

open BigEndian

/-- The errors of the package. A `ProtocolError` keeps its operation and cause, a
`fmt.Errorf` with `%w` its text and cause. `conn` is an error of the physical
connection and `ctx` the error of the context of a numbered call. -/
inductive Err where
  | eof
  | unexpectedEOF
  | netClosed
  | deadlineExceeded
  | text (message : String)
  | protocol (op : String) (cause : Err)
  | wrapped (message : String) (cause : Err)
  | conn (code : Nat)
  | ctx (call : Nat)
  deriving DecidableEq, Repr

def protocolError (op : String) (err : Err) : Err := .protocol op err

def statusNew : UInt8 := 0x01
def statusKeep : UInt8 := 0x02
def statusEnd : UInt8 := 0x03
def statusKeepAlive : UInt8 := 0x04
def optionData : UInt8 := 0x01
def optionError : UInt8 := 0x02
def targetTCP : UInt8 := 0x01
def targetUDP : UInt8 := 0x02
def maxFramePayload : Nat := 8 * 1024
def maxMetadataSize : Nat := 512

inductive NetWork where
  | TCP
  | UDP
  | ALLNet
  | InvalidNet
  deriving DecidableEq, Repr

/-- `netip.Addr`: the zero value, an IPv4 address, or an IPv6 address (IPv4-mapped
ones included) with its zone. -/
inductive Addr where
  | invalid
  | v4 (bytes : Fixed 4)
  | v6 (bytes : Fixed 16) (zone : String)
  deriving DecidableEq

/-- The fields of `C.Metadata` that the multiplexer reads. -/
structure Metadata where
  netWork : NetWork
  host : List UInt8 := []
  dstIP : Addr := .invalid
  dstPort : UInt16
  deriving DecidableEq

structure FrameMetadata where
  id : UInt16
  status : UInt8
  option : UInt8
  target : Option Metadata
  globalID : Fixed 8
  deriving DecidableEq

/-! ## The encoder -/

def knownStatus (status : UInt8) : Prop :=
  status = statusNew ∨ status = statusKeep ∨ status = statusEnd ∨ status = statusKeepAlive

instance (status : UInt8) : Decidable (knownStatus status) :=
  inferInstanceAs (Decidable (_ ∨ _ ∨ _ ∨ _))

/-- Option bits other than Data and Error. -/
def strayOption (option : UInt8) : Prop := option &&& ~~~(optionData ||| optionError) ≠ 0

instance (option : UInt8) : Decidable (strayOption option) :=
  inferInstanceAs (Decidable (_ ≠ _))

/-- `target != nil && target.NetWork == C.UDP`. -/
def isUDP : Option Metadata → Bool
  | none => false
  | some t => t.netWork = .UDP

/-- A non-zero GlobalID anywhere but on an initial UDP data frame. -/
def misplacedGlobalID (status option : UInt8) (target : Option Metadata)
    (globalID : Option (Fixed 8)) : Prop :=
  globalID.getD (Fixed.zero 8) ≠ Fixed.zero 8 ∧
    (status ≠ statusNew ∨ isUDP target = false ∨ option &&& optionData = 0)

instance (status option : UInt8) (target : Option Metadata) (globalID : Option (Fixed 8)) :
    Decidable (misplacedGlobalID status option target globalID) :=
  inferInstanceAs (Decidable (_ ∧ (_ ∨ _ ∨ _)))

/-- `needAddr`: the frame carries its target. -/
def needAddr (status : UInt8) (target : Option Metadata) : Prop :=
  status = statusNew ∨ (status = statusKeep ∧ isUDP target = true)

instance (status : UInt8) (target : Option Metadata) : Decidable (needAddr status target) :=
  inferInstanceAs (Decidable (_ ∨ (_ ∧ _)))

def appendAddress (dst : List UInt8) (metadata : Metadata) : Except Err (List UInt8) :=
  if metadata.host ≠ [] then
    if metadata.host.length > 255 then .error (.text "xray mux: domain name too long")
    else .ok (dst ++ [0x02, UInt8.ofNat metadata.host.length] ++ metadata.host)
  else
    match metadata.dstIP with
    | .v4 bytes => .ok (dst ++ [0x01] ++ bytes.toList)
    | .v6 bytes _ => .ok (dst ++ [0x03] ++ bytes.toList)
    | .invalid => .error (.text "xray mux: target address is empty")

/-- The last lines of `encodeMetadata`: the size check and the length prefix. -/
def sealMetadata (body : List UInt8) : Except Err (List UInt8) :=
  if body.length > maxMetadataSize then .error (.text "xray mux: metadata too large")
  else .ok (putUint16 (UInt16.ofNat body.length) ++ body)

/-- The target part of the body after its network switch: the port, the address,
and the GlobalID of an initial UDP frame. -/
def appendLocated (body : List UInt8) (network status : UInt8) (t : Metadata)
    (globalID : Option (Fixed 8)) : Except Err (List UInt8) :=
  match appendAddress (body ++ [network] ++ putUint16 t.dstPort) t with
  | .error e => .error e
  | .ok body =>
    if status = statusNew ∧ t.netWork = .UDP then
      .ok (body ++ (globalID.getD (Fixed.zero 8)).toList)
    else .ok body

def appendTarget (body : List UInt8) (status : UInt8) (target : Option Metadata)
    (globalID : Option (Fixed 8)) : Except Err (List UInt8) :=
  match target with
  | none => .error (.text "xray mux: missing target for frame")
  | some t =>
    if t.netWork = .TCP then appendLocated body targetTCP status t globalID
    else if t.netWork = .UDP then appendLocated body targetUDP status t globalID
    else .error (.text "xray mux: unsupported network type")

def encodeMetadata (id : UInt16) (status option : UInt8) (target : Option Metadata)
    (globalID : Option (Fixed 8)) : Except Err (List UInt8) :=
  if ¬ knownStatus status then
    .error (protocolError "encode metadata" (.text ("invalid status " ++ toString status)))
  else if strayOption option then
    .error (protocolError "encode metadata" (.text ("invalid option " ++ toString option)))
  else if misplacedGlobalID status option target globalID then
    .error (protocolError "encode metadata"
      (.text "GlobalID is only valid on an initial UDP data frame"))
  else
    let body := putUint16 id ++ [status, option]
    if needAddr status target then
      match appendTarget body status target globalID with
      | .error e => .error e
      | .ok body => sealMetadata body
    else sealMetadata body

/-! ## The decoder -/

/-- `binary.BigEndian.Uint16` of the first two bytes. -/
def word (bytes : List UInt8) : UInt16 := uint16 (bytes.getD 0 0) (bytes.getD 1 0)

/-- The error of `io.ReadFull` when the reader ends with `left` unread. -/
def shortRead (left : List UInt8) : Err := if left = [] then .eof else .unexpectedEOF

/-- The address switch of `decodeTargetMetadata`: host, address and the bytes consumed. -/
def decodeAddress (address : List UInt8) : Except Err (List UInt8 × Addr × Nat) :=
  if address.getD 0 0 = 0x01 then
    .ok ([], if 5 ≤ address.length then .v4 (Fixed.ofPrefix 4 (address.drop 1)) else .invalid, 5)
  else if address.getD 0 0 = 0x02 then
    if address.length < 2 ∨ address.getD 1 0 = 0 then .error .unexpectedEOF
    else
      let consumed := 2 + (address.getD 1 0).toNat
      .ok (if consumed ≤ address.length then (address.take consumed).drop 2 else [], .invalid,
        consumed)
  else if address.getD 0 0 = 0x03 then
    .ok ([], if 17 ≤ address.length then .v6 (Fixed.ofPrefix 16 (address.drop 1)) "" else .invalid,
      17)
  else .error (.text ("invalid address type " ++ toString (address.getD 0 0)))

def decodeTargetMetadata (raw : List UInt8) (keep : Bool) : Except Err (Metadata × Fixed 8) :=
  if raw.length < 4 then .error .unexpectedEOF
  else
    let network := raw.getD 0 0
    if network ≠ targetTCP ∧ network ≠ targetUDP then
      .error (.text ("invalid network " ++ toString network))
    else if keep = true ∧ network ≠ targetUDP then
      .error (.text "follow-up target is only valid for UDP")
    else
      let address := raw.drop 3
      match decodeAddress address with
      | .error e => .error e
      | .ok (host, dstIP, consumed) =>
        let metadata : Metadata :=
          { netWork := if network = targetTCP then .TCP else .UDP
            host := host, dstIP := dstIP, dstPort := word (raw.drop 1) }
        if address.length < consumed then .error .unexpectedEOF
        else
          let trailing := address.length - consumed
          if keep = false ∧ network = targetUDP then
            if trailing ≠ 8 then .error (.text ("invalid GlobalID length " ++ toString trailing))
            else .ok (metadata, Fixed.ofPrefix 8 (address.drop consumed))
          else if trailing ≠ 0 then
            .error (.text ("unexpected trailing metadata: " ++ toString trailing ++ " bytes"))
          else .ok (metadata, Fixed.zero 8)

/-- `readFrameMetadata` once the metadata block is read: the fields and the status switch. -/
def decodeStatus (raw : List UInt8) : Except Err FrameMetadata :=
  let frame : FrameMetadata :=
    { id := word raw, status := raw.getD 2 0, option := raw.getD 3 0, target := none
      globalID := Fixed.zero 8 }
  let located (keep : Bool) : Except Err FrameMetadata :=
    match decodeTargetMetadata (raw.drop 4) keep with
    | .error e => .error (protocolError "decode target" e)
    | .ok (target, globalID) => .ok { frame with target := some target, globalID := globalID }
  if frame.status = statusNew then located false
  else if frame.status = statusKeep then
    if raw.length > 4 then located true else .ok frame
  else if frame.status = statusEnd ∨ frame.status = statusKeepAlive then
    if raw.length ≠ 4 then
      .error (protocolError "decode metadata"
        (.text ("unexpected trailing metadata: " ++ toString (raw.length - 4) ++ " bytes")))
    else .ok frame
  else
    .error (protocolError "decode metadata" (.text ("invalid status " ++ toString frame.status)))

def readFrameMetadata (r : List UInt8) : Except Err (FrameMetadata × List UInt8) :=
  match readFull 2 r with
  | .error left => .error (protocolError "read metadata length" (shortRead left))
  | .ok (size, r) =>
    let n := (word size).toNat
    if n < 4 ∨ n > maxMetadataSize then
      .error (protocolError "read metadata" (.text ("invalid metadata length " ++ toString n)))
    else
      match readFull n r with
      | .error left => .error (protocolError "read metadata" (shortRead left))
      | .ok (raw, r) =>
        match decodeStatus raw with
        | .error e => .error e
        | .ok frame =>
          if strayOption frame.option then
            .error (protocolError "decode metadata"
              (.text ("invalid option " ++ toString frame.option)))
          else .ok (frame, r)

end XrayMux
