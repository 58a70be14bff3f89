import Mathlib.Data.List.Nodup
import CheezyCore.Foundation.Aead
import CheezyCore.Foundation.BigEndian
import CheezyCore.Foundation.SlidingWindow
import CheezyCore.Foundation.Table
import CheezyCore.Foundation.Transition
import CheezyCore.OpenVPN.Packet

/-!
# The data channel

A data packet carries a packet id, in clear and authenticated in the AEAD format, encrypted
with the payload in the CBC format. `Decrypt` opens a packet first and then asks the replay
window for its id, so that a packet that does not authenticate leaves the window as it was.

The primitives are parameters with the laws that their use rests on. Both sides have them
under the same keys, with the directions swapped.
-/

namespace OpenVPN

open BigEndian

abbrev Bytes := List UInt8

def dataChannelTagSize : Nat := 16
def dataChannelIVSize : Nat := 12
/-- The block size of AES, and of the initial vector in CBC mode. -/
def dataChannelCBCIVSize : Nat := 16
def dataChannelReplayWindow : Nat := 64
def dataPacketIDRekeyThreshold : UInt32 := 0xFF000000
def peerIDUnset : UInt32 := 0xffffff

/-! ## Primitives -/

/-- AES under one key in CBC mode. -/
structure BlockCipher where
  encrypt : (iv blocks : Bytes) → Bytes
  decrypt : (iv blocks : Bytes) → Bytes
  length_encrypt : ∀ iv blocks, blocks.length % dataChannelCBCIVSize = 0 →
    (encrypt iv blocks).length = blocks.length
  decrypt_encrypt : ∀ iv blocks, iv.length = dataChannelCBCIVSize →
    blocks.length % dataChannelCBCIVSize = 0 → decrypt iv (encrypt iv blocks) = blocks

/-- HMAC under one key, with sums of `size` bytes. -/
structure Mac (size : Nat) where
  sum : Bytes → Bytes
  length_sum : ∀ bytes, (sum bytes).length = size

/-- The laws can be met: a cipher and a sum that ignore their key. -/
def BlockCipher.plain : BlockCipher := ⟨fun _ blocks => blocks, fun _ blocks => blocks,
  fun _ _ _ => rfl, fun _ _ _ _ => rfl⟩

def Mac.zero (size : Nat) : Mac size :=
  ⟨fun _ => List.replicate size 0, fun _ => List.length_replicate⟩

/-- What a channel protects its packets with. -/
inductive Protection where
  | aead (send recv : Aead dataChannelTagSize)
      (sendImplicitIV recvImplicitIV : Fixed dataChannelIVSize)
  | cbc (authSize : Nat) (sendBlock recvBlock : BlockCipher) (sendMAC recvMAC : Mac authSize)

/-- The other side's. -/
def Protection.mirror : Protection → Protection
  | aead send recv sendImplicitIV recvImplicitIV => aead recv send recvImplicitIV sendImplicitIV
  | cbc authSize sendBlock recvBlock sendMAC recvMAC =>
    cbc authSize recvBlock sendBlock recvMAC sendMAC

/-! ## The channel -/

structure DataChannel where
  protection : Protection
  keyID : UInt8
  peerID : UInt32
  sendPacketID : UInt32
  recvHighest : UInt32
  recvWindow : BitVec dataChannelReplayWindow
  recvSeen : Bool

inductive DataError where
  | exhausted
  /-- The error of `rand.Read`. -/
  | random
  | empty
  | missingPeerID
  | notData (opcode : Opcode)
  | tooShort
  /-- The error of `Open`. -/
  | authentication
  | cbcTooShort
  | cbcAuthentication
  | cbcLength
  | paddingLength
  | padding
  | missingPacketID
  | replayed (packetID : UInt32)
  deriving DecidableEq, Repr

/-- The texts of the channel's own errors. -/
def DataError.text : DataError → Option String
  | exhausted => some "openvpn data packet id reached rekey threshold"
  | random => none
  | empty => some "empty openvpn data packet"
  | missingPeerID => some "openvpn P_DATA_V2 packet missing peer id"
  | notData opcode => some ("not an openvpn data packet: " ++ opcode.string)
  | tooShort => some "openvpn data packet too short"
  | authentication => none
  | cbcTooShort => some "openvpn CBC data packet too short"
  | cbcAuthentication => some "openvpn CBC data packet HMAC authentication failed"
  | cbcLength => some "invalid openvpn CBC ciphertext length"
  | paddingLength => some "invalid openvpn CBC padding length"
  | padding => some "invalid openvpn CBC padding"
  | missingPacketID => some "openvpn CBC plaintext missing packet id"
  | replayed packetID => some s!"openvpn replayed data packet id {packetID}"

def dataHeader (peerID : UInt32) (keyID : UInt8) : Bytes :=
  if peerID ≠ peerIDUnset then
    [opcodeKeyID .dataV2 keyID, (peerID >>> 16).toUInt8, (peerID >>> 8).toUInt8, peerID.toUInt8]
  else [opcodeKeyID .dataV1 keyID]

def dataPacketHeaderSize (packet : Bytes) : Except DataError Nat :=
  match packet with
  | [] => .error .empty
  | first :: _ =>
    match (parseOpcodeKeyID first).1 with
    | .dataV1 => .ok 1
    | .dataV2 => if packet.length < 4 then .error .missingPeerID else .ok 4
    | opcode => .error (.notData opcode)

/-- Only the header of the second version is authenticated. -/
def aeadAdditionalData (header packetID : Bytes) : Bytes :=
  match header with
  | [] => packetID
  | first :: _ => if (parseOpcodeKeyID first).1 = .dataV2 then header ++ packetID else packetID

def nonce (packetID : UInt32) (implicit : Fixed dataChannelIVSize) : Bytes :=
  putUint32 (uint32 (implicit.toList.take 4) ^^^ packetID) ++
    implicit.toList.drop 4

/-- Whether every byte of the padding has its length. -/
def pkcs7Unpad (padded : Bytes) (blockSize : Nat) : Except DataError Bytes :=
  if padded.length = 0 ∨ padded.length % blockSize ≠ 0 then .error .paddingLength
  else
    let padding := (padded.getLastD 0).toNat
    if padding = 0 ∨ blockSize < padding ∨ padded.length < padding then .error .padding
    else if (padded.drop (padded.length - padding)).all (·.toNat == padding) then
      .ok (padded.take (padded.length - padding))
    else .error .padding

namespace DataChannel

/-- `NewDataChannel`, with its primitives at hand. -/
def new (protection : Protection) (peerID : UInt32) (keyID : UInt8) : DataChannel :=
  ⟨protection, keyID &&& keyIDMask, peerID, 0, 0, 0, false⟩

/-- The header is computed once in the source. -/
def header (d : DataChannel) : Bytes := dataHeader d.peerID d.keyID

def nextPacketID (d : DataChannel) : Option (DataChannel × UInt32) :=
  if dataPacketIDRekeyThreshold ≤ d.sendPacketID then none
  else some ({ d with sendPacketID := d.sendPacketID + 1 }, d.sendPacketID + 1)

def encryptAEAD (d : DataChannel) (send : Aead dataChannelTagSize)
    (implicit : Fixed dataChannelIVSize) (packet : Bytes) (packetID : UInt32) : Bytes :=
  let packetIDBytes := putUint32 packetID
  let sealed := send.sealed (nonce packetID implicit) packet
    (aeadAdditionalData d.header packetIDBytes)
  d.header ++ packetIDBytes ++ sealed.drop (sealed.length - dataChannelTagSize) ++
    sealed.take (sealed.length - dataChannelTagSize)

def encryptCBC (d : DataChannel) {authSize : Nat} (block : BlockCipher) (mac : Mac authSize)
    (packet : Bytes) (packetID : UInt32) (iv : Fixed dataChannelCBCIVSize) : Bytes :=
  let blockSize := dataChannelCBCIVSize
  let plainLen := 4 + packet.length
  let padding := blockSize - plainLen % blockSize
  let padding := if padding = 0 then blockSize else padding
  let ciphertext := block.encrypt iv.toList (putUint32 packetID ++ packet ++
    List.replicate padding (UInt8.ofNat padding))
  let authenticated := iv.toList ++ ciphertext
  d.header ++ mac.sum authenticated ++ authenticated

/-- `Encrypt` behind `nextPacketID`. The initial vector of the CBC format is read from the
random source, which may fail. -/
def protect (d : DataChannel) (packet : Bytes) (packetID : UInt32)
    (iv : Option (Fixed dataChannelCBCIVSize)) : Except DataError Bytes :=
  match d.protection with
  | .aead send _ implicit _ => .ok (d.encryptAEAD send implicit packet packetID)
  | .cbc _ block _ mac _ =>
    match iv with
    | none => .error .random
    | some iv => .ok (d.encryptCBC block mac packet packetID iv)

def encrypt (d : DataChannel) (packet : Bytes)
    (iv : Option (Fixed dataChannelCBCIVSize)) :
    DataChannel × Except DataError Bytes :=
  match d.nextPacketID with
  | none => (d, .error .exhausted)
  | some (d, packetID) => (d, d.protect packet packetID iv)

def acceptPacketID (d : DataChannel) (packetID : UInt32) : DataChannel × Option DataError :=
  if d.recvSeen = false then
    ({ d with recvHighest := packetID, recvWindow := 1, recvSeen := true }, none)
  else if d.recvHighest < packetID then
    let shift := (packetID - d.recvHighest).toNat
    ({ d with
        recvHighest := packetID
        recvWindow := if dataChannelReplayWindow ≤ shift then 1 else d.recvWindow <<< shift ||| 1 },
      none)
  else
    let diff := (d.recvHighest - packetID).toNat
    if dataChannelReplayWindow ≤ diff then (d, some (.replayed packetID))
    else
      let mask := BitVec.ofNat dataChannelReplayWindow 1 <<< diff
      if d.recvWindow &&& mask ≠ 0 then (d, some (.replayed packetID))
      else ({ d with recvWindow := d.recvWindow ||| mask }, none)

/-- The end of both ways to decrypt: the id of an opened packet is accepted or not. -/
def accept (d : DataChannel) (packetID : UInt32) (plain : Bytes) :
    DataChannel × Except DataError Bytes :=
  match d.acceptPacketID packetID with
  | (d, none) => (d, .ok plain)
  | (d, some err) => (d, .error err)

def decryptAEAD (d : DataChannel) (recv : Aead dataChannelTagSize)
    (implicit : Fixed dataChannelIVSize) (packet : Bytes) (headerSize : Nat) :
    DataChannel × Except DataError Bytes :=
  if packet.length < 1 then (d, .error .empty)
  else if packet.length < headerSize + 4 + dataChannelTagSize + 1 then (d, .error .tooShort)
  else
    let header := packet.take headerSize
    let packetIDBytes := (packet.drop headerSize).take 4
    let packetID := uint32 packetIDBytes
    let tag := (packet.drop (headerSize + 4)).take dataChannelTagSize
    let ciphertext := packet.drop (headerSize + 4 + dataChannelTagSize)
    match recv.opened (nonce packetID implicit) (ciphertext ++ tag)
      (aeadAdditionalData header packetIDBytes) with
    | none => (d, .error .authentication)
    | some plain => d.accept packetID plain

def decryptCBC (d : DataChannel) {authSize : Nat} (block : BlockCipher) (mac : Mac authSize)
    (packet : Bytes) (headerSize : Nat) : DataChannel × Except DataError Bytes :=
  let blockSize := dataChannelCBCIVSize
  if packet.length < headerSize + authSize + blockSize + blockSize then (d, .error .cbcTooShort)
  else
    let body := packet.drop headerSize
    let tag := body.take authSize
    let authenticated := body.drop authSize
    if tag ≠ mac.sum authenticated then (d, .error .cbcAuthentication)
    else
      let iv := authenticated.take blockSize
      let ciphertext := authenticated.drop blockSize
      if ciphertext.length = 0 ∨ ciphertext.length % blockSize ≠ 0 then (d, .error .cbcLength)
      else
        match pkcs7Unpad (block.decrypt iv ciphertext) blockSize with
        | .error err => (d, .error err)
        | .ok plain =>
          if plain.length < 4 then (d, .error .missingPacketID)
          else d.accept (uint32 (plain.take 4)) (plain.drop 4)

def decrypt (d : DataChannel) (packet : Bytes) : DataChannel × Except DataError Bytes :=
  match dataPacketHeaderSize packet with
  | .error err => (d, .error err)
  | .ok headerSize =>
    match d.protection with
    | .aead _ recv _ implicit => d.decryptAEAD recv implicit packet headerSize
    | .cbc _ _ block _ mac => d.decryptCBC block mac packet headerSize

end DataChannel

/-! ## What is encrypted can be decrypted -/

section Formats

variable {d : DataChannel} {packet : Bytes} {packetID : UInt32}

/-- A packet with the header of a channel is a data packet. -/
theorem dataPacketHeaderSize_header (d : DataChannel) (rest : Bytes) :
    dataPacketHeaderSize (d.header ++ rest) = .ok d.header.length := by
  unfold DataChannel.header dataHeader
  split
  · simp [dataPacketHeaderSize, @parseOpcodeKeyID_opcodeKeyID .dataV2 nofun]
  · simp [dataPacketHeaderSize, @parseOpcodeKeyID_opcodeKeyID .dataV1 nofun]

/-- Where `decryptAEAD` finds the parts of a packet. -/
theorem decryptAEAD_parts (receiver : DataChannel) (aead : Aead dataChannelTagSize)
    (implicit : Fixed dataChannelIVSize) {header ids tag ciphertext : Bytes}
    (hids : ids.length = 4) (htag : tag.length = dataChannelTagSize) (some' : ciphertext ≠ []) :
    receiver.decryptAEAD aead implicit (header ++ (ids ++ (tag ++ ciphertext))) header.length =
      match aead.opened (nonce (uint32 ids) implicit) (ciphertext ++ tag)
        (aeadAdditionalData header ids) with
      | none => (receiver, .error .authentication)
      | some plain => receiver.accept (uint32 ids) plain := by
  have hpos : 0 < ciphertext.length := List.length_pos_iff.mpr some'
  have hlength : (header ++ (ids ++ (tag ++ ciphertext))).length =
      header.length + 4 + dataChannelTagSize + ciphertext.length := by
    simp [hids, htag, Nat.add_assoc]
  have hbody : (header ++ (ids ++ (tag ++ ciphertext))).drop (header.length + 4) =
      tag ++ ciphertext := by
    rw [← List.drop_drop, List.drop_left, List.drop_left' hids]
  unfold DataChannel.decryptAEAD
  rw [if_neg (by omega), if_neg (by omega)]
  simp only
  rw [← List.drop_drop, hbody, List.take_left, List.drop_left, List.take_left' hids,
    List.take_left' htag, List.drop_left' htag]

theorem decryptAEAD_encryptAEAD (d receiver : DataChannel) (aead : Aead dataChannelTagSize)
    (implicit : Fixed dataChannelIVSize) (nonempty : packet ≠ []) :
    receiver.decryptAEAD aead implicit (d.encryptAEAD aead implicit packet packetID)
      d.header.length = receiver.accept packetID packet := by
  have hlength := aead.length_sealed (nonce packetID implicit) packet
    (aeadAdditionalData d.header (putUint32 packetID))
  have hopened := aead.opened_sealed (nonce packetID implicit) packet
    (aeadAdditionalData d.header (putUint32 packetID))
  have hpos : 0 < packet.length := List.length_pos_iff.mpr nonempty
  unfold DataChannel.encryptAEAD
  simp only [List.append_assoc]
  rw [decryptAEAD_parts receiver aead implicit (length_putUint32 packetID),
    List.take_append_drop, uint32_putUint32, hopened]
  · rw [List.length_drop]
    omega
  · rw [← List.length_pos_iff, List.length_take]
    omega

theorem pkcs7Unpad_padded (plain : Bytes) {padding blockSize : Nat} (pos : 0 < padding)
    (le : padding ≤ blockSize) (small : blockSize < 256)
    (whole : (plain.length + padding) % blockSize = 0) :
    pkcs7Unpad (plain ++ List.replicate padding (UInt8.ofNat padding)) blockSize = .ok plain := by
  have hbyte : (UInt8.ofNat padding).toNat = padding := by
    exact Nat.mod_eq_of_lt (by omega)
  have hlength : (plain ++ List.replicate padding (UInt8.ofNat padding)).length =
      plain.length + padding := by
    rw [List.length_append, List.length_replicate]
  have hlast : (plain ++ List.replicate padding (UInt8.ofNat padding)).getLastD 0 =
      UInt8.ofNat padding := by
    obtain ⟨n, rfl⟩ := Nat.exists_eq_add_of_lt pos
    rw [List.replicate_succ', ← List.append_assoc, List.getLastD_concat]
  unfold pkcs7Unpad
  rw [hlast, hbyte, hlength, if_neg (by omega)]
  rw [if_neg (by omega), Nat.add_sub_cancel, List.drop_left, List.take_left, if_pos ?_]
  rw [List.all_eq_true]
  intro b hb
  rw [List.eq_of_mem_replicate hb, hbyte]
  exact beq_self_eq_true padding

theorem decryptCBC_encryptCBC (d receiver : DataChannel) {authSize : Nat} (block : BlockCipher)
    (mac : Mac authSize) (iv : Fixed dataChannelCBCIVSize) :
    receiver.decryptCBC block mac (d.encryptCBC block mac packet packetID iv) d.header.length =
      receiver.accept packetID packet := by
  unfold DataChannel.encryptCBC
  simp only
  generalize hpadding : (if dataChannelCBCIVSize - (4 + packet.length) % dataChannelCBCIVSize = 0
    then dataChannelCBCIVSize
    else dataChannelCBCIVSize - (4 + packet.length) % dataChannelCBCIVSize) = padding
  have hblock : dataChannelCBCIVSize = 16 := rfl
  have hbounds : 0 < padding ∧ padding ≤ 16 ∧ (4 + packet.length + padding) % 16 = 0 := by
    rw [hblock] at hpadding
    split at hpadding <;> omega
  obtain ⟨hpos, hle, hwhole⟩ := hbounds
  have hplain : (putUint32 packetID ++ packet).length = 4 + packet.length := by
    rw [List.length_append, length_putUint32]
  have hpadded : (putUint32 packetID ++ packet ++
      List.replicate padding (UInt8.ofNat padding)).length = 4 + packet.length + padding := by
    rw [List.length_append, hplain, List.length_replicate]
  have hunpad := pkcs7Unpad_padded (putUint32 packetID ++ packet) hpos hle (by decide)
    (by rw [hplain]; exact hwhole)
  have hblocks := hwhole
  rw [← hpadded] at hblocks
  have hdecrypt := block.decrypt_encrypt iv.toList _ iv.length_toList hblocks
  have hcipher := (block.length_encrypt iv.toList _ hblocks).trans hpadded
  generalize putUint32 packetID ++ packet ++
    List.replicate padding (UInt8.ofNat padding) = padded at hunpad hdecrypt hcipher ⊢
  generalize block.encrypt iv.toList padded = ciphertext at hdecrypt hcipher ⊢
  have hmac := mac.length_sum (iv.toList ++ ciphertext)
  have hiv := iv.length_toList
  rw [List.append_assoc, DataChannel.decryptCBC]
  simp only
  rw [List.drop_left, List.take_left' hmac, List.drop_left' hmac, List.take_left' hiv,
    List.drop_left' hiv]
  rw [if_neg (by simp only [List.length_append]; omega), if_neg (not_not.mpr rfl),
    if_neg (by rw [hblock]; omega), hdecrypt, hblock, hunpad]
  simp only
  rw [if_neg (by omega), List.take_left' (length_putUint32 packetID),
    List.drop_left' (length_putUint32 packetID), uint32_putUint32]

/-- The output of a channel, for every channel with the mirrored keys. -/
def Opens (protection : Protection) (packetID : UInt32) (packet output : Bytes) : Prop :=
  ∀ receiver : DataChannel, receiver.protection = protection.mirror →
    receiver.decrypt output = receiver.accept packetID packet

theorem opens_protect {iv : Option (Fixed dataChannelCBCIVSize)} {output : Bytes}
    (nonempty : packet ≠ []) (h : d.protect packet packetID iv = .ok output) :
    Opens d.protection packetID packet output := by
  intro receiver hmirror
  unfold DataChannel.protect at h
  split at h
  next send recv implicit _ hprotection =>
    cases h
    have hsize : dataPacketHeaderSize (d.encryptAEAD send implicit packet packetID) =
        .ok d.header.length := by
      rw [DataChannel.encryptAEAD, List.append_assoc, List.append_assoc]
      exact dataPacketHeaderSize_header d _
    rw [DataChannel.decrypt, hsize, hmirror, hprotection]
    exact decryptAEAD_encryptAEAD d receiver send implicit nonempty
  next authSize block _ mac _ hprotection =>
    split at h <;> cases h
    next iv =>
      have hsize : dataPacketHeaderSize (d.encryptCBC block mac packet packetID iv) =
          .ok d.header.length := by
        rw [DataChannel.encryptCBC, List.append_assoc]
        exact dataPacketHeaderSize_header d _
      rw [DataChannel.decrypt, hsize, hmirror, hprotection]
      exact decryptCBC_encryptCBC d receiver block mac iv

end Formats

theorem nextPacketID_spec {d d' : DataChannel} {packetID : UInt32}
    (h : d.nextPacketID = some (d', packetID)) :
    d'.protection = d.protection ∧ d'.sendPacketID = packetID ∧
      packetID.toNat = d.sendPacketID.toNat + 1 := by
  unfold DataChannel.nextPacketID at h
  split at h <;> cases h
  next hfree =>
    refine ⟨rfl, rfl, ?_⟩
    rw [UInt32.le_iff_toNat_le] at hfree
    change ¬4278190080 ≤ _ at hfree
    rw [UInt32.toNat_add]
    change (_ + 1) % 4294967296 = _
    omega

/-- A channel never uses a nonce for two ids. -/
theorem nonce_injective {first second : UInt32} {implicit : Fixed dataChannelIVSize}
    (h : nonce first implicit = nonce second implicit) : first = second := by
  have hwords := (List.append_inj h (by simp)).1
  exact (UInt32.xor_right_inj _).mp (putUint32_injective hwords)

/-! ## The replay window -/

/-- The window has the ids that were accepted. -/
def Receives (d : DataChannel) (ids : List UInt32) : Prop :=
  if d.recvSeen then
    SlidingWindow.Tracks d.recvHighest.toNat d.recvWindow (ids.map UInt32.toNat)
  else ids = []

/-- The claim of the window: an id is new and less than 64 behind. -/
def Fresh (ids : List UInt32) (packetID : UInt32) : Prop :=
  packetID ∉ ids ∧ ∀ id ∈ ids, id.toNat < packetID.toNat + dataChannelReplayWindow

theorem mem_map_toNat {ids : List UInt32} {packetID : UInt32} :
    packetID.toNat ∈ ids.map UInt32.toNat ↔ packetID ∈ ids :=
  List.mem_map_of_injective fun _ _ => UInt32.toNat_inj.mp

/-- `acceptPacketID` accepts the fresh ids and changes nothing for the others. -/
theorem acceptPacketID_spec {d : DataChannel} {ids : List UInt32} (h : Receives d ids)
    (packetID : UInt32) :
    ((d.acceptPacketID packetID).2 = none ∧ Fresh ids packetID ∧
      Receives (d.acceptPacketID packetID).1 (ids ++ [packetID])) ∨
    ((d.acceptPacketID packetID).2 = some (.replayed packetID) ∧ ¬Fresh ids packetID ∧
      (d.acceptPacketID packetID).1 = d) := by
  unfold Receives at h
  unfold DataChannel.acceptPacketID
  by_cases hseen : d.recvSeen = false
  · rw [if_neg (by rw [hseen]; exact Bool.false_ne_true)] at h
    subst h
    rw [if_pos hseen]
    refine .inl ⟨rfl, ⟨List.not_mem_nil, nofun⟩, ?_⟩
    exact SlidingWindow.Tracks.first (by decide) packetID.toNat
  rw [if_pos (Bool.not_eq_false _ ▸ hseen)] at h
  rw [if_neg hseen]
  have hle : ∀ id ∈ ids, id.toNat ≤ d.recvHighest.toNat :=
    fun id hid => h.le _ (List.mem_map_of_mem hid)
  have hhighest : d.recvHighest ∈ ids := mem_map_toNat.mp h.mem
  have hseen' : d.recvSeen = true := Bool.not_eq_false _ ▸ hseen
  by_cases habove : d.recvHighest < packetID
  · rw [if_pos habove]
    have hlt := UInt32.lt_iff_toNat_lt.mp habove
    have hshift := UInt32.toNat_sub_of_le _ _ (UInt32.le_of_lt habove)
    refine .inl ⟨rfl, ⟨?_, ?_⟩, ?_⟩
    · intro hmem
      have hmost := hle packetID hmem
      omega
    · intro id hid
      have hmost := hle id hid
      omega
    · unfold Receives
      rw [if_pos hseen', List.map_append]
      have hadvance := h.advance (by decide) hlt
      rw [← hshift] at hadvance
      exact hadvance
  rw [if_neg habove]
  have hbelow := UInt32.not_lt.mp habove
  have hdiff := UInt32.toNat_sub_of_le _ _ hbelow
  have hnat := UInt32.le_iff_toNat_le.mp hbelow
  by_cases hfar : dataChannelReplayWindow ≤ (d.recvHighest - packetID).toNat
  · rw [if_pos hfar]
    refine .inr ⟨rfl, ?_, rfl⟩
    rintro ⟨-, hnear⟩
    have hmost := hnear _ hhighest
    omega
  rw [if_neg hfar]
  have hnear : d.recvHighest.toNat - packetID.toNat < dataChannelReplayWindow := by omega
  have htest := h.test hnat hnear
  rw [mem_map_toNat, ← hdiff] at htest
  by_cases hset : d.recvWindow &&& BitVec.ofNat dataChannelReplayWindow 1 <<<
      (d.recvHighest - packetID).toNat ≠ 0
  · rw [if_pos hset]
    exact .inr ⟨rfl, fun hfresh => hfresh.1 (htest.mp hset), rfl⟩
  · rw [if_neg hset]
    refine .inl ⟨rfl, ⟨fun hmem => hset (htest.mpr hmem), ?_⟩, ?_⟩
    · intro id hid
      have hmost := hle id hid
      omega
    · unfold Receives
      rw [if_pos hseen', List.map_append, hdiff]
      exact h.fill hnat

end OpenVPN
