import CheezyCore.Tuic.Protocol

/-!
# Which commands are read, and which are read back

The size of the slice for a domain name is computed in eight bits, so that a length byte of
255 gives an empty slice whose first byte is then set: the reader panics. That is the only
input on which it does. A packet is read back where its type is that of a packet and its
address is one that the reader can return.
-/

namespace Tuic

open ByteReader

variable {input rest : Bytes} {type : UInt8}

/-! ## Panics -/

theorem avoids_byte : Avoids (readByte (E := ReadError)) .panic := avoids_readByte nofun

theorem avoids_full (n : Nat) : Avoids (readFull (E := ReadError) n) .panic := by
  apply avoids_readFull
  · exact nofun
  · exact nofun

theorem avoids_uint16 : Avoids (readUint16 (E := ReadError)) .panic := by
  apply avoids_readUint16
  · exact nofun
  · exact nofun

theorem avoids_head : Avoids readCommandHead .panic :=
  avoids_byte.bind fun _ => avoids_byte.bind fun _ => avoids_pure _ _

theorem expectType_run (head : CommandHead) (type : UInt8) (input : Bytes) :
    (expectType head type).run input = if head.type = type then .ok ((), input)
      else .error (.other ("error command type: " ++ commandTypeString head.type)) := by
  split
  next h =>
    rw [expectType, if_neg (not_not.mpr h)]
    rfl
  next h =>
    rw [expectType, if_pos h]
    rfl

theorem expectType_eq_ok {head : CommandHead} {a : Unit} :
    (expectType head type).run input = .ok (a, rest) ↔ head.type = type ∧ input = rest := by
  rw [expectType_run]
  split
  · next heq => simp [heq]
  · next hne => simp [hne]

theorem avoids_expectType (head : CommandHead) (type : UInt8) :
    Avoids (expectType head type) .panic := by
  intro input
  rw [expectType_run]
  split
  · exact nofun
  · exact nofun

theorem toNat_succ (n : UInt8) : (n + 1).toNat = if n = 255 then 0 else n.toNat + 1 := by
  have hlt := n.toNat_lt
  change (n.toNat + 1) % 256 = _
  split
  · next h =>
    subst h
    rfl
  · next h =>
    have hne : n.toNat ≠ 255 := fun heq => h (UInt8.toNat_inj.mp heq)
    omega

theorem readDomainName_panics :
    readDomainName.run input = .error .panic ↔ ∃ rest, input = 255 :: rest := by
  rw [readDomainName, avoids_byte.run_bind_eq_error]
  constructor
  · rintro ⟨addrLen, rest, hbyte, hfill⟩
    obtain rfl := readByte_eq_ok.mp hbyte
    rw [toNat_succ] at hfill
    split at hfill
    · next hlen => exact ⟨rest, by rw [hlen]⟩
    · rw [fillDomainName] at hfill
      exact absurd hfill ((avoids_full _).bind (fun _ => avoids_pure _ _) rest)
  · rintro ⟨rest, rfl⟩
    exact ⟨255, rest, rfl, rfl⟩

theorem readAddr_panics : (readAddr type).run input = .error .panic ↔
    type = atypDomainName ∧ ∃ rest, input = 255 :: rest := by
  unfold readAddr
  split
  · next h =>
    subst h
    exact ⟨fun hrun => absurd hrun (avoids_full 4 input), nofun⟩
  · split
    · next h =>
      subst h
      exact ⟨fun hrun => absurd hrun (avoids_full 16 input), nofun⟩
    · split
      · next h => rw [readDomainName_panics, and_iff_right h]
      · next h => exact ⟨nofun, fun hand => absurd hand.1 h⟩

theorem avoids_port (type : UInt8) : Avoids (readPort type) .panic := by
  unfold readPort
  split
  · exact avoids_pure _ _
  · exact avoids_uint16

theorem readAddress_panics :
    readAddress.run input = .error .panic ↔ ∃ rest, input = atypDomainName :: 255 :: rest := by
  have hport : ∀ type addr, Avoids (readPort type >>= fun port =>
      (pure ⟨type, addr, port⟩ : Reader ReadError Address)) .panic :=
    fun type _ => (avoids_port type).bind fun _ => avoids_pure _ _
  simp only [readAddress, avoids_byte.run_bind_eq_error, run_bind_eq_error_of_avoids (hport _),
    readByte_eq_ok, readAddr_panics]
  constructor
  · rintro ⟨type, _, rfl, rfl, rest, rfl⟩
    exact ⟨rest, rfl⟩
  · rintro ⟨rest, rfl⟩
    exact ⟨atypDomainName, 255 :: rest, rfl, rfl, rest, rfl⟩

theorem avoids_authenticate : Avoids readAuthenticate .panic :=
  avoids_head.bind fun head => (avoids_expectType head _).bind fun _ =>
    (avoids_full 16).bind fun _ => (avoids_full 32).bind fun _ => avoids_pure _ _

theorem readCommandHead_eq_ok {head : CommandHead} :
    readCommandHead.run input = .ok (head, rest) ↔ input = head.write ++ rest := by
  constructor
  · simp only [readCommandHead, run_bind_eq_ok, readByte_eq_ok]
    rintro ⟨ver, _, rfl, type, _, rfl, ⟨⟩⟩
    rfl
  · rintro rfl
    rfl

theorem readConnect_panics : readConnect.run input = .error .panic ↔
    ∃ ver rest, input = ver :: connectType :: atypDomainName :: 255 :: rest := by
  simp only [readConnect, readConnectWithHead, avoids_head.run_bind_eq_error,
    (avoids_expectType _ _).run_bind_eq_error, run_bind_eq_error_of_avoids fun _ => avoids_pure _ _,
    readCommandHead_eq_ok, expectType_eq_ok, readAddress_panics]
  constructor
  · rintro ⟨head, _, rfl, _, _, ⟨htype, rfl⟩, rest, rfl⟩
    exact ⟨head.ver, rest, by rw [← htype]; rfl⟩
  · rintro ⟨ver, rest, rfl⟩
    exact ⟨⟨ver, connectType⟩, _, rfl, (), _, ⟨rfl, rfl⟩, rest, rfl⟩

/-- Eight bytes are the fields of a packet between its head and its address. -/
theorem exists_fields {fields : Bytes} (h : fields.length = 8) :
    ∃ (assocID pktID : UInt16) (fragTotal fragID : UInt8) (size : UInt16),
      fields = BigEndian.putUint16 assocID ++ (BigEndian.putUint16 pktID ++ ([fragTotal] ++
        ([fragID] ++ BigEndian.putUint16 size))) := by
  match fields, h with
  | [a, b, c, d, e, f, g, i], _ =>
    refine ⟨BigEndian.uint16 a b, BigEndian.uint16 c d, e, f, BigEndian.uint16 g i, ?_⟩
    simp only [BigEndian.putUint16_uint16]
    rfl

theorem readPacket_panics : readPacket.run input = .error .panic ↔
    ∃ ver fields rest, fields.length = 8 ∧
      input = ver :: packetType :: (fields ++ atypDomainName :: 255 :: rest) := by
  have hdata : ∀ (head : CommandHead) (assocID pktID : UInt16) (fragTotal fragID : UInt8)
      (size : UInt16) (addr : Address), Avoids (readFull size.toNat >>= fun data =>
        (pure { head, assocID, pktID, fragTotal, fragID, size, addr, data } :
          Reader ReadError Packet)) .panic :=
    fun _ _ _ _ _ _ _ => (avoids_full _).bind fun _ => avoids_pure _ _
  simp only [readPacket, readPacketWithHead, avoids_head.run_bind_eq_error,
    (avoids_expectType _ _).run_bind_eq_error, avoids_uint16.run_bind_eq_error,
    avoids_byte.run_bind_eq_error, run_bind_eq_error_of_avoids (hdata _ _ _ _ _ _),
    readCommandHead_eq_ok, expectType_eq_ok, readUint16_eq_ok, readByte_eq_ok, readAddress_panics]
  constructor
  · rintro ⟨head, _, rfl, _, _, ⟨htype, rfl⟩, assocID, _, rfl, pktID, _, rfl, fragTotal, _, rfl,
      fragID, _, rfl, size, _, rfl, rest, rfl⟩
    refine ⟨head.ver, BigEndian.putUint16 assocID ++ (BigEndian.putUint16 pktID ++ ([fragTotal] ++
      ([fragID] ++ BigEndian.putUint16 size))), rest, rfl, ?_⟩
    rw [← htype]
    simp only [CommandHead.write, List.append_assoc, List.cons_append, List.nil_append]
  · rintro ⟨ver, fields, rest, hlength, rfl⟩
    obtain ⟨assocID, pktID, fragTotal, fragID, size, rfl⟩ := exists_fields hlength
    exact ⟨⟨ver, packetType⟩, _, rfl, (), _, ⟨rfl, rfl⟩, assocID, _, rfl, pktID, _, rfl,
      fragTotal, _, rfl, fragID, _, rfl, size, _, rfl, rest, rfl⟩

/-! ## Reading back -/

theorem readDomainName_eq_ok {addr : Bytes} : readDomainName.run input = .ok (addr, rest) ↔
    input = addr ++ rest ∧
      ∃ addrLen name, addr = addrLen :: name ∧ addrLen ≠ 255 ∧ name.length = addrLen.toNat := by
  rw [readDomainName, run_bind_eq_ok]
  constructor
  · rintro ⟨addrLen, middle, hbyte, hfill⟩
    obtain rfl := readByte_eq_ok.mp hbyte
    rw [toNat_succ] at hfill
    split at hfill
    · cases hfill
    · next hlen =>
      rw [fillDomainName, if_neg (Nat.succ_ne_zero _), run_bind_eq_ok] at hfill
      obtain ⟨name, last, hname, hpure⟩ := hfill
      obtain ⟨rfl, hlength⟩ := readFull_eq_ok.mp hname
      cases hpure
      exact ⟨rfl, addrLen, name, rfl, hlen, hlength⟩
  · rintro ⟨rfl, addrLen, name, rfl, hlen, hlength⟩
    refine ⟨addrLen, name ++ rest, rfl, ?_⟩
    rw [toNat_succ, if_neg hlen, fillDomainName, if_neg (Nat.succ_ne_zero _), run_bind_eq_ok]
    exact ⟨name, rest, readFull_eq_ok.mpr ⟨rfl, hlength⟩, rfl⟩

/-- What the reader takes for the bytes of an address, by its type. -/
def AddrOf (type : UInt8) (addr : Bytes) : Prop :=
  if type = atypIPv4 then addr.length = 4
  else if type = atypIPv6 then addr.length = 16
  else if type = atypDomainName then
    ∃ addrLen name, addr = addrLen :: name ∧ addrLen ≠ 255 ∧ name.length = addrLen.toNat
  else addr = []

theorem readAddr_eq_ok {addr : Bytes} :
    (readAddr type).run input = .ok (addr, rest) ↔ input = addr ++ rest ∧ AddrOf type addr := by
  unfold readAddr AddrOf
  split
  · exact readFull_eq_ok
  · split
    · exact readFull_eq_ok
    · split
      · exact readDomainName_eq_ok
      · constructor
        · rintro ⟨⟩
          exact ⟨rfl, rfl⟩
        · rintro ⟨rfl, rfl⟩
          rfl

/-- The addresses the reader returns. -/
structure Address.WellFormed (a : Address) : Prop where
  addr : AddrOf a.type a.addr
  port : a.type = atypNone → a.port = 0

theorem readPort_eq_ok {port : UInt16} :
    (readPort type).run input = .ok (port, rest) ↔ (type = atypNone → port = 0) ∧
      input = (if type = atypNone then [] else BigEndian.putUint16 port) ++ rest := by
  unfold readPort
  split
  · next h =>
    constructor
    · rintro ⟨⟩
      exact ⟨fun _ => rfl, rfl⟩
    · rintro ⟨hport, rfl⟩
      rw [hport h]
      rfl
  · next h =>
    rw [readUint16_eq_ok]
    exact ⟨fun heq => ⟨fun hnone => absurd hnone h, heq⟩, And.right⟩

theorem Address.WellFormed.write_eq {a : Address} (h : a.WellFormed) : a.write =
    [a.type] ++ (a.addr ++ if a.type = atypNone then [] else BigEndian.putUint16 a.port) := by
  unfold Address.write
  split
  · next hnone =>
    have haddr := h.addr
    rw [hnone] at haddr
    have hempty : a.addr = [] := haddr
    rw [hempty]
    rfl
  · rfl

theorem readAddress_eq_ok {a : Address} :
    readAddress.run input = .ok (a, rest) ↔ a.WellFormed ∧ input = a.write ++ rest := by
  simp only [readAddress, run_bind_eq_ok, readByte_eq_ok, readAddr_eq_ok, readPort_eq_ok]
  constructor
  · rintro ⟨type, _, rfl, addr, _, ⟨rfl, haddrOf⟩, port, _, ⟨hzero, rfl⟩, ⟨⟩⟩
    have hwell : Address.WellFormed ⟨type, addr, port⟩ := ⟨haddrOf, hzero⟩
    refine ⟨hwell, ?_⟩
    rw [hwell.write_eq, List.append_assoc, List.append_assoc]
    rfl
  · rintro ⟨hwell, rfl⟩
    rw [hwell.write_eq, List.append_assoc, List.append_assoc]
    exact ⟨a.type, _, rfl, a.addr, _, ⟨rfl, hwell.addr⟩, a.port, rest, ⟨hwell.port, rfl⟩, rfl⟩

/-- The packets the reader returns, and what it returns them for. -/
theorem readPacket_eq_ok {p : Packet} : readPacket.run input = .ok (p, rest) ↔
    p.head.type = packetType ∧ p.addr.WellFormed ∧ p.data.length = p.size.toNat ∧
      input = p.write ++ rest := by
  simp only [readPacket, readPacketWithHead, run_bind_eq_ok, readCommandHead_eq_ok,
    expectType_eq_ok, readUint16_eq_ok, readByte_eq_ok, readAddress_eq_ok, readFull_eq_ok,
    Packet.write, List.append_assoc]
  constructor
  · rintro ⟨head, _, rfl, _, _, ⟨htype, rfl⟩, assocID, _, rfl, pktID, _, rfl, fragTotal, _, rfl,
      fragID, _, rfl, size, _, rfl, addr, _, ⟨hwell, rfl⟩, data, _, ⟨rfl, hlength⟩, ⟨⟩⟩
    exact ⟨htype, hwell, hlength, rfl⟩
  · rintro ⟨htype, hwell, hlength, rfl⟩
    exact ⟨p.head, _, rfl, (), _, ⟨htype, rfl⟩, p.assocID, _, rfl, p.pktID, _, rfl, p.fragTotal, _,
      rfl, p.fragID, _, rfl, p.size, _, rfl, p.addr, _, ⟨hwell, rfl⟩, p.data, _, ⟨rfl, hlength⟩,
      rfl⟩

/-! ## Where addresses come from -/

/-- The address of a packet: made from a host or an IP address, or left out. -/
inductive Origin where
  | metadata (m : Metadata)
  | addrPort (addr : Netip.Addr) (port : UInt16)
  | none (addr : Bytes) (port : UInt16)

namespace Origin

def address : Origin → Address
  | .metadata m => newAddress m
  | .addrPort addr port => newAddressAddrPort addr port
  | .none addr port => ⟨atypNone, addr, port⟩

/-- A host has a length that a byte can hold. -/
def Admissible : Origin → Prop
  | .metadata m => 1 ≤ m.host.length ∧ m.host.length ≤ 255
  | _ => True

/-- The length of a host is not 255, an IP address is valid, and an address that is left out
has no contents. -/
def Transmitted : Origin → Prop
  | .metadata m => m.host.length ≠ 255
  | .addrPort addr _ => addr.isValid
  | .none addr port => addr = [] ∧ port = 0

end Origin

theorem newAddress_wellFormed {m : Metadata} (hlow : 1 ≤ m.host.length)
    (hhigh : m.host.length ≤ 255) : (newAddress m).WellFormed ↔ m.host.length ≠ 255 := by
  have hhost : m.host ≠ [] := List.ne_nil_of_length_pos hlow
  have hlen : (UInt8.ofNat m.host.length).toNat = m.host.length :=
    UInt8.toNat_ofNat_of_lt' (Nat.lt_succ_of_le hhigh)
  rw [newAddress, if_pos (.inl hhost)]
  constructor
  · rintro ⟨⟨addrLen, name, haddr, hne, -⟩, -⟩ h255
    cases haddr
    exact hne (UInt8.toNat_inj.mp (hlen.trans h255))
  · intro hne
    refine ⟨⟨_, _, rfl, ?_, hlen.symm⟩, nofun⟩
    intro h255
    rw [h255] at hlen
    exact hne hlen.symm

theorem newAddressAddrPort_wellFormed {a : Netip.Addr} {port : UInt16} :
    (newAddressAddrPort a port).WellFormed ↔ a.isValid := by
  rw [← Netip.Addr.isValid_unmap, newAddressAddrPort]
  split
  · next h4 =>
    have hvalid : a.unmap.isValid := by
      cases hunmap : a.unmap with
      | v4 => rfl
      | invalid | v6 =>
        rw [hunmap] at h4
        cases h4
    exact ⟨fun _ => hvalid, fun _ => ⟨Netip.Addr.length_asSlice_of_is4 h4, nofun⟩⟩
  · next h4 =>
    rw [← Netip.Addr.length_asSlice_of_not_is4 h4]
    exact ⟨fun h => h.addr, fun h => ⟨h, nofun⟩⟩

theorem Origin.wellFormed_iff {o : Origin} (h : o.Admissible) :
    o.address.WellFormed ↔ o.Transmitted := by
  cases o with
  | metadata m => exact newAddress_wellFormed h.1 h.2
  | addrPort a port => exact newAddressAddrPort_wellFormed
  | none addr port =>
    exact ⟨fun hwell => ⟨hwell.addr, hwell.port rfl⟩, fun ht => ⟨ht.1, fun _ => ht.2⟩⟩

/-- Reading panics at a domain name with the length byte 255 and nowhere else; and a packet is
read back, and only it, where its head and its address allow it. -/
theorem codec_iff (input : Bytes) {p : Packet} {o : Origin} (haddr : p.addr = o.address)
    (hadmissible : o.Admissible) (hsize : p.size.toNat = p.data.length) :
    (readConnect.run input = .error .panic ↔
      ∃ ver rest, input = ver :: connectType :: atypDomainName :: 255 :: rest) ∧
    (readPacket.run input = .error .panic ↔ ∃ ver fields rest, fields.length = 8 ∧
      input = ver :: packetType :: (fields ++ atypDomainName :: 255 :: rest)) ∧
    readAuthenticate.run input ≠ .error .panic ∧
    ((∀ rest, readPacket.run (p.write ++ rest) = .ok (p, rest)) ↔
      p.head.type = packetType ∧ o.Transmitted) := by
  refine ⟨readConnect_panics, readPacket_panics, avoids_authenticate input, ?_⟩
  rw [← Origin.wellFormed_iff hadmissible, ← haddr]
  constructor
  · intro h
    obtain ⟨htype, hwell, -⟩ := readPacket_eq_ok.mp (h [])
    exact ⟨htype, hwell⟩
  · rintro ⟨htype, hwell⟩ rest
    exact readPacket_eq_ok.mpr ⟨htype, hwell, hsize.symm, rfl⟩

/-- A packet for a host of three bytes. -/
def hostPacket : Packet :=
  newPacket 1 2 1 0 1 (newAddress ⟨[97, 46, 98], .zero, 53⟩) [42]

/-- It is read back from in front of other bytes, and a stream that ends after it starts with no
command at which a reader panics. -/
theorem codec_iff_hostPacket :
    readPacket.run hostPacket.write ≠ .error .panic ∧
    readPacket.run (hostPacket.write ++ [7]) = .ok (hostPacket, [7]) := by
  have hcodec := codec_iff hostPacket.write (p := hostPacket)
    (o := .metadata ⟨[97, 46, 98], .zero, 53⟩) rfl ⟨by decide, by decide⟩ rfl
  refine ⟨fun hpanic => ?_, hcodec.2.2.2.mpr ⟨rfl, (by decide : 3 ≠ 255)⟩ [7]⟩
  obtain ⟨ver, fields, rest, hlength, heq⟩ := hcodec.2.1.mp hpanic
  have hbyte := congrArg (fun bytes => bytes[11]?) heq
  rw [show hostPacket.write[11]? = some 3 from rfl, List.getElem?_cons_succ,
    List.getElem?_cons_succ, List.getElem?_append_right (by omega), hlength] at hbyte
  exact absurd hbyte (by decide : some (3 : UInt8) ≠ some 255)

/-- Four bytes of a client that has not authenticated make the reader of a stream panic, and so
does the packet for a host of 255 bytes. -/
theorem domainName_255_panics :
    readConnect.run [0x05, 0x01, 0x00, 0xFF] = .error .panic ∧
    readPacket.run (newPacket 1 2 1 0 1
      (newAddress ⟨List.replicate 255 97, .zero, 53⟩) [42]).write = .error .panic := by
  refine ⟨readConnect_panics.mpr ⟨0x05, [], rfl⟩, readPacket_panics.mpr ?_⟩
  exact ⟨0x05, [0, 1, 0, 2, 1, 0, 0, 1], List.replicate 255 97 ++ [0, 53, 42], rfl,
    by decide +kernel⟩

end Tuic
