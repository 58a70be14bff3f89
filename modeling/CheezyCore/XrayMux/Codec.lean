import CheezyCore.XrayMux.Frame

/-!
# The Mux.Cool header as a wire format

`FrameMetadata.wire` is the format itself: the bytes of a header, with neither
checks nor errors, and `FrameMetadata.WellFormed` says which headers it is meant
for. The decoder is exactly the inverse of this format on well-formed headers
(`readFrameMetadata_ok_iff`), and the encoder writes it for every header it
accepts (`encodeMetadata_ok_iff`). The two round trips between the encoder and
the decoder are consequences; neither proof looks into the other function.
-/

namespace XrayMux

open BigEndian FrameMetadata Metadata

namespace NetWork

/-- The network byte. Only TCP and UDP have one. -/
def wire : NetWork → UInt8
  | .TCP => targetTCP
  | _ => targetUDP

end NetWork

namespace Addr

/-- The address without the zone, which the wire does not carry. -/
def withoutZone : Addr → Addr
  | .v6 bytes _ => .v6 bytes ""
  | ip => ip

end Addr

variable {t : Metadata} {f : FrameMetadata} {keep : Bool} {rest : List UInt8}

namespace Metadata

/-- Port-then-address form of a destination: a type byte and the address. -/
def addressBytes (t : Metadata) : List UInt8 :=
  if t.host ≠ [] then [0x02, UInt8.ofNat t.host.length] ++ t.host
  else
    match t.dstIP with
    | .v4 bytes => [0x01] ++ bytes.toList
    | .v6 bytes _ => [0x03] ++ bytes.toList
    | .invalid => []

/-- A destination the encoder can write: a domain of at most 255 bytes, or an address. -/
def Addressable (t : Metadata) : Prop :=
  (t.host ≠ [] → t.host.length ≤ 255) ∧ (t.host = [] → t.dstIP ≠ .invalid)

instance (t : Metadata) : Decidable t.Addressable :=
  inferInstanceAs (Decidable ((_ → _) ∧ (_ → _)))

/-- Either a domain or a zone-free address, and not both. -/
def Plain (t : Metadata) : Prop :=
  (t.host ≠ [] → t.dstIP = .invalid) ∧ t.dstIP.withoutZone = t.dstIP

instance (t : Metadata) : Decidable t.Plain := inferInstanceAs (Decidable ((_ → _) ∧ _))

/-- What a frame carries of a destination: the domain wins over the address. -/
def carried (t : Metadata) : Metadata :=
  { t with dstIP := if t.host ≠ [] then .invalid else t.dstIP.withoutZone }

theorem carried_of_plain (h : t.Plain) : t.carried = t := by
  by_cases hh : t.host = []
  · rw [carried, if_neg (not_not.mpr hh), h.2]
  · rw [carried, if_pos hh, ← h.1 hh]

theorem plain_carried (t : Metadata) : t.carried.Plain := by
  by_cases hh : t.host = []
  · cases hip : t.dstIP <;> simp [Plain, carried, hh, hip, Addr.withoutZone]
  · simp [Plain, carried, hh, Addr.withoutZone]

@[simp] theorem addressBytes_carried (t : Metadata) : t.carried.addressBytes = t.addressBytes := by
  by_cases hh : t.host = []
  · cases hip : t.dstIP <;> simp [addressBytes, carried, hh, hip, Addr.withoutZone]
  · simp [addressBytes, carried, hh]

@[simp] theorem carried_netWork (t : Metadata) : t.carried.netWork = t.netWork := rfl

theorem addressable_carried (h : t.Addressable) : t.carried.Addressable := by
  refine ⟨h.1, ?_⟩
  intro hh
  have hip := h.2 hh
  cases ha : t.dstIP <;> simp_all [carried, Addr.withoutZone]

theorem addressBytes_length_le (h : t.Addressable) :
    t.addressBytes.length ≤ 257 := by
  by_cases hh : t.host = []
  · cases hip : t.dstIP <;> simp [addressBytes, hh, hip]
  · have hlen := h.1 hh
    simp only [addressBytes, ne_eq, hh, not_false_eq_true, if_true, List.length_append,
      List.length_cons, List.length_nil]
    omega

end Metadata

/-- `appendAddress` fails exactly on the destinations that have no wire form. -/
theorem appendAddress_ok_iff {dst out : List UInt8} :
    appendAddress dst t = .ok out ↔ t.Addressable ∧ out = dst ++ t.addressBytes := by
  by_cases hh : t.host = []
  · cases hip : t.dstIP <;> simp [appendAddress, Addressable, addressBytes, hh, hip, eq_comm]
  · by_cases hlen : t.host.length ≤ 255
    · simp [appendAddress, Addressable, addressBytes, hh, hlen, eq_comm, Nat.not_lt.mpr hlen]
    · simp [appendAddress, Addressable, hh, Nat.lt_of_not_le hlen]

/-- The target part of a body: network, port, address, and the GlobalID of an
initial UDP frame. -/
def targetWire (t : Metadata) (keep : Bool) (globalID : Fixed 8) : List UInt8 :=
  [t.netWork.wire] ++ putUint16 t.dstPort ++ t.addressBytes ++
    if keep = false ∧ t.netWork = .UDP then globalID.toList else []

/-- The destinations a target part may name. -/
structure TargetOk (t : Metadata) (keep : Bool) (globalID : Fixed 8) : Prop where
  network : t.netWork = .TCP ∨ t.netWork = .UDP
  addressable : t.Addressable
  plain : t.Plain
  follow : keep = true → t.netWork = .UDP
  globalID : ¬ (keep = false ∧ t.netWork = .UDP) → globalID = Fixed.zero 8

namespace FrameMetadata

/-- The bytes a header's target adds to the four fixed ones. -/
def targetBytes (f : FrameMetadata) : List UInt8 :=
  match f.target with
  | none => []
  | some t => targetWire t (f.status = statusKeep) f.globalID

def body (f : FrameMetadata) : List UInt8 :=
  putUint16 f.id ++ [f.status, f.option] ++ f.targetBytes

/-- The wire form of a header: its length in two bytes, then the body. -/
def wire (f : FrameMetadata) : List UInt8 :=
  putUint16 (UInt16.ofNat f.body.length) ++ f.body

/-- The destination rules: New needs one, Keep may repeat a UDP one, End and
KeepAlive have none; only an initial UDP frame has a GlobalID. -/
structure Located (f : FrameMetadata) : Prop where
  status : knownStatus f.status
  opened : f.status = statusNew → f.target ≠ none
  bare : f.status = statusEnd ∨ f.status = statusKeepAlive → f.target = none
  target : ∀ t ∈ f.target, TargetOk t (f.status = statusKeep) f.globalID
  globalID : f.target = none → f.globalID = Fixed.zero 8

/-- The headers the format is meant for. -/
structure WellFormed (f : FrameMetadata) : Prop extends Located f where
  option : ¬ strayOption f.option

theorem body_length_le (h : ∀ t ∈ f.target, t.Addressable) : f.body.length ≤ maxMetadataSize := by
  have htarget : f.targetBytes.length ≤ 268 := by
    unfold targetBytes
    cases ht : f.target with
    | none => simp
    | some t =>
      have hle := addressBytes_length_le (h t (by rw [ht]; rfl))
      simp only [targetWire, List.length_append, List.length_cons, List.length_nil,
        putUint16_length]
      split <;> simp <;> omega
  simp only [body, List.length_append, putUint16_length, List.length_cons, List.length_nil,
    maxMetadataSize]
  omega

theorem four_le_body_length (f : FrameMetadata) : 4 ≤ f.body.length := by
  simp only [body, List.length_append, putUint16_length, List.length_cons, List.length_nil]
  omega

end FrameMetadata

/-! ## The decoder inverts the format -/

theorem guard_eq_ok {α : Type} {p : Prop} [Decidable p] {e : Err} {x : Except Err α} {a : α} :
    (if p then .error e else x) = .ok a ↔ ¬ p ∧ x = .ok a := by
  split <;> simp [*]

@[simp] theorem word_putUint16 (n : UInt16) (rest : List UInt8) :
    word (putUint16 n ++ rest) = n := uint16_bytes n

private theorem byteLength {host : List UInt8} (h : host.length ≤ 255) :
    (UInt8.ofNat host.length).toNat = host.length := by
  exact Nat.mod_eq_of_lt (by omega)

theorem decodeAddress_addressBytes (ha : t.Addressable) (hp : t.Plain)
    (trailing : List UInt8) :
    decodeAddress (t.addressBytes ++ trailing) = .ok (t.host, t.dstIP, t.addressBytes.length) := by
  obtain ⟨netWork, host, dstIP, dstPort⟩ := t
  by_cases hh : host = []
  · subst hh
    cases dstIP with
    | invalid => exact absurd rfl (ha.2 rfl)
    | v4 bytes =>
      simp [decodeAddress, addressBytes, Fixed.ofPrefix_append]
    | v6 bytes zone =>
      have hz : zone = "" := by
        have hzone := hp.2
        simp only [Addr.withoutZone, Addr.v6.injEq, true_and] at hzone
        exact hzone.symm
      simp [decodeAddress, addressBytes, Fixed.ofPrefix_append, hz]
  · have hlen : host.length ≤ 255 := ha.1 hh
    have hip : dstIP = .invalid := hp.1 hh
    have hpos : UInt8.ofNat host.length ≠ 0 := by
      intro hz
      have hzero := congrArg UInt8.toNat hz
      rw [byteLength hlen] at hzero
      exact hh (List.length_eq_zero_iff.mp hzero)
    have hsize : 2 + host.length = host.length + 1 + 1 := by omega
    simp only [decodeAddress, addressBytes, ne_eq, hh, not_false_eq_true, if_true, hip,
      List.cons_append, List.nil_append, List.getD_cons_zero, List.getD_cons_succ,
      List.length_cons, List.length_append, byteLength hlen, hpos, or_false]
    rw [if_neg (by decide), if_neg (by omega), hsize]
    simp

private theorem Fixed.ofPrefix_bytes (n : Nat) (bytes : List UInt8) (h : n ≤ bytes.length) :
    (Fixed.ofPrefix n bytes).toList = bytes.take n := by
  simp [Fixed.ofPrefix, Fixed.toList, List.take_append_of_le_length h]

private theorem decodeDomain_sound {kind size : UInt8} {name : List UInt8} {netWork : NetWork}
    {dstPort : UInt16} (domain : kind = 0x02) (pos : size ≠ 0) (fits : size.toNat ≤ name.length) :
    let t : Metadata :=
      { netWork
        host := if 2 + size.toNat ≤ name.length + 1 + 1 then
          ((kind :: size :: name).take (2 + size.toNat)).drop 2 else []
        dstIP := .invalid, dstPort }
    t.Addressable ∧ t.Plain ∧ 2 + size.toNat = t.addressBytes.length ∧
      t.addressBytes ++ (kind :: size :: name).drop (2 + size.toNat) = kind :: size :: name := by
  have hhost : (if 2 + size.toNat ≤ name.length + 1 + 1 then
      ((kind :: size :: name).take (2 + size.toNat)).drop 2 else []) = name.take size.toNat := by
    rw [if_pos (by omega), Nat.add_comm 2]
    simp
  rw [hhost]
  have hlen : (name.take size.toNat).length = size.toNat := by simp [fits]
  have hbound := size.toNat_lt
  have hne : name.take size.toNat ≠ [] := by
    intro hz
    have hzero : size.toNat = 0 := by rw [← hlen, hz]; rfl
    exact pos (UInt8.toNat_inj.mp hzero)
  refine ⟨?_, ?_, ?_, ?_⟩
  · exact ⟨fun _ => by rw [hlen]; omega, fun he => absurd he hne⟩
  · exact ⟨fun _ => rfl, rfl⟩
  · simp only [addressBytes, ne_eq, hne, not_false_eq_true, if_true, List.length_append,
      hlen, List.length_cons, List.length_nil]
  · simp only [addressBytes, ne_eq, hne, not_false_eq_true, if_true, hlen,
      UInt8.ofNat_toNat, Nat.add_comm 2]
    simp [domain]

/-- Whatever the address switch accepts is a wire address followed by other bytes. -/
theorem decodeAddress_sound {address host : List UInt8} {dstIP : Addr} {consumed : Nat}
    (h : decodeAddress address = .ok (host, dstIP, consumed)) (fits : consumed ≤ address.length)
    (netWork : NetWork) (dstPort : UInt16) :
    let t : Metadata := { netWork, host, dstIP, dstPort }
    t.Addressable ∧ t.Plain ∧ consumed = t.addressBytes.length ∧
      t.addressBytes ++ address.drop consumed = address := by
  intro t
  unfold decodeAddress at h
  cases address with
  | nil => simp at h
  | cons kind rest =>
    simp only [List.getD_cons_zero, List.length_cons] at h fits
    split at h
    · next ip4 =>
      cases h
      have hlen : 4 ≤ rest.length := Nat.le_of_succ_le_succ fits
      have hbytes := Fixed.ofPrefix_bytes 4 rest hlen
      simp [t, Addressable, Plain, addressBytes, Addr.withoutZone, hlen, hbytes, ip4]
    · split at h
      · next domain =>
        cases rest with
        | nil => simp at h
        | cons size name =>
          simp only [List.getD_cons_succ, List.getD_cons_zero, List.length_cons] at h fits
          obtain ⟨bounds, ⟨⟩⟩ := guard_eq_ok.mp h
          rw [not_or] at bounds
          exact decodeDomain_sound domain bounds.2 (by omega)
      · split at h <;> cases h
        next ip6 =>
          have hlen : 16 ≤ rest.length := Nat.le_of_succ_le_succ fits
          have hbytes := Fixed.ofPrefix_bytes 16 rest hlen
          simp [t, Addressable, Plain, addressBytes, Addr.withoutZone, hlen, hbytes, ip6]

theorem decodeTargetMetadata_targetWire {globalID : Fixed 8} (h : TargetOk t keep globalID) :
    decodeTargetMetadata (targetWire t keep globalID) keep = .ok (t, globalID) := by
  have haddress := decodeAddress_addressBytes h.addressable h.plain
    (if keep = false ∧ t.netWork = .UDP then globalID.toList else [])
  have hpos : 0 < t.addressBytes.length := by
    have hip := h.addressable.2
    by_cases hh : t.host = []
    · cases ha : t.dstIP <;> simp_all [addressBytes]
    · simp [addressBytes, hh]
  have hlen : ¬ (targetWire t keep globalID).length < 4 := by
    simp only [targetWire, List.length_append, putUint16_length, List.length_cons, List.length_nil]
    omega
  have hport : word ((targetWire t keep globalID).drop 1) = t.dstPort := by
    simp [targetWire, List.append_assoc]
  have hdrop : (targetWire t keep globalID).drop 3 =
      t.addressBytes ++ if keep = false ∧ t.netWork = .UDP then globalID.toList else [] := rfl
  have hhead : (targetWire t keep globalID).getD 0 0 = t.netWork.wire := rfl
  unfold decodeTargetMetadata
  simp only [hlen, if_false, hport, hdrop, hhead, haddress, List.length_append]
  obtain ⟨netWork, host, dstIP, dstPort⟩ := t
  rcases h.network with hn | hn
  · change netWork = .TCP at hn
    subst hn
    have hkeep : keep = false := by
      cases keep with
      | false => rfl
      | true => exact absurd (h.follow rfl) (by simp)
    have hgid := h.globalID (by simp)
    subst hkeep hgid
    simp [NetWork.wire, targetTCP, targetUDP]
  · change netWork = .UDP at hn
    subst hn
    cases keep with
    | false => simp [NetWork.wire, targetTCP, targetUDP]
    | true =>
      have hgid := h.globalID (by simp)
      subst hgid
      simp [NetWork.wire, targetTCP, targetUDP]

theorem decodeTargetMetadata_sound {raw : List UInt8} {globalID : Fixed 8}
    (h : decodeTargetMetadata raw keep = .ok (t, globalID)) :
    TargetOk t keep globalID ∧ raw = targetWire t keep globalID := by
  obtain ⟨hlen, h⟩ := guard_eq_ok.mp h
  obtain ⟨network, hi, lo, address, rfl⟩ : ∃ a b c rest, raw = a :: b :: c :: rest := by
    match raw, hlen with
    | a :: b :: c :: rest, _ => exact ⟨a, b, c, rest, rfl⟩
    | [], hlen | [_], hlen | [_, _], hlen => simp at hlen
  simp only [List.getD_cons_zero, List.drop_succ_cons, List.drop_zero] at h
  obtain ⟨known, h⟩ := guard_eq_ok.mp h
  obtain ⟨follow, h⟩ := guard_eq_ok.mp h
  obtain ⟨netWork, hnet, rfl, hnetwork, hudp⟩ : ∃ netWork : NetWork,
      (if network = targetTCP then .TCP else .UDP) = netWork ∧ netWork.wire = network ∧
        (netWork = .TCP ∨ netWork = .UDP) ∧ (network = targetUDP ↔ netWork = .UDP) := by
    by_cases htcp : network = targetTCP
    · subst htcp
      exact ⟨.TCP, rfl, rfl, .inl rfl, by decide⟩
    · obtain rfl : network = targetUDP := by
        by_contra hne
        exact known ⟨htcp, hne⟩
      exact ⟨.UDP, rfl, rfl, .inr rfl, by decide⟩
  rw [ne_eq, hudp] at follow
  simp only [hnet, hudp] at h
  have hfollow : keep = true → netWork = .UDP := fun hkeep => by
    by_contra hne
    exact follow ⟨hkeep, hne⟩
  have hport : putUint16 (word (hi :: lo :: address)) = [hi, lo] := putUint16_uint16 hi lo
  split at h
  · cases h
  · next host dstIP consumed haddress =>
    obtain ⟨fits, h⟩ := guard_eq_ok.mp h
    obtain ⟨haddressable, hplain, -, hsplit⟩ := decodeAddress_sound haddress (Nat.not_lt.mp fits)
      netWork (word (hi :: lo :: address))
    -- nothing, or exactly a GlobalID, follows the address
    split at h
    · next initial =>
      obtain ⟨eight, ⟨⟩⟩ := guard_eq_ok.mp h
      have hgid : (Fixed.ofPrefix 8 (address.drop consumed)).toList = address.drop consumed :=
        Fixed.toList_ofPrefix (by simp; omega)
      refine ⟨⟨hnetwork, haddressable, hplain, hfollow, absurd initial⟩, ?_⟩
      rw [targetWire, if_pos initial, hgid, List.append_assoc, hsplit, hport]
      rfl
    · next plain =>
      obtain ⟨none_left, ⟨⟩⟩ := guard_eq_ok.mp h
      have hdrop : address.drop consumed = [] := List.drop_eq_nil_of_le (by omega)
      refine ⟨⟨hnetwork, haddressable, hplain, hfollow, fun _ => rfl⟩, ?_⟩
      rw [hdrop, List.append_nil] at hsplit
      rw [targetWire, if_neg plain, List.append_nil, hsplit, hport]
      rfl

private theorem body_of_word {hi lo status option : UInt8} (hid : f.id = uint16 hi lo)
    (hstatus : f.status = status) (hoption : f.option = option) (hrest : rest = f.targetBytes) :
    hi :: lo :: status :: option :: rest = f.body := by
  rw [body, hid, putUint16_uint16, hstatus, hoption, ← hrest]
  rfl

/-- Every header the status switch accepts is located, and its body is the input. -/
theorem decodeStatus_sound {hi lo status option : UInt8}
    (h : decodeStatus (hi :: lo :: status :: option :: rest) = .ok f) :
    f.Located ∧ hi :: lo :: status :: option :: rest = f.body := by
  unfold decodeStatus at h
  simp only [List.getD_cons_succ, List.getD_cons_zero, List.drop_succ_cons, List.drop_zero,
    List.length_cons] at h
  split at h
  · next isNew =>
    split at h
    · cases h
    · next t gid htarget =>
      simp only [Except.ok.injEq] at h
      subst h isNew
      obtain ⟨hok, hrest⟩ := decodeTargetMetadata_sound htarget
      exact ⟨⟨.inl rfl, by simp, by simp [statusNew, statusEnd, statusKeepAlive],
        by simpa [statusNew, statusKeep] using hok, by simp⟩, body_of_word rfl rfl rfl hrest⟩
  · next notNew =>
    split at h
    · next isKeep =>
      split at h
      · split at h
        · cases h
        · next t gid htarget =>
          simp only [Except.ok.injEq] at h
          subst h isKeep
          obtain ⟨hok, hrest⟩ := decodeTargetMetadata_sound htarget
          exact ⟨⟨.inr (.inl rfl), by simp, by simp [statusKeep, statusEnd, statusKeepAlive],
            by simpa using hok, by simp⟩,
            body_of_word rfl rfl rfl (by simpa [targetBytes] using hrest)⟩
      · next short =>
        simp only [Except.ok.injEq] at h
        subst h isKeep
        have hrest : rest = [] := List.length_eq_zero_iff.mp (by omega)
        exact ⟨⟨.inr (.inl rfl), by simp [statusKeep, statusNew], by simp, by simp, by simp⟩,
          body_of_word rfl rfl rfl hrest⟩
    · next notKeep =>
      split at h
      · next isBare =>
        split at h
        · cases h
        · next four =>
          simp only [Except.ok.injEq] at h
          subst h
          have hrest : rest = [] := List.length_eq_zero_iff.mp (by omega)
          exact ⟨⟨.inr (.inr isBare), fun hn => absurd hn notNew, by simp, by simp,
            by simp⟩, body_of_word rfl rfl rfl hrest⟩
      · cases h

theorem decodeStatus_body (h : f.Located) : decodeStatus f.body = .ok f := by
  obtain ⟨id, status, option, target, globalID⟩ := f
  have hbody : (mk id status option target globalID).body =
      (id >>> 8).toUInt8 :: id.toUInt8 :: status :: option ::
        (mk id status option target globalID).targetBytes := rfl
  rw [hbody]
  unfold decodeStatus
  simp only [List.getD_cons_succ, List.getD_cons_zero, List.drop_succ_cons, List.drop_zero,
    List.length_cons, word, uint16_bytes]
  rcases h.status with hs | hs | hs
  · change status = statusNew at hs
    subst hs
    cases target with
    | none => exact absurd rfl (h.opened rfl)
    | some t =>
      have hkeep : decide (statusNew = statusKeep) = false := rfl
      have hok := h.target t rfl
      simp only [hkeep] at hok
      simp only [if_true, targetBytes, hkeep, decodeTargetMetadata_targetWire hok]
  · change status = statusKeep at hs
    subst hs
    rw [if_neg (by decide)]
    cases target with
    | none =>
      have hgid := h.globalID rfl
      simp_all [targetBytes]
    | some t =>
      have hok := h.target t rfl
      simp only [decide_true] at hok
      have hlong : (targetWire t true globalID).length + 1 + 1 + 1 + 1 > 4 := by
        simp only [targetWire, List.length_append, List.length_cons]
        omega
      simp only [targetBytes, decide_true, hlong, if_true, decodeTargetMetadata_targetWire hok]
  · have hnone : target = none := h.bare hs
    have hgid : globalID = Fixed.zero 8 := h.globalID hnone
    subst hnone hgid
    have hnew : status ≠ statusNew := by
      rcases hs with rfl | rfl <;> decide
    have hkeep : status ≠ statusKeep := by
      rcases hs with rfl | rfl <;> decide
    simp [hnew, hkeep, hs, targetBytes]

private theorem four_or_more (raw : List UInt8) (h : 4 ≤ raw.length) :
    ∃ hi lo status option rest, raw = hi :: lo :: status :: option :: rest := by
  match raw, h with
  | a :: b :: c :: d :: rest, _ => exact ⟨a, b, c, d, rest, rfl⟩

theorem putUint16_word {size : List UInt8} (h : size.length = 2) :
    putUint16 (word size) = size := by
  obtain ⟨hi, lo, rfl⟩ := List.length_eq_two.mp h
  exact putUint16_uint16 hi lo

theorem ofNat_length_toNat {body : List UInt8} (h : body.length ≤ maxMetadataSize) :
    (UInt16.ofNat body.length).toNat = body.length := by
  simp only [maxMetadataSize] at h
  exact Nat.mod_eq_of_lt (by omega)

/-- The decoder is the inverse of the wire format: it accepts exactly the wire
forms of well-formed headers, and leaves the bytes after them unread. -/
theorem readFrameMetadata_ok_iff {r : List UInt8} :
    readFrameMetadata r = .ok (f, rest) ↔ f.WellFormed ∧ r = f.wire ++ rest := by
  constructor
  · intro h
    unfold readFrameMetadata at h
    split at h
    · cases h
    · next size tail hsize =>
      obtain ⟨rfl, htwo⟩ := readFull_ok_iff.mp hsize
      obtain ⟨bounds, hread⟩ := guard_eq_ok.mp h
      split at hread
      · cases hread
      · next raw tail hraw =>
        obtain ⟨rfl, hlen⟩ := readFull_ok_iff.mp hraw
        split at hread
        · cases hread
        · next frame hframe =>
          obtain ⟨option, ⟨⟩⟩ := guard_eq_ok.mp hread
          obtain ⟨hi, lo, status, opt, more, rfl⟩ := four_or_more raw (by omega)
          obtain ⟨located, hbody⟩ := decodeStatus_sound hframe
          refine ⟨⟨located, option⟩, ?_⟩
          rw [wire, ← hbody, hlen, UInt16.ofNat_toNat, putUint16_word htwo, List.append_assoc]
  · rintro ⟨hf, rfl⟩
    have hmax := body_length_le (fun t ht => (hf.target t ht).addressable)
    have hfour := f.four_le_body_length
    have hn := ofNat_length_toNat hmax
    have hsize : readFull 2 (f.wire ++ rest) =
        .ok (putUint16 (UInt16.ofNat f.body.length), f.body ++ rest) := by
      exact readFull_ok_iff.mpr ⟨rfl, rfl⟩
    have hword : word (putUint16 (UInt16.ofNat f.body.length)) = UInt16.ofNat f.body.length :=
      uint16_bytes _
    unfold readFrameMetadata
    simp only [hsize, hword, hn, readFull_append, decodeStatus_body hf.toLocated, hf.option,
      if_false]
    rw [if_neg (by omega)]

/-! ## The encoder writes the format -/

/-- The header that `encodeMetadata` puts on the wire for its arguments: without
the target when the frame carries none, and with the GlobalID of an initial UDP
frame only. -/
def carriedFrame (id : UInt16) (status option : UInt8) (target : Option Metadata)
    (globalID : Option (Fixed 8)) : FrameMetadata :=
  { id, status, option
    target := if needAddr status target then target.map carried else none
    globalID := if status = statusNew ∧ isUDP target = true then globalID.getD (Fixed.zero 8)
      else Fixed.zero 8 }

/-- The arguments `encodeMetadata` accepts. -/
structure Accepted (status option : UInt8) (target : Option Metadata)
    (globalID : Option (Fixed 8)) : Prop where
  known : knownStatus status
  noStray : ¬ strayOption option
  placed : ¬ misplacedGlobalID status option target globalID
  located : needAddr status target →
    ∃ t, target = some t ∧ (t.netWork = .TCP ∨ t.netWork = .UDP) ∧ t.Addressable

section Encoder

variable {body out : List UInt8} {id : UInt16} {status option : UInt8} {t : Metadata}
variable {target : Option Metadata} {globalID : Option (Fixed 8)}

section

variable (hstatus : status = statusNew ∨ status = statusKeep)
include hstatus

theorem appendLocated_ok_iff {network : UInt8} (hnetwork : t.netWork.wire = network) :
    appendLocated body network status t globalID = .ok out ↔
      t.Addressable ∧
        out = body ++ targetWire t (status = statusKeep) (globalID.getD (Fixed.zero 8)) := by
  have hkeep : status = statusNew ↔ decide (status = statusKeep) = false := by
    rcases hstatus with rfl | rfl <;> decide
  have hparts : body ++ targetWire t (status = statusKeep) (globalID.getD (Fixed.zero 8)) =
      body ++ [network] ++ putUint16 t.dstPort ++ t.addressBytes ++
        if status = statusNew ∧ t.netWork = .UDP then (globalID.getD (Fixed.zero 8)).toList
        else [] := by
    simp only [targetWire, hnetwork, hkeep, List.append_assoc]
  rw [hparts]
  unfold appendLocated
  cases haddress : appendAddress (body ++ [network] ++ putUint16 t.dstPort) t with
  | error e =>
    have hbad : ¬ t.Addressable := by
      intro ha
      rw [appendAddress_ok_iff.mpr ⟨ha, rfl⟩] at haddress
      cases haddress
    simp [hbad]
  | ok located =>
    obtain ⟨ha, rfl⟩ := appendAddress_ok_iff.mp haddress
    by_cases hinitial : status = statusNew ∧ t.netWork = .UDP
    · simp only [if_pos hinitial, Except.ok.injEq, ha, true_and]
      exact eq_comm
    · simp only [if_neg hinitial, Except.ok.injEq, ha, true_and, List.append_nil]
      exact eq_comm

theorem appendTarget_ok_iff : appendTarget body status target globalID = .ok out ↔
      ∃ t, target = some t ∧ (t.netWork = .TCP ∨ t.netWork = .UDP) ∧ t.Addressable ∧
        out = body ++ targetWire t (status = statusKeep) (globalID.getD (Fixed.zero 8)) := by
  unfold appendTarget
  cases target with
  | none => simp
  | some t =>
    by_cases htcp : t.netWork = .TCP
    · simp [htcp, appendLocated_ok_iff hstatus (by rw [htcp]; rfl : t.netWork.wire = targetTCP)]
    · by_cases hudp : t.netWork = .UDP
      · simp [hudp, appendLocated_ok_iff hstatus (by rw [hudp]; rfl : t.netWork.wire = targetUDP)]
      · simp [htcp, hudp]

end

theorem sealMetadata_ok_iff :
    sealMetadata body = .ok out ↔
      body.length ≤ maxMetadataSize ∧ out = putUint16 (UInt16.ofNat body.length) ++ body := by
  rw [sealMetadata, guard_eq_ok, Nat.not_lt, Except.ok.injEq]
  exact and_congr_right' eq_comm

theorem carriedFrame_addressable (h : ∀ t ∈ target, t.Addressable) :
    ∀ t ∈ (carriedFrame id status option target globalID).target, t.Addressable := by
  intro t ht
  simp only [carriedFrame] at ht
  split at ht
  · obtain ⟨t', ht', rfl⟩ := Option.map_eq_some_iff.mp ht
    exact addressable_carried (h t' ht')
  · cases ht

theorem targetWire_carried (t : Metadata) (keep : Bool) (globalID : Fixed 8) :
    targetWire t.carried keep globalID = targetWire t keep globalID := by
  unfold targetWire
  rw [addressBytes_carried]
  rfl

/-- The zeroing of GlobalIDs in `carriedFrame` is invisible on the wire. -/
theorem carriedFrame_body (id : UInt16) (option : UInt8) (globalID : Option (Fixed 8))
    (h : needAddr status (some t)) :
    (carriedFrame id status option (some t) globalID).body =
      putUint16 id ++ [status, option] ++
        targetWire t (status = statusKeep) (globalID.getD (Fixed.zero 8)) := by
  have hgid : targetWire t (status = statusKeep)
      (if status = statusNew ∧ isUDP (some t) = true then globalID.getD (Fixed.zero 8)
        else Fixed.zero 8) =
      targetWire t (status = statusKeep) (globalID.getD (Fixed.zero 8)) := by
    by_cases hinitial : decide (status = statusKeep) = false ∧ t.netWork = .UDP
    · have hnew : status = statusNew := by
        rcases h with hs | hs
        · exact hs
        · simp [hs.1] at hinitial
      simp [hnew, hinitial.2, isUDP]
    · simp only [targetWire, if_neg hinitial]
  simp only [carriedFrame, body, targetBytes, if_pos h, Option.map_some, targetWire_carried, hgid]

/-- `encodeMetadata` succeeds exactly on the accepted arguments, and then writes
the wire form of the header that carries them. -/
theorem encodeMetadata_ok_iff :
    encodeMetadata id status option target globalID = .ok out ↔
      Accepted status option target globalID ∧
        out = (carriedFrame id status option target globalID).wire := by
  rw [encodeMetadata, guard_eq_ok, guard_eq_ok, guard_eq_ok, not_not]
  by_cases haddr : needAddr status target
  · have hstatus : status = statusNew ∨ status = statusKeep := haddr.imp_right And.left
    rw [if_pos haddr]
    constructor
    · rintro ⟨hknown, hstray, hgid, h⟩
      split at h
      · cases h
      · next body hbody =>
        obtain ⟨t, rfl, hnet, ha, rfl⟩ := (appendTarget_ok_iff hstatus).mp hbody
        obtain ⟨_, rfl⟩ := sealMetadata_ok_iff.mp h
        exact ⟨⟨hknown, hstray, hgid, fun _ => ⟨t, rfl, hnet, ha⟩⟩,
          by rw [wire, carriedFrame_body id option globalID haddr]⟩
    · rintro ⟨haccepted, rfl⟩
      refine ⟨haccepted.known, haccepted.noStray, haccepted.placed, ?_⟩
      obtain ⟨t, rfl, hnet, ha⟩ := haccepted.located haddr
      rw [(appendTarget_ok_iff hstatus).mpr ⟨t, rfl, hnet, ha, rfl⟩]
      have hbody := carriedFrame_body id option globalID haddr
      refine sealMetadata_ok_iff.mpr ⟨?_, by rw [wire, hbody]⟩
      rw [← hbody]
      refine body_length_le (carriedFrame_addressable fun t' ht => ?_)
      cases ht
      exact ha
  · rw [if_neg haddr]
    have hbody : (carriedFrame id status option target globalID).body =
        putUint16 id ++ [status, option] := by
      simp [carriedFrame, body, targetBytes, haddr]
    rw [sealMetadata_ok_iff, wire, hbody]
    constructor
    · rintro ⟨hknown, hstray, hgid, _, rfl⟩
      exact ⟨⟨hknown, hstray, hgid, fun hn => absurd hn haddr⟩, rfl⟩
    · rintro ⟨h, rfl⟩
      exact ⟨h.known, h.noStray, h.placed, by simp [maxMetadataSize], rfl⟩

/-- The header carried by accepted arguments is one the decoder accepts. -/
theorem Accepted.wellFormed (h : Accepted status option target globalID) :
    (carriedFrame id status option target globalID).WellFormed := by
  refine ⟨⟨h.known, ?_, ?_, ?_, ?_⟩, h.noStray⟩
  · intro hnew
    obtain ⟨t, rfl, _⟩ := h.located (.inl hnew)
    simp [carriedFrame, needAddr, show status = statusNew from hnew]
  · intro hbare
    have hno : ¬ needAddr status target := by
      rintro (hs | hs)
      · change status = statusEnd ∨ status = statusKeepAlive at hbare
        rw [hs] at hbare
        exact absurd hbare (by decide)
      · change status = statusEnd ∨ status = statusKeepAlive at hbare
        rw [hs.1] at hbare
        exact absurd hbare (by decide)
    simp [carriedFrame, hno]
  · intro t ht
    simp only [carriedFrame] at ht
    split at ht
    · next haddr =>
      obtain ⟨t', rfl, hnet, ha⟩ := h.located haddr
      obtain rfl : t'.carried = t := Option.some.inj ht
      refine ⟨hnet, addressable_carried ha, plain_carried t', ?_, ?_⟩
      · intro hkeep
        have hk : status = statusKeep := of_decide_eq_true hkeep
        rcases haddr with hs | hs
        · rw [hs] at hk
          exact absurd hk (by decide)
        · simpa [isUDP] using hs.2
      · intro hinitial
        have hno : ¬ (status = statusNew ∧ isUDP (some t') = true) := by
          rintro ⟨hs, hu⟩
          refine hinitial ⟨?_, by simpa [isUDP] using hu⟩
          rw [hs]
          rfl
        simp [carriedFrame, hno]
    · cases ht
  · intro hnone
    have hno : ¬ (status = statusNew ∧ isUDP target = true) := by
      rintro ⟨hs, hu⟩
      obtain ⟨t, rfl, _⟩ := h.located (.inl hs)
      simp [carriedFrame, needAddr, hs] at hnone
    simp [carriedFrame, hno]

/-- What accepted arguments with a plain target decode to: every argument as it
was, the target only where the frame carries it. -/
theorem Accepted.carriedFrame_eq (h : Accepted status option target globalID)
    (hplain : ∀ t ∈ target, t.Plain) :
    carriedFrame id status option target globalID =
      { id, status, option, target := if needAddr status target then target else none
        globalID := globalID.getD (Fixed.zero 8) } := by
  have htarget : target.map carried = target := by
    cases target with
    | none => rfl
    | some t => rw [Option.map_some, carried_of_plain (hplain t rfl)]
  have hgid : (if status = statusNew ∧ isUDP target = true then globalID.getD (Fixed.zero 8)
      else Fixed.zero 8) = globalID.getD (Fixed.zero 8) := by
    split
    · rfl
    · next hno =>
      by_contra hne
      refine h.placed ⟨fun hz => hne hz.symm, ?_⟩
      by_cases hs : status = statusNew
      · exact .inr (.inl (Bool.eq_false_iff.mpr fun hu => hno ⟨hs, hu⟩))
      · exact .inl hs
  unfold carriedFrame
  rw [htarget, hgid]

end Encoder

/-- The one kind of header that decodes but is refused by the encoder. -/
def FrameMetadata.Refused (f : FrameMetadata) : Prop :=
  f.status = statusNew ∧ isUDP f.target = true ∧ f.globalID ≠ Fixed.zero 8 ∧
    f.option &&& optionData = 0

instance (f : FrameMetadata) : Decidable f.Refused :=
  inferInstanceAs (Decidable (_ ∧ _ ∧ _ ∧ _))

namespace FrameMetadata.WellFormed

variable {f : FrameMetadata}

section

variable (h : f.WellFormed)
include h

/-- A GlobalID is only present on an initial UDP frame. -/
theorem globalID_eq_zero (hplain : ¬ (f.status = statusNew ∧ isUDP f.target = true)) :
    f.globalID = Fixed.zero 8 := by
  cases ht : f.target with
  | none => exact h.globalID ht
  | some t =>
    apply (h.target t ht).globalID
    rintro ⟨hkeep, hudp⟩
    refine hplain ⟨?_, by rw [ht]; simpa [isUDP] using hudp⟩
    have hne : f.status ≠ statusKeep := of_decide_eq_false hkeep
    rcases h.status with hs | hs | hs
    · exact hs
    · exact absurd hs hne
    · rw [h.bare hs] at ht
      cases ht

/-- A well-formed header is carried unchanged. -/
theorem carriedFrame_eq : carriedFrame f.id f.status f.option f.target (some f.globalID) = f := by
  have htarget : (if needAddr f.status f.target then f.target.map carried else none) =
      f.target := by
    cases ht : f.target with
    | none => simp
    | some t =>
      have hplain := carried_of_plain (h.target t ht).plain
      have haddr : needAddr f.status (some t) := by
        rcases h.status with hs | hs | hs
        · exact .inl hs
        · exact .inr ⟨hs, by simpa [isUDP] using (h.target t ht).follow (decide_eq_true hs)⟩
        · rw [h.bare hs] at ht
          cases ht
      rw [if_pos haddr, Option.map_some, hplain]
  have hgid : (if f.status = statusNew ∧ isUDP f.target = true then
      (some f.globalID).getD (Fixed.zero 8) else Fixed.zero 8) = f.globalID := by
    split
    · rfl
    · next hplain => exact (h.globalID_eq_zero hplain).symm
  unfold carriedFrame
  rw [htarget, hgid]

theorem misplaced_iff :
    misplacedGlobalID f.status f.option f.target (some f.globalID) ↔ f.Refused := by
  constructor
  · rintro ⟨hgid, hrest⟩
    have hinitial : f.status = statusNew ∧ isUDP f.target = true := by
      by_contra hno
      exact hgid (h.globalID_eq_zero hno)
    refine ⟨hinitial.1, hinitial.2, hgid, ?_⟩
    rcases hrest with hs | hs | hs
    · exact absurd hinitial.1 hs
    · rw [hinitial.2] at hs
      cases hs
    · exact hs
  · rintro ⟨_, _, hgid, hdata⟩
    exact ⟨hgid, .inr (.inr hdata)⟩

theorem accepted (hf : ¬ f.Refused) : Accepted f.status f.option f.target (some f.globalID) := by
  refine ⟨h.status, h.option, mt h.misplaced_iff.mp hf, ?_⟩
  intro haddr
  cases ht : f.target with
  | none =>
    rcases haddr with hs | hs
    · exact absurd ht (h.opened hs)
    · rw [ht] at hs
      exact absurd hs.2 (by decide)
  | some t =>
    have hok := h.target t ht
    exact ⟨t, rfl, hok.network, hok.addressable⟩

/-- The encoder on a decoded header: its own bytes, or the GlobalID refusal. -/
theorem encodeMetadata_eq : encodeMetadata f.id f.status f.option f.target (some f.globalID) =
      if f.Refused then
        .error (protocolError "encode metadata"
          (.text "GlobalID is only valid on an initial UDP data frame"))
      else .ok f.wire := by
  split
  next hf =>
    rw [encodeMetadata]
    simp [h.status, h.option, h.misplaced_iff.mpr hf]
  next hf =>
    rw [encodeMetadata_ok_iff]
    exact ⟨h.accepted hf, by rw [h.carriedFrame_eq]⟩

end

end FrameMetadata.WellFormed

/-- The encoder and the decoder are inverse. What is encoded decodes, in front of
any bytes and without touching them, to the same header; and every byte string
that decodes is the encoding of its header, except that the encoder refuses a
GlobalID on an initial UDP frame without data. -/
theorem metadata_roundTrip :
    (∀ (id : UInt16) (status option : UInt8) (target : Option Metadata)
        (globalID : Option (Fixed 8)) (out rest : List UInt8),
      (∀ t ∈ target, t.Plain) →
      encodeMetadata id status option target globalID = .ok out →
      readFrameMetadata (out ++ rest) =
        .ok ({ id, status, option, target := if needAddr status target then target else none
               globalID := globalID.getD (Fixed.zero 8) }, rest)) ∧
    (∀ (r rest : List UInt8) (f : FrameMetadata), readFrameMetadata r = .ok (f, rest) →
      ∃ consumed, r = consumed ++ rest ∧
        encodeMetadata f.id f.status f.option f.target (some f.globalID) =
          if f.Refused then
            .error (protocolError "encode metadata"
              (.text "GlobalID is only valid on an initial UDP data frame"))
          else .ok consumed) := by
  constructor
  · intro id status option target globalID out rest hplain h
    obtain ⟨haccepted, rfl⟩ := encodeMetadata_ok_iff.mp h
    rw [← haccepted.carriedFrame_eq hplain]
    exact readFrameMetadata_ok_iff.mpr ⟨haccepted.wellFormed, rfl⟩
  · intro r rest f h
    obtain ⟨hf, rfl⟩ := readFrameMetadata_ok_iff.mp h
    exact ⟨f.wire, rfl, hf.encodeMetadata_eq⟩

/-- The header of the `xudp-new-data` golden frame: a datagram for `udp.example:53`. -/
def xudpHeader : FrameMetadata :=
  { id := 5, status := statusNew, option := optionData
    target := some
      { netWork := .UDP, dstPort := 53
        host := [0x75, 0x64, 0x70, 0x2e, 0x65, 0x78, 0x61, 0x6d, 0x70, 0x6c, 0x65] }
    globalID := ⟨[1, 2, 3, 4, 5, 6, 7, 8], rfl⟩ }

/-- The bytes of that header. -/
def xudpGolden : List UInt8 :=
  [0x00, 0x1c, 0x00, 0x05, 0x01, 0x01, 0x02, 0x00, 0x35, 0x02, 0x0b, 0x75, 0x64, 0x70, 0x2e,
    0x65, 0x78, 0x61, 0x6d, 0x70, 0x6c, 0x65, 0x01, 0x02, 0x03, 0x04, 0x05, 0x06, 0x07, 0x08]

theorem metadata_roundTrip_xudp :
    readFrameMetadata (xudpGolden ++ [0x00, 0x02, 0x71, 0x32]) =
        .ok (xudpHeader, [0x00, 0x02, 0x71, 0x32]) ∧
      ∃ consumed, xudpGolden ++ [0x00, 0x02, 0x71, 0x32] = consumed ++ [0x00, 0x02, 0x71, 0x32] ∧
        encodeMetadata xudpHeader.id xudpHeader.status xudpHeader.option xudpHeader.target
          (some xudpHeader.globalID) = .ok consumed := by
  have hencode : encodeMetadata xudpHeader.id xudpHeader.status xudpHeader.option
      xudpHeader.target (some xudpHeader.globalID) = .ok xudpGolden := by decide
  have hread := metadata_roundTrip.1 _ _ _ _ _ _ [0x00, 0x02, 0x71, 0x32] (by decide) hencode
  exact ⟨hread, metadata_roundTrip.2 _ _ _ hread⟩

end XrayMux
