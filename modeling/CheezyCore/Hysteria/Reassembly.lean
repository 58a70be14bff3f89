import CheezyCore.Foundation.Slots
import CheezyCore.Foundation.Stream
import CheezyCore.Foundation.Table
import CheezyCore.Hysteria.Udp

/-!
# What the defragger of a Hysteria client returns

The slots of the defragger are those of the first part of a message id. A later part with
the same message id is stored among them whatever session, address or number of parts it
has, and it may lie outside of them: then the client panics. A client that has seen no part
yet has message id 0 and no slots, so that a first part with message id 0 lies outside.

As long as every part that continues a message agrees with the parts held, what is returned
is one message, in the order of its parts; and a message whose id differs from that of the
last one is put together whatever the order of its parts.
-/

namespace Hysteria

open Transition UDPMessage

variable {m x : UDPMessage} {d d' : Defragger} {out : Option UDPMessage} {size : Nat}

namespace UDPMessage

/-- A message that `Feed` takes for a part. -/
def IsPart (m : UDPMessage) : Prop := 1 < m.fragCount ∧ m.fragID < m.fragCount

instance : DecidablePred IsPart := fun m =>
  inferInstanceAs (Decidable (1 < m.fragCount ∧ m.fragID < m.fragCount))

/-- What the parts of one message of one session share, the number of parts apart. -/
def header (m : UDPMessage) : UInt32 × Bytes × UInt16 × UInt16 :=
  (m.sessionID, m.host, m.port, m.msgID)

end UDPMessage

namespace Defragger

/-- A part with the message id of the defragger. -/
def Continues (d : Defragger) (m : UDPMessage) : Prop := m.IsPart ∧ m.msgID = d.msgID

instance : Decidable (d.Continues m) :=
  inferInstanceAs (Decidable (m.IsPart ∧ m.msgID = d.msgID))

/-! ## One call of `Feed` -/

/-- What a call of `Feed` can do. -/
inductive Fed (d : Defragger) (m : UDPMessage) : Defragger → Option UDPMessage → Prop
  | whole (h : m.fragCount ≤ 1) : Fed d m d (some m)
  | invalid (h : m.fragCount ≤ m.fragID) : Fed d m d none
  | first (part : m.IsPart) (other : m.msgID ≠ d.msgID) : Fed d m (begin m) none
  | again (continues : d.Continues m) : Fed d m d none
  | part (continues : d.Continues m) (empty : d.frags[m.fragID.toNat]? = some none) :
      Fed d m (d.store m) none
  | last (data : Bytes) (continues : d.Continues m) (empty : d.frags[m.fragID.toNat]? = some none)
      (full : (d.store m).count.toNat = (d.store m).frags.length)
      (assembled : assemble (d.store m).frags = some data) :
      Fed d m (d.store m) (some { m with data, fragID := 0, fragCount := 1 })

theorem addPart_cases (continues : d.Continues m)
    (empty : d.frags[m.fragID.toNat]? = some none) (h : d.addPart m = some (d', out)) :
    Fed d m d' out := by
  rw [addPart] at h
  split at h
  · next full =>
    obtain ⟨data, assembled, ⟨⟩⟩ := Option.map_eq_some_iff.mp h
    exact .last data continues empty full assembled
  · cases h
    exact .part continues empty

theorem fill_cases (continues : d.Continues m) (h : d.fill m = some (d', out)) :
    Fed d m d' out := by
  rw [fill] at h
  split at h
  · cases h
  · cases h
    exact .again continues
  · next empty => exact addPart_cases continues empty h

theorem feed_cases (h : d.feed m = some (d', out)) : Fed d m d' out := by
  revert h
  fun_cases feed d m with
  | case1 hwhole =>
    rintro ⟨⟩
    exact .whole hwhole
  | case2 _ hinvalid =>
    rintro ⟨⟩
    exact .invalid hinvalid
  | case3 hcount hid hother =>
    rintro ⟨⟩
    exact .first ⟨UInt8.not_le.mp hcount, UInt8.not_le.mp hid⟩ hother
  | case4 hcount hid hsame =>
    exact fill_cases ⟨⟨UInt8.not_le.mp hcount, UInt8.not_le.mp hid⟩, not_not.mp hsame⟩

theorem feed_of_not_isPart (h : ¬m.IsPart) : ∃ out, d.feed m = some (d, out) := by
  rw [feed]
  split
  · exact ⟨_, rfl⟩
  · next hcount =>
    have hid : m.fragCount ≤ m.fragID :=
      UInt8.not_lt.mp fun hid => h ⟨UInt8.not_le.mp hcount, hid⟩
    exact ⟨none, if_pos hid⟩

theorem feed_of_isPart (h : m.IsPart) :
    d.feed m = if m.msgID ≠ d.msgID then some (begin m, none) else d.fill m := by
  rw [feed, if_neg (UInt8.not_le.mpr h.1), if_neg (UInt8.not_le.mpr h.2)]

theorem feed_of_empty (h : d.Continues m) (empty : d.frags[m.fragID.toNat]? = some none) :
    d.feed m = d.addPart m := by
  rw [feed_of_isPart h.1, if_neg (not_not.mpr h.2), fill, empty]

/-! ## The slots -/

/-- `count` is the number of filled slots. -/
structure Tidy (d : Defragger) : Prop where
  count : d.count.toNat = Slots.filled d.frags
  length : d.frags.length < 256

theorem assemble_map_some (parts : List UDPMessage) :
    assemble (parts.map some) = some (parts.flatMap data) := by
  induction parts with
  | nil => rfl
  | cons part parts ih =>
    rw [List.map_cons, assemble, ih]
    rfl

theorem begin_tidy (h : m.IsPart) : (begin m).Tidy := by
  have hid : m.fragID.toNat < m.fragCount.toNat := UInt8.lt_iff_toNat_lt.mp h.2
  constructor
  · rw [begin, Slots.filled_set, Slots.filled_replicate]
    · rfl
    · rw [List.getElem?_replicate, if_pos hid]
  · simp only [begin, List.length_set, List.length_replicate]
    exact m.fragCount.toNat_lt

theorem Tidy.store (tidy : d.Tidy) (empty : d.frags[m.fragID.toNat]? = some none) :
    (d.store m).Tidy := by
  have hfilled := Slots.filled_set empty m
  have hle := Slots.filled_le_length (d.frags.set m.fragID.toNat (some m))
  have hlength := tidy.length
  rw [List.length_set] at hle
  refine ⟨?_, by simpa [Defragger.store] using hlength⟩
  change (d.count + 1).toNat = Slots.filled (d.frags.set m.fragID.toNat (some m))
  have hcount := tidy.count
  change (d.count.toNat + 1) % 256 = _
  omega

/-- The last part finds every slot filled. -/
theorem Tidy.exists_parts (tidy : (d.store m).Tidy)
    (full : (d.store m).count.toNat = (d.store m).frags.length) :
    ∃ parts : List UDPMessage, (d.store m).frags = parts.map some :=
  Slots.exists_eq_map_some (tidy.count.symm.trans full)

theorem Tidy.addPart_isSome (tidy : d.Tidy) (empty : d.frags[m.fragID.toNat]? = some none) :
    (d.addPart m).isSome := by
  rw [addPart]
  split
  · next full =>
    obtain ⟨parts, hparts⟩ := (tidy.store empty).exists_parts full
    rw [hparts, assemble_map_some]
    rfl
  · rfl

/-- `Feed` panics at a part that continues a message and lies outside of its slots, and
nowhere else. -/
theorem Tidy.feed_eq_none_iff (tidy : d.Tidy) :
    d.feed m = none ↔ d.Continues m ∧ d.frags.length ≤ m.fragID.toNat := by
  by_cases hpart : m.IsPart
  · rw [feed_of_isPart hpart]
    by_cases hid : m.msgID = d.msgID
    · rw [if_neg (not_not.mpr hid), fill, ← List.getElem?_eq_none_iff]
      have hcontinues : d.Continues m := ⟨hpart, hid⟩
      split
      · next hout => exact ⟨fun _ => ⟨hcontinues, hout⟩, fun _ => rfl⟩
      · next hslot => simp [hslot]
      · next hempty =>
        have hsome := tidy.addPart_isSome hempty
        rw [Option.isSome_iff_ne_none] at hsome
        simp [hempty, hsome]
    · rw [if_pos hid]
      exact ⟨nofun, fun h => absurd h.1.2 hid⟩
  · obtain ⟨out, hfeed⟩ := feed_of_not_isPart hpart
    rw [hfeed]
    exact ⟨nofun, fun h => absurd h.1.1 hpart⟩

/-! ## Runs of coherent parts -/

/-- The messages that unpack, in the order of their datagrams. -/
def received (datagrams : List Bytes) : List UDPMessage :=
  datagrams.filterMap fun datagram => (unpack datagram).toOption

/-- A part that continues a message lies within its slots and belongs to the message the
held parts belong to. -/
def Coherent (d : Defragger) (datagram : Bytes) : Prop :=
  ∀ m ∈ (unpack datagram).toOption, d.Continues m →
    m.fragID.toNat < d.frags.length ∧
      ∀ slot ∈ d.frags, ∀ f ∈ slot, f.header = m.header ∧ f.fragCount = m.fragCount

instance (d : Defragger) (datagram : Bytes) : Decidable (d.Coherent datagram) :=
  inferInstanceAs (Decidable (∀ _ ∈ _, _ → _ ∧ ∀ _ ∈ _, ∀ _ ∈ _, _ ∧ _))

/-- `out` is put together from all the parts of one message, in the order of their numbers. -/
structure Assembled (received : List UDPMessage) (out : UDPMessage) (parts : List UDPMessage) :
    Prop where
  received : ∀ f ∈ parts, f ∈ received
  numbered : parts.map (fun f => f.fragID.toNat) = List.range parts.length
  header : ∀ f ∈ parts, f.header = out.header
  fragCount : ∀ f ∈ parts, f.fragCount.toNat = parts.length
  data : out.data = parts.flatMap data

/-- The held parts are parts of one message that were received, each in its slot. -/
structure Gathers (received : List UDPMessage) (d : Defragger) : Prop where
  tidy : d.Tidy
  source : ∀ (i : Nat) f, d.frags[i]? = some (some f) → f ∈ received ∧ f.fragID.toNat = i
  size : d.frags ≠ [] → ∃ f, some f ∈ d.frags ∧ f.fragCount.toNat = d.frags.length
  agree : ∀ f g, some f ∈ d.frags → some g ∈ d.frags →
    f.header = g.header ∧ f.fragCount = g.fragCount

variable {got : List UDPMessage} {f : UDPMessage}

theorem Gathers.mono (h : Gathers got d) (more : List UDPMessage) : Gathers (got ++ more) d :=
  ⟨h.tidy, fun i f hf => ⟨List.mem_append_left more (h.source i f hf).1, (h.source i f hf).2⟩,
    h.size, h.agree⟩

theorem getElem?_begin {i : Nat} (h : (begin m).frags[i]? = some (some f)) :
    i = m.fragID.toNat ∧ f = m := by
  rcases Table.getElem?_set_cases h with ⟨-, hold⟩ | ⟨rfl, hnew⟩
  · cases (Table.of_getElem?_replicate hold).2
  · exact ⟨rfl, Option.some.inj hnew⟩

theorem mem_begin (h : some f ∈ (begin m).frags) : f = m := by
  obtain ⟨i, hi⟩ := List.mem_iff_getElem?.mp h
  exact (getElem?_begin hi).2

theorem gathers_begin (h : m.IsPart) : Gathers (got ++ [m]) (begin m) := by
  have hid : m.fragID.toNat < m.fragCount.toNat := UInt8.lt_iff_toNat_lt.mp h.2
  refine ⟨begin_tidy h, ?_, ?_, ?_⟩
  · intro i f hf
    obtain ⟨rfl, rfl⟩ := getElem?_begin hf
    exact ⟨List.mem_concat_self, rfl⟩
  · intro _
    refine ⟨m, List.mem_set (by simpa using hid) _, ?_⟩
    simp [begin]
  · intro f g hf hg
    rw [mem_begin hf, mem_begin hg]
    exact ⟨rfl, rfl⟩

theorem mem_store (h : some f ∈ (d.store m).frags) : f = m ∨ some f ∈ d.frags := by
  rcases List.mem_or_eq_of_mem_set h with hold | hnew
  · exact .inr hold
  · exact .inl (Option.some.inj hnew)

section

variable (empty : d.frags[m.fragID.toNat]? = some none)
include empty

theorem mem_store_of_mem (h : some f ∈ d.frags) : some f ∈ (d.store m).frags := by
  obtain ⟨i, hi⟩ := List.mem_iff_getElem?.mp h
  refine List.mem_iff_getElem?.mpr ⟨i, ?_⟩
  have hne : m.fragID.toNat ≠ i := by
    rintro rfl
    rw [empty] at hi
    cases hi
  change (d.frags.set m.fragID.toNat (some m))[i]? = _
  rw [List.getElem?_set_ne hne, hi]

theorem Gathers.store (h : Gathers got d)
    (same : ∀ f, some f ∈ d.frags → f.header = m.header ∧ f.fragCount = m.fragCount) :
    Gathers (got ++ [m]) (d.store m) := by
  refine ⟨h.tidy.store empty, ?_, ?_, ?_⟩
  · intro i f hf
    rcases Table.getElem?_set_cases hf with ⟨-, hold⟩ | ⟨hi, ⟨⟩⟩
    · exact (h.mono [m]).source i f hold
    · exact ⟨List.mem_concat_self, hi⟩
  · intro _
    have hne : d.frags ≠ [] := by
      intro hnil
      simp [hnil] at empty
    obtain ⟨f, hf, hsize⟩ := h.size hne
    refine ⟨f, mem_store_of_mem empty hf, hsize.trans ?_⟩
    simp [Defragger.store]
  · intro f g hf hg
    have hall : ∀ f, some f ∈ (d.store m).frags →
        f.header = m.header ∧ f.fragCount = m.fragCount := by
      intro f hf
      rcases mem_store hf with rfl | hold
      · exact ⟨rfl, rfl⟩
      · exact same f hold
    exact ⟨(hall f hf).1.trans (hall g hg).1.symm, (hall f hf).2.trans (hall g hg).2.symm⟩

/-- The parts in the slots of a defragger that a last part has filled. -/
theorem Gathers.assembled (h : Gathers got (d.store m))
    (full : (d.store m).count.toNat = (d.store m).frags.length) {data : Bytes}
    (assembled : assemble (d.store m).frags = some data) :
    ∃ parts, Assembled got { m with data, fragID := 0, fragCount := 1 } parts := by
  obtain ⟨parts, hparts⟩ := h.tidy.exists_parts full
  have hheld : ∀ f ∈ parts, some f ∈ (d.store m).frags := by
    intro f hf
    rw [hparts]
    exact List.mem_map_of_mem hf
  have hslot : ∀ (i : Nat) f, parts[i]? = some f → (d.store m).frags[i]? = some (some f) := by
    intro i f hf
    rw [hparts, List.getElem?_map, hf, Option.map_some]
  have hself : some m ∈ (d.store m).frags := List.mem_set (Table.lt_length empty) _
  rw [hparts, assemble_map_some] at assembled
  refine ⟨parts, ?_, ?_, ?_, ?_, (Option.some.inj assembled).symm⟩
  · intro f hf
    obtain ⟨i, hi⟩ := List.mem_iff_getElem?.mp hf
    exact (h.source i f (hslot i f hi)).1
  · apply List.ext_getElem (by simp)
    intro i hi _
    have hilt : i < parts.length := by simpa using hi
    have hnumber := (h.source i parts[i] (hslot i _ (List.getElem?_eq_getElem hilt))).2
    simpa using hnumber
  · intro f hf
    exact (h.agree f m (hheld f hf) hself).1
  · intro f hf
    obtain ⟨lead, hlead, hsize⟩ := h.size (List.ne_nil_of_mem hself)
    rw [(h.agree f lead (hheld f hf) hlead).2, hsize, hparts, List.length_map]

end

/-- A call of `Feed` for a coherent message keeps the invariant, and what it returns for a
part is one message. -/
theorem Gathers.fed (h : Gathers got d)
    (same : d.Continues m → ∀ f, some f ∈ d.frags → f.header = m.header ∧ f.fragCount = m.fragCount)
    (hfed : Fed d m d' out) :
    Gathers (got ++ [m]) d' ∧
      (1 < m.fragCount → ∀ o, out = some o → ∃ parts, Assembled (got ++ [m]) o parts) := by
  cases hfed with
  | whole hwhole =>
    exact ⟨h.mono [m], fun hcount => absurd hwhole (UInt8.not_le.mpr hcount)⟩
  | invalid | again => exact ⟨h.mono [m], nofun⟩
  | first part => exact ⟨gathers_begin part, nofun⟩
  | part continues empty => exact ⟨h.store empty (same continues), nofun⟩
  | last data continues empty full assembled =>
    have hstore := h.store empty (same continues)
    refine ⟨hstore, fun _ o ho => ?_⟩
    cases ho
    exact hstore.assembled empty full assembled

theorem received_append (past : List Bytes) (datagram : Bytes) :
    received (past ++ [datagram]) =
      received past ++ (unpack datagram).toOption.toList := by
  rw [received, List.filterMap_append, List.filterMap_cons]
  cases unpack datagram <;> rfl

section

variable {past : List Bytes} {datagram : Bytes} (h : Gathers (received past) d)
variable (coherent : d.Coherent datagram)
include h coherent

/-- A coherent datagram is received without a panic. -/
theorem Gathers.receive : ∃ d' out, d.receive datagram = some (d', out) ∧
      Gathers (received (past ++ [datagram])) d' ∧
      ∀ m, unpack datagram = .ok m → 1 < m.fragCount → ∀ o, out = some o →
        ∃ parts, Assembled (received (past ++ [datagram])) o parts := by
  rw [received_append]
  unfold Defragger.receive
  cases hunpack : unpack datagram with
  | error e =>
    refine ⟨d, none, rfl, ?_, nofun⟩
    exact h.mono []
  | ok m =>
    have hcoherent := coherent m (by rw [hunpack]; rfl)
    have hsome : d.feed m ≠ none := by
      rw [ne_eq, h.tidy.feed_eq_none_iff]
      rintro ⟨continues, hout⟩
      exact absurd (hcoherent continues).1 (Nat.not_lt.mpr hout)
    obtain ⟨⟨d', out⟩, hfeed⟩ := Option.ne_none_iff_exists'.mp hsome
    obtain ⟨hgathers, hout⟩ :=
      h.fed (fun continues f hf => (hcoherent continues).2 _ hf f rfl) (feed_cases hfeed)
    refine ⟨d', out, hfeed, hgathers, ?_⟩
    rintro _ ⟨⟩
    exact hout

theorem Gathers.next :
    ∃ d', d.next datagram = some d' ∧ Gathers (received (past ++ [datagram])) d' := by
  obtain ⟨d', out, hreceive, hgathers, -⟩ := h.receive coherent
  exact ⟨d', by rw [Defragger.next, hreceive, Option.map_some], hgathers⟩

end

theorem exists_run_of_coherent {datagrams : List Bytes}
    (coherent : Guarded Defragger.next Coherent {} datagrams) :
    ∃ d, run Defragger.next {} datagrams = some d ∧ Gathers (received datagrams) d := by
  have start : Gathers (received []) {} := ⟨⟨rfl, by decide⟩, nofun, absurd rfl, nofun⟩
  exact guarded_run (P := fun past d => Gathers (received past) d)
    (fun _ _ _ h hcoherent => h.next hcoherent) start coherent

end Defragger

/-! ## The parts of a split message -/

/-- The parts `fragUDPMessage` makes of a message that is too large. -/
structure Split (m : UDPMessage) (frags : List UDPMessage) : Prop where
  many : 2 ≤ frags.length
  part : ∀ (i : Nat) f, frags[i]? = some f → f.header = m.header ∧ f.fragID = UInt8.ofNat i ∧
    f.fragCount = UInt8.ofNat frags.length
  data : frags.flatMap data = m.data

/-- Parts with these data, numbered from `fragID` on. -/
def numbered (m : UDPMessage) (fragCount fragID : UInt8) (pieces : List Bytes) : List UDPMessage :=
  pieces.mapIdx fun i data => { m with fragID := fragID + UInt8.ofNat i, fragCount, data }

theorem numbered_cons (m : UDPMessage) (fragCount fragID : UInt8) (piece : Bytes)
    (pieces : List Bytes) : numbered m fragCount fragID (piece :: pieces) =
      { m with fragID, fragCount, data := piece } :: numbered m fragCount (fragID + 1) pieces := by
  have hshift : ∀ i : Nat, fragID + UInt8.ofNat (i + 1) = fragID + 1 + UInt8.ofNat i := by
    intro i
    rw [UInt8.ofNat_add, UInt8.add_assoc, UInt8.add_comm (UInt8.ofNat i)]
    rfl
  have hzero : fragID + UInt8.ofNat 0 = fragID := UInt8.add_zero fragID
  simp only [numbered, List.mapIdx_cons, hzero, hshift]

theorem fragLoop_eq (m : UDPMessage) (hsize : 0 < size) (fragCount : UInt8) (fuel : Nat)
    (fragID : UInt8) (payload : Bytes) (hfuel : payload.length ≤ fuel) :
    fragLoop m size fragCount fuel fragID payload =
      some (numbered m fragCount fragID (Chunks.piecesLoop size fuel payload)) := by
  fun_induction Chunks.piecesLoop size fuel payload generalizing fragID with
  | case1 payload =>
    rw [List.eq_nil_of_length_eq_zero (Nat.le_zero.mp hfuel)]
    rfl
  | case2 fuel => cases fuel <;> rfl
  | case3 fuel payload hne ih =>
    have hmin : (min (payload.length : Int) size).toNat = min size payload.length := by omega
    have hdrop : (payload.drop size).length ≤ fuel := by
      rw [List.length_drop]
      omega
    obtain ⟨byte, rest, rfl⟩ := List.exists_cons_of_ne_nil hne
    rw [fragLoop, if_neg (by omega), hmin, ← List.take_eq_take_min, ← List.drop_eq_drop_min,
      ih _ hdrop, numbered_cons]
    rfl

theorem ofInt_natCast (n : Nat) : UInt8.ofInt (n : Int) = UInt8.ofNat n := by
  apply UInt8.toNat_inj.mp
  rw [UInt8.ofInt, UInt8.toNat_ofNat', UInt8.toNat_ofNat']
  omega

/-- The count of parts is the number of pieces of the payload, in eight bits. -/
theorem fragCount_eq (hsize : 0 < size) (payload : Bytes) :
    UInt8.ofInt ((payload.length + (size : Int) - 1).tdiv size) =
      UInt8.ofNat (Chunks.pieces size payload).length := by
  have hcast : (payload.length + (size : Int) - 1) = ((payload.length + size - 1 : Nat) : Int) := by
    omega
  rw [hcast, ← Int.ofNat_tdiv, ofInt_natCast, Chunks.pieces,
    Chunks.length_piecesLoop hsize (Nat.le_refl _)]

theorem split_numbered (hsize : 0 < size) (hlarge : size < m.data.length) :
    Split m (numbered m (UInt8.ofNat (Chunks.pieces size m.data).length) 0
      (Chunks.pieces size m.data)) := by
  have hlength : (Chunks.pieces size m.data).length = (m.data.length + size - 1) / size :=
    Chunks.length_piecesLoop hsize (Nat.le_refl _)
  refine ⟨?_, ?_, ?_⟩
  · rw [numbered, List.length_mapIdx, hlength, Nat.le_div_iff_mul_le hsize]
    omega
  · intro i f hf
    rw [numbered, List.getElem?_mapIdx] at hf
    obtain ⟨piece, -, rfl⟩ := Option.map_eq_some_iff.mp hf
    refine ⟨rfl, UInt8.zero_add _, ?_⟩
    rw [numbered, List.length_mapIdx]
  · have hdata : (numbered m (UInt8.ofNat (Chunks.pieces size m.data).length) 0
        (Chunks.pieces size m.data)).map data = Chunks.pieces size m.data := by
      apply List.ext_getElem (by simp [numbered])
      intro i _ _
      simp [numbered]
    rw [List.flatMap_def, hdata, Chunks.flatten_pieces hsize]

/-- What `fragUDPMessage` returns, if anything, for a message that is too large: its parts, or
nothing for an empty message whose header alone is too large. -/
theorem split_of_fragUDPMessage {maxSize : Int} {frags : List UDPMessage}
    (h : fragUDPMessage m maxSize = some frags) (hlarge : ¬(m.size : Int) ≤ maxSize)
    (hne : frags ≠ []) : Split m frags := by
  rw [fragUDPMessage, if_neg hlarge] at h
  split at h
  · cases h
  · next hzero =>
    rw [size] at hlarge
    rcases Int.lt_or_gt_of_ne hzero with hneg | hpos
    · cases hdata : m.data with
      | nil =>
        rw [hdata] at h
        exact absurd (Option.some.inj h).symm hne
      | cons byte rest =>
        rw [hdata, List.length_cons, fragLoop] at h
        rw [if_pos (by omega)] at h
        cases h
    · obtain ⟨size, hsize⟩ := Int.eq_ofNat_of_zero_le (Int.le_of_lt hpos)
      have hsizePos : 0 < size := by omega
      rw [hsize, fragCount_eq hsizePos, fragLoop_eq m hsizePos _ _ _ _ (Nat.le_refl _)] at h
      cases h
      exact split_numbered hsizePos (by omega)

/-! ## Reassembly in any order -/

/-- The parts of a message that is split into few enough of them to be counted in eight bits. -/
structure Parts (m : UDPMessage) (frags : List UDPMessage) : Prop extends Split m frags where
  short : frags.length ≤ 255

namespace Parts

variable {frags : List UDPMessage}

section

variable (h : Parts m frags)
include h

theorem toNat_fragID {i : Nat} (hx : frags[i]? = some x) : x.fragID.toNat = i := by
  rw [(h.part i x hx).2.1]
  exact UInt8.toNat_ofNat_of_lt'
    (Nat.lt_of_lt_of_le (Table.lt_length hx) (Nat.le_succ_of_le h.short))

section

variable (hx : x ∈ frags)
include hx

theorem toNat_fragCount : x.fragCount.toNat = frags.length := by
  obtain ⟨i, hi⟩ := List.mem_iff_getElem?.mp hx
  rw [(h.part i x hi).2.2]
  exact UInt8.toNat_ofNat_of_lt' (Nat.lt_succ_of_le h.short)

theorem header : x.header = m.header := by
  obtain ⟨i, hi⟩ := List.mem_iff_getElem?.mp hx
  exact (h.part i x hi).1

theorem msgID : x.msgID = m.msgID :=
  congrArg (fun header => header.2.2.2) (h.header hx)

/-- A part sits in the slot of its number. -/
theorem slot : frags[x.fragID.toNat]? = some x := by
  obtain ⟨i, hi⟩ := List.mem_iff_getElem?.mp hx
  rwa [h.toNat_fragID hi]

end

theorem nodup : frags.Nodup := by
  rw [List.nodup_iff_injective_getElem]
  intro i j hij
  have hi := h.toNat_fragID (List.getElem?_eq_getElem i.isLt)
  have hj := h.toNat_fragID (List.getElem?_eq_getElem j.isLt)
  dsimp only at hij
  rw [hij] at hi
  exact Fin.ext (hi.symm.trans hj)

theorem isPart (hx : x ∈ frags) : x.IsPart := by
  have hcount := h.toNat_fragCount hx
  have hmany := h.many
  have hid := Table.lt_length (h.slot hx)
  refine ⟨UInt8.lt_iff_toNat_lt.mpr ?_, UInt8.lt_iff_toNat_lt.mpr ?_⟩
  · rw [hcount]
    exact hmany
  · omega

end

end Parts

namespace Defragger

variable {frags seen arrivals : List UDPMessage}

/-- The defragger after the parts `seen`, in any order, of a message split into `frags`. -/
def gathering (d : Defragger) (m : UDPMessage) (frags seen : List UDPMessage) : Defragger :=
  if seen = [] then d
  else { msgID := m.msgID, frags := Slots.holding frags seen, count := UInt8.ofNat seen.length }

theorem gathering_of_ne_nil (h : seen ≠ []) : gathering d m frags seen =
    { msgID := m.msgID, frags := Slots.holding frags seen, count := UInt8.ofNat seen.length } :=
  if_neg h

section

variable (h : Parts m frags) (hx : x ∈ frags)
include h hx

theorem begin_eq_gathering : begin x = gathering d m frags [x] := by
  have hslots := Slots.set_holding h.nodup (h.slot hx) []
  rw [gathering_of_ne_nil (List.cons_ne_nil x []), begin, h.msgID hx,
    h.toNat_fragCount hx, ← Slots.holding_nil, hslots]
  rfl

theorem store_gathering (hseen : seen ≠ []) :
    (gathering d m frags seen).store x = gathering d m frags (seen ++ [x]) := by
  rw [gathering_of_ne_nil hseen, gathering_of_ne_nil (by simp), store,
    Slots.set_holding h.nodup (h.slot hx), List.length_append, UInt8.ofNat_add]
  rfl

theorem continues_gathering (hseen : seen ≠ []) : (gathering d m frags seen).Continues x := by
  rw [gathering_of_ne_nil hseen]
  exact ⟨h.isPart hx, h.msgID hx⟩

theorem empty_gathering (hseen : seen ≠ []) (hnew : x ∉ seen) :
    (gathering d m frags seen).frags[x.fragID.toNat]? = some none := by
  rw [gathering_of_ne_nil hseen, Slots.getElem?_holding (h.slot hx), if_neg hnew]

end

/-- A part that is not the last one is stored. -/
theorem feed_gathering (h : Parts m frags)
    (hd : d.msgID ≠ m.msgID) (hx : x ∈ frags) (hnew : x ∉ seen)
    (hroom : seen.length + 1 < frags.length) :
    (gathering d m frags seen).feed x = some (gathering d m frags (seen ++ [x]), none) := by
  by_cases hseen : seen = []
  · subst hseen
    have hother : x.msgID ≠ d.msgID := by
      rw [h.msgID hx]
      exact hd.symm
    change d.feed x = _
    rw [feed_of_isPart (h.isPart hx), if_pos hother, begin_eq_gathering h hx]
    rfl
  · have hcount : (gathering d m frags (seen ++ [x])).count.toNat ≠
        (gathering d m frags (seen ++ [x])).frags.length := by
      rw [gathering_of_ne_nil (by simp), Slots.length_holding, List.length_append,
        List.length_singleton, UInt8.toNat_ofNat_of_lt']
      · omega
      · exact Nat.lt_of_lt_of_le hroom (Nat.le_succ_of_le h.short)
    rw [feed_of_empty (continues_gathering h hx hseen)
      (empty_gathering h hx hseen hnew), addPart, store_gathering h hx hseen,
      if_neg hcount]

/-- The last part completes the message. -/
theorem feed_gathering_last (h : Parts m frags)
    (hperm : (seen ++ [x]).Perm frags) :
    (gathering d m frags seen).feed x = some (gathering d m frags (seen ++ [x]),
      some { m with fragID := 0, fragCount := 1 }) := by
  have hx : x ∈ frags := hperm.mem_iff.mp List.mem_concat_self
  have hnew : x ∉ seen := by
    have hnodup := hperm.nodup_iff.mpr h.nodup
    exact fun hold => (List.nodup_append.mp hnodup).2.2 x hold x (List.mem_singleton_self x) rfl
  have hseen : seen ≠ [] := by
    rintro rfl
    have hlen := hperm.length_eq
    have hmany := h.many
    simp only [List.nil_append, List.length_singleton] at hlen
    omega
  have hall : (gathering d m frags (seen ++ [x])).frags = frags.map some := by
    rw [gathering_of_ne_nil (by simp)]
    exact Slots.holding_of_subset fun part hpart => hperm.mem_iff.mpr hpart
  have hcount : (gathering d m frags (seen ++ [x])).count.toNat =
      (gathering d m frags (seen ++ [x])).frags.length := by
    rw [hall, gathering_of_ne_nil (by simp), List.length_map, hperm.length_eq]
    exact UInt8.toNat_ofNat_of_lt' (Nat.lt_succ_of_le h.short)
  have hheader := h.header hx
  simp only [header, Prod.mk.injEq] at hheader
  obtain ⟨hsession, hhost, hport, hmsgID⟩ := hheader
  rw [feed_of_empty (continues_gathering h hx hseen)
    (empty_gathering h hx hseen hnew), addPart, store_gathering h hx hseen,
    if_pos hcount, hall, assemble_map_some, h.data, Option.map_some, hsession, hhost, hport, hmsgID]

/-- `Feed` for each of the messages. -/
def feedAll (d : Defragger) (arrivals : List UDPMessage) : Option Defragger :=
  run (fun d m => (d.feed m).map Prod.fst) d arrivals

theorem feedAll_cons (h : d.feed x = some (d', out)) :
    d.feedAll (x :: arrivals) = d'.feedAll arrivals :=
  run_cons_some (by rw [h, Option.map_some])

theorem feedAll_of_not_isPart (h : ∀ x ∈ arrivals, ¬x.IsPart) : d.feedAll arrivals = some d := by
  induction arrivals with
  | nil => rfl
  | cons x arrivals ih =>
    rw [List.forall_mem_cons] at h
    obtain ⟨out, hfeed⟩ := feed_of_not_isPart h.1
    rw [feedAll_cons hfeed, ih h.2]

/-- Before the last part, whatever is no part of the message leaves it alone. -/
theorem feedAll_gathering (h : Parts m frags) (hd : d.msgID ≠ m.msgID)
    (hparts : ∀ x ∈ arrivals, x.IsPart → x ∈ frags)
    (hnodup : (seen ++ arrivals.filter (·.IsPart)).Nodup)
    (hroom : (seen ++ arrivals.filter (·.IsPart)).length < frags.length) :
    (gathering d m frags seen).feedAll arrivals =
      some (gathering d m frags (seen ++ arrivals.filter (·.IsPart))) := by
  induction arrivals generalizing seen with
  | nil => rw [List.filter_nil, List.append_nil]; rfl
  | cons x arrivals ih =>
    have hrest : ∀ y ∈ arrivals, y.IsPart → y ∈ frags :=
      fun y hy => hparts y (List.mem_cons_of_mem x hy)
    by_cases hpart : x.IsPart
    · rw [List.filter_cons_of_pos (by simpa using hpart)] at hnodup hroom ⊢
      have hnew : x ∉ seen := fun hold =>
        (List.nodup_append.mp hnodup).2.2 x hold x List.mem_cons_self rfl
      have hless : seen.length + 1 < frags.length := by
        simp only [List.length_append, List.length_cons] at hroom
        omega
      rw [List.append_cons] at hnodup hroom ⊢
      rw [feedAll_cons (feed_gathering h hd (hparts x List.mem_cons_self hpart) hnew
        hless), ih hrest hnodup hroom]
    · rw [List.filter_cons_of_neg (by simpa using hpart)] at hnodup hroom ⊢
      obtain ⟨out, hfeed⟩ := feed_of_not_isPart hpart
      rw [feedAll_cons hfeed, ih hrest hnodup hroom]

/-- `Feed` returns `m` when the last of its parts arrives. They arrive in any order, with
any messages that are no parts among them. -/
def Reassembles (d : Defragger) (m : UDPMessage) : Prop :=
  ∀ (maxSize : Int) (frags others earlier : List UDPMessage) (last : UDPMessage),
    fragUDPMessage m maxSize = some frags → frags.length ≤ 255 →
    (∀ other ∈ others, ¬other.IsPart) → (earlier ++ [last]).Perm (frags ++ others) →
    last ∈ frags →
    ∃ d' d'', d.feedAll earlier = some d' ∧ d'.feed last = some (d'', some m)

theorem reassembles_of_ne (hd : d.msgID ≠ m.msgID) (hid : m.fragID = 0) (hcount : m.fragCount = 1) :
    d.Reassembles m := by
  intro maxSize frags others earlier last hfrag hlength hothers hperm hlast
  by_cases hsize : (m.size : Int) ≤ maxSize
  · rw [fragUDPMessage, if_pos hsize] at hfrag
    cases hfrag
    obtain rfl := List.mem_singleton.mp hlast
    have hearlier : earlier.Perm others :=
      List.Perm.cons_inv ((List.perm_append_singleton last earlier).symm.trans hperm)
    refine ⟨d, d, feedAll_of_not_isPart fun x hx => hothers x (hearlier.mem_iff.mp hx), ?_⟩
    rw [feed, if_pos (UInt8.le_of_eq hcount)]
  · have hsplit : Parts m frags :=
      ⟨split_of_fragUDPMessage hfrag hsize (List.ne_nil_of_mem hlast), hlength⟩
    have hparts : ((earlier ++ [last]).filter (·.IsPart)).Perm frags := by
      have hfilter := hperm.filter (fun x => decide x.IsPart)
      have hfrags : frags.filter (·.IsPart) = frags :=
        List.filter_eq_self.mpr fun x hx => decide_eq_true (hsplit.isPart hx)
      have hnone : others.filter (·.IsPart) = [] :=
        List.filter_eq_nil_iff.mpr (by simpa using hothers)
      rwa [List.filter_append frags others, hfrags, hnone, List.append_nil] at hfilter
    have hlastPart := hsplit.isPart hlast
    rw [List.filter_append, List.filter_cons_of_pos (by simpa using hlastPart)] at hparts
    have hearlier : ∀ x ∈ earlier, x.IsPart → x ∈ frags := by
      intro x hx hpart
      have hmem : x ∈ frags ++ others := hperm.mem_iff.mp (List.mem_append_left [last] hx)
      rcases List.mem_append.mp hmem with hfrags | hother
      · exact hfrags
      · exact absurd hpart (hothers x hother)
    have hnodup : (earlier.filter (·.IsPart)).Nodup :=
      (List.nodup_append.mp (hparts.nodup_iff.mpr hsplit.nodup)).1
    have hroom : (earlier.filter (·.IsPart)).length < frags.length := by
      rw [← hparts.length_eq, List.length_append]
      exact Nat.lt_succ_self _
    have hrun : (gathering d m frags []).feedAll earlier =
        some (gathering d m frags (earlier.filter (·.IsPart))) :=
      feedAll_gathering hsplit hd hearlier hnodup hroom
    have hwhole : { m with fragID := 0, fragCount := 1 } = m := by
      rw [← hid, ← hcount]
    have hfeed := feed_gathering_last (d := d) hsplit hparts
    rw [hwhole] at hfeed
    exact ⟨_, _, hrun, hfeed⟩

/-- Coherent datagrams are received without a panic, and what is returned for parts is one
message put together; a message whose id is not that of the defragger is put together from
its parts. -/
theorem defragger_exact (datagrams : List Bytes)
    (coherent : Guarded Defragger.next Coherent {} datagrams) :
    (∃ d, run Defragger.next {} datagrams = some d) ∧
    (∀ (past rest : List Bytes) (datagram : Bytes) (d d' : Defragger) (m out : UDPMessage),
      datagrams = past ++ datagram :: rest → run Defragger.next {} past = some d →
      unpack datagram = .ok m → 1 < m.fragCount →
      d.receive datagram = some (d', some out) →
      ∃ parts, Assembled (received (past ++ [datagram])) out parts) ∧
    ∀ (d : Defragger) (m : UDPMessage), d.msgID ≠ m.msgID → m.fragID = 0 → m.fragCount = 1 →
      d.Reassembles m := by
  refine ⟨?_, ?_, fun d m => reassembles_of_ne⟩
  · obtain ⟨d, hrun, -⟩ := exists_run_of_coherent coherent
    exact ⟨d, hrun⟩
  · rintro past rest datagram d d' m out rfl hpast hunpack hcount hreceive
    obtain ⟨hguarded, hstep⟩ := guarded_append.mp coherent
    obtain ⟨_, hrun, hgathers⟩ := exists_run_of_coherent hguarded
    obtain rfl := Option.some.inj (hpast.symm.trans hrun)
    obtain ⟨_, _, hsome, -, hout⟩ := hgathers.receive (hstep d hpast).1
    cases hreceive.symm.trans hsome
    exact hout m hunpack hcount out rfl

/-- A message of session `session` in two parts, of which this is part `fragID`. -/
def partOf (session : UInt32) (msgID : UInt16) (fragID byte : UInt8) : UDPMessage :=
  { sessionID := session, host := [104], port := 53, msgID, fragID, fragCount := 2, data := [byte] }

/-- Two parts that arrive in the wrong order. -/
theorem defragger_exact_swapped :
    (∃ d, run Defragger.next {} [(partOf 1 7 1 20).pack, (partOf 1 7 0 10).pack] = some d) ∧
    ∃ d' d'', feedAll {} [partOf 1 7 1 20] = some d' ∧ d'.feed (partOf 1 7 0 10) =
      some (d'', some { partOf 1 7 0 10 with fragCount := 1, data := [10, 20] }) := by
  have hexact := defragger_exact [(partOf 1 7 1 20).pack, (partOf 1 7 0 10).pack] (by decide)
  refine ⟨hexact.1, ?_⟩
  exact hexact.2.2 {} { partOf 1 7 0 10 with fragCount := 1, data := [10, 20] } (by decide)
    (by decide) (by decide) 16 [partOf 1 7 0 10, partOf 1 7 1 20] [] _ _ (by decide) (by decide)
    (by decide) (by decide) (by decide)

/-- The first part a client receives makes it panic if its message id is 0, and so does a part
that says it is one of more than the first part said. Parts of two sessions are put together if
they have the same message id. A message in two parts is lost if its id is that of the last one. -/
theorem feed_defects :
    receive {} (partOf 1 0 0 10).pack = none ∧
    run Defragger.next {} [(partOf 1 7 0 10).pack,
      { partOf 1 7 2 20 with fragCount := 3 }.pack] = none ∧
    (run Defragger.next {} [(partOf 1 7 0 10).pack] = some (begin (partOf 1 7 0 10)) ∧
      ((begin (partOf 1 7 0 10)).receive (partOf 2 7 1 20).pack).map Prod.snd =
        some (some { partOf 2 7 0 0 with fragCount := 1, data := [10, 20] })) ∧
    run Defragger.next {} [(partOf 1 7 0 10).pack, (partOf 1 7 1 20).pack] =
      some ((begin (partOf 1 7 0 10)).store (partOf 1 7 1 20)) ∧
    ((begin (partOf 1 7 0 10)).store (partOf 1 7 1 20)).receive (partOf 1 7 0 30).pack =
      some ((begin (partOf 1 7 0 10)).store (partOf 1 7 1 20), none) ∧
    ((begin (partOf 1 7 0 10)).store (partOf 1 7 1 20)).receive (partOf 1 7 1 40).pack =
      some ((begin (partOf 1 7 0 10)).store (partOf 1 7 1 20), none) := by
  refine ⟨?_, ?_, ⟨?_, ?_⟩, ?_, ?_, ?_⟩ <;> decide

end Defragger

end Hysteria
