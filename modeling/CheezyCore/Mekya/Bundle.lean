import CheezyCore.Foundation.ByteReader
import CheezyCore.Foundation.Stream

/-!
# Packets in request bodies

`runOnce` of a Mekya client fills the body of one request with the packets that `Write` accepted,
until a timer fires or a packet does not fit any more. That packet is kept for the next call, which
gives up when it does not fit there either. `Write` copies an empty packet to a nil slice, and a
nil slice that is kept counts as none.
-/

namespace Mekya

open BigEndian ByteReader

abbrev Bytes := List UInt8

def packetBundleOverhead : Nat := 2

def writePacketBundle (body packet : Bytes) : Option Bytes :=
  if 0xffff < packet.length then none
  else some (body ++ (putUint16 (UInt16.ofNat packet.length) ++ packet))

inductive ReadError where
  | eof
  | unexpectedEOF

instance : EndOfInput ReadError := ⟨.eof, .unexpectedEOF⟩

def readPacketBundle : Reader ReadError Bytes := do
  let length ← readUint16
  readFull length.toNat

/-- The format of a body. -/
def bundle : Framing UInt8 Bytes where
  Valid packet := packet.length < 2 ^ 16
  wire packet := putUint16 (UInt16.ofNat packet.length) ++ packet
  read input := (readPacketBundle.run input).toOption
  read_eq_some {input rest packet} := by
    have hok : readPacketBundle.run input = .ok (packet, rest) ↔ packet.length < 2 ^ 16 ∧
        input = putUint16 (UInt16.ofNat packet.length) ++ packet ++ rest := by
      simp only [readPacketBundle, run_bind_eq_ok, readUint16_eq_ok, readFull_eq_ok]
      constructor
      · rintro ⟨n, _, rfl, rfl, hn⟩
        rw [hn, UInt16.ofNat_toNat, List.append_assoc]
        exact ⟨n.toNat_lt, rfl⟩
      · rintro ⟨hlt, rfl⟩
        exact ⟨_, _, List.append_assoc _ _ _, rfl, (UInt16.toNat_ofNat_of_lt' hlt).symm⟩
    rw [← hok]
    cases readPacketBundle.run input with
    | error e | ok result => simp [Except.toOption]

/-- The packets that `readPacketBundle` returns until it fails. -/
def decode (body : Bytes) : List Bytes := (bundle.readAll body).1

/-- `writePacket`: the body if it returns true, and `nextWrite`. -/
def writePacket (max : Nat) (nextWrite body packet : Bytes) : Option Bytes × Bytes :=
  if 0 < max ∧ max < body.length + (packetBundleOverhead + packet.length) then (none, packet)
  else (writePacketBundle body packet, nextWrite)

/-- The loop of `runOnce`, which receives at most `n` packets before the timer fires: the body,
`nextWrite` and the packets that stay in the channel. -/
def copyFromChan (max : Nat) : Nat → Bytes → List Bytes → Bytes × Bytes × List Bytes
  | n + 1, body, packet :: rest =>
    match writePacket max [] body packet with
    | (none, nextWrite) => (body, nextWrite, rest)
    | (some body, _) => copyFromChan max n body rest
  | _, body, packets => (body, [], packets)

/-- There is no body if the call returns without a request. -/
def runOnce (max n : Nat) (nextWrite : Bytes) (packets : List Bytes) :
    Option Bytes × Bytes × List Bytes :=
  if nextWrite = [] then (copyFromChan max n [] packets).map some id
  else
    match writePacket max nextWrite [] nextWrite with
    | (none, nextWrite) => (none, nextWrite, packets)
    | (some body, _) => (copyFromChan max n body packets).map some id

/-- The bodies of successive calls, `nextWrite` and what is left of the packets that `Write`
accepted. A packet that comes late is one that no earlier call receives. -/
def keepRunning (max : Nat) :
    List Nat → Bytes → List Bytes → List Bytes × Bytes × List Bytes
  | [], nextWrite, packets => ([], nextWrite, packets)
  | n :: rounds, nextWrite, packets =>
    match runOnce max n nextWrite packets with
    | (body, nextWrite, packets) =>
      (keepRunning max rounds nextWrite packets).map (body.toList ++ ·) id

/-- A packet that a request has room for and that can be kept. An empty packet is carried like any
other if there is room when its turn comes; it is lost only if it has to be kept. -/
def Fits (max : Nat) (packet : Bytes) : Prop :=
  packet ≠ [] ∧ packet.length < 2 ^ 16 ∧ packetBundleOverhead + packet.length ≤ max

/-- The packets that are in no body yet. -/
def waiting (nextWrite : Bytes) (packets : List Bytes) : List Bytes :=
  if nextWrite = [] then packets else nextWrite :: packets

variable {max n : Nat} {body packet nextWrite : Bytes} {packets : List Bytes}

theorem length_wire : (bundle.wire packet).length = packetBundleOverhead + packet.length :=
  Nat.add_comm packet.length packetBundleOverhead

theorem writePacket_of_fits (fits : Fits max packet) :
    writePacket max nextWrite body packet =
      if (body ++ bundle.wire packet).length ≤ max then
        (some (body ++ bundle.wire packet), nextWrite)
      else (none, packet) := by
  obtain ⟨-, hlt, hle⟩ := fits
  have hpos : 0 < max := Nat.lt_of_lt_of_le (Nat.add_pos_left Nat.two_pos _) hle
  rw [writePacket, writePacketBundle, if_neg (Nat.not_lt.mpr (Nat.le_of_lt_succ hlt)),
    List.length_append, length_wire]
  simp only [hpos, true_and, ← Nat.not_le, ite_not]
  rfl

/-- The loop takes the next packets, and one at least if it may and the body is empty. -/
theorem copyFromChan_spec (n : Nat) (fits : ∀ packet ∈ packets, Fits max packet)
    (hle : body.length ≤ max) : ∃ more nextWrite rest,
      copyFromChan max n body packets = (body ++ bundle.stream more, nextWrite, rest) ∧
      (body ++ bundle.stream more).length ≤ max ∧ more ++ waiting nextWrite rest = packets ∧
      (0 < n → body = [] → 0 < more.length ∨ packets.length = 0) := by
  induction packets generalizing n body with
  | nil => exact ⟨[], [], [], by simp [copyFromChan], by simpa using hle, rfl, fun _ _ => .inr rfl⟩
  | cons packet packets ih =>
    rw [List.forall_mem_cons] at fits
    cases n with
    | zero => exact ⟨[], [], _, by simp [copyFromChan], by simpa using hle, rfl, nofun⟩
    | succ n =>
      rw [copyFromChan, writePacket_of_fits fits.1]
      by_cases hroom : (body ++ bundle.wire packet).length ≤ max
      · rw [if_pos hroom]
        obtain ⟨more, nextWrite, rest, hcopy, hmax, hpackets, -⟩ := ih n fits.2 hroom
        rw [List.append_assoc, ← bundle.stream_cons] at hcopy hmax
        exact ⟨packet :: more, nextWrite, rest, hcopy, hmax, congrArg _ hpackets,
          fun _ _ => .inl (Nat.succ_pos _)⟩
      · rw [if_neg hroom]
        refine ⟨[], packet, packets, by simp, by simpa using hle, if_neg fits.1.1, ?_⟩
        rintro - rfl
        exact absurd (length_wire ▸ fits.1.2.2) hroom

theorem runOnce_spec (n : Nat) (fits : ∀ packet ∈ waiting nextWrite packets, Fits max packet) :
    ∃ more nextWrite' rest,
      runOnce max n nextWrite packets = (some (bundle.stream more), nextWrite', rest) ∧
      (bundle.stream more).length ≤ max ∧
      more ++ waiting nextWrite' rest = waiting nextWrite packets ∧
      (0 < n → 0 < more.length ∨ (waiting nextWrite packets).length = 0) := by
  rw [waiting] at fits ⊢
  rw [runOnce]
  split at fits
  next hnil =>
    obtain ⟨more, _, _, hcopy, hmax, hpackets, hmore⟩ := @copyFromChan_spec max [] _ n fits
      (Nat.zero_le max)
    rw [if_pos hnil, if_pos hnil]
    exact ⟨more, _, _, congrArg (Prod.map some id) hcopy, hmax, hpackets, fun hn => hmore hn rfl⟩
  next hnil =>
    rw [List.forall_mem_cons] at fits
    have hle : ([] ++ bundle.wire nextWrite).length ≤ max := length_wire ▸ fits.1.2.2
    obtain ⟨more, _, _, hcopy, hmax, hpackets, -⟩ := copyFromChan_spec n fits.2 hle
    rw [if_neg hnil, if_neg hnil, writePacket_of_fits fits.1, if_pos hle]
    exact ⟨nextWrite :: more, _, _, congrArg (Prod.map some id) hcopy, hmax,
      congrArg _ hpackets, fun _ => .inl (Nat.succ_pos _)⟩

/-- Where all packets fit, the requests stay within their size and carry the packets in order.
As many calls as there are packets carry them all, unless the timer comes before the packets. -/
theorem requests_carry {rounds : List Nat}
    (fits : ∀ packet ∈ waiting nextWrite packets, Fits max packet) : ∃ bodies nextWrite' rest,
      keepRunning max rounds nextWrite packets = (bodies, nextWrite', rest) ∧
      (∀ body ∈ bodies, body.length ≤ max) ∧
      bodies.flatMap decode ++ waiting nextWrite' rest = waiting nextWrite packets ∧
      ((waiting nextWrite packets).length ≤ rounds.countP (0 < ·) →
        bodies.flatMap decode = waiting nextWrite packets) := by
  induction rounds generalizing nextWrite packets with
  | nil =>
    refine ⟨[], nextWrite, packets, rfl, nofun, rfl, fun hlength => ?_⟩
    exact (List.eq_nil_of_length_eq_zero (Nat.le_zero.mp hlength)).symm
  | cons n rounds ih =>
    obtain ⟨more, _, _, hrun, hmax, hmore, hsome⟩ := runOnce_spec n fits
    rw [← hmore, List.forall_mem_append] at fits
    obtain ⟨bodies, nextWrite', rest, hkeep, hle, hall, hlast⟩ := ih fits.2
    have hdecode : decode (bundle.stream more) = more := by
      have hread := bundle.readAll_stream_append (fun packet hpacket => (fits.1 packet hpacket).2.1)
        (fun _ _ => List.cons_ne_nil _ _) (b := []) rfl
      rw [List.append_nil] at hread
      exact congrArg Prod.fst hread
    refine ⟨bundle.stream more :: bodies, nextWrite', rest, by simp [keepRunning, hrun, hkeep],
      List.forall_mem_cons.mpr ⟨hmax, hle⟩, ?_, fun hlength => ?_⟩
    · rw [List.flatMap_cons, hdecode, List.append_assoc, hall, hmore]
    · rw [List.flatMap_cons, hdecode, hlast, hmore]
      have hcount := congrArg List.length hmore
      simp only [List.countP_cons, List.length_append, decide_eq_true_eq] at hlength hcount
      split at hlength <;> omega

/-- Two packets that need a request each. -/
theorem requests_carry_two : ∃ bodies nextWrite rest,
    keepRunning 4 [3, 3] [] [[7, 8], [9]] = (bodies, nextWrite, rest) ∧
      (∀ body ∈ bodies, body.length ≤ 4) ∧
      bodies.flatMap decode ++ waiting nextWrite rest = [[7, 8], [9]] ∧
      bodies.flatMap decode = [[7, 8], [9]] := by
  obtain ⟨bodies, nextWrite, rest, hrun, hmax, hall, hlast⟩ :=
    @requests_carry 4 [] [[7, 8], [9]] [3, 3] (by simp +decide [waiting, Fits])
  exact ⟨bodies, nextWrite, rest, hrun, hmax, hall, hlast (by decide)⟩

/-- A packet that fits into no request stays in front of the one behind it, however often
`runOnce` is called, and an empty packet that has to be kept is lost. -/
theorem keepRunning_stuck :
    (∀ rounds, keepRunning 4 rounds [1, 2, 3] [[9]] = ([], [1, 2, 3], [[9]])) ∧
      keepRunning 4 [1] [] [[1, 2, 3], [9]] = ([[]], [1, 2, 3], [[9]]) ∧
      keepRunning 4 [2, 2] [] [[7], []] = ([[0, 1, 7], []], [], []) := by
  refine ⟨fun rounds => ?_, rfl, rfl⟩
  induction rounds with
  | nil => rfl
  | cons n rounds ih => exact congrArg (Prod.map ([] ++ ·) id) ih

end Mekya
