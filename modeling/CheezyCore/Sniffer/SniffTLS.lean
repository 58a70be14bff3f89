import CheezyCore.Sniffer.ClientHello

/-!
# Sniffing a TLS stream

`SniffTLS` collects the payloads of the handshake records at the start of a stream and reads
the ClientHello in them. Where the ClientHello needs more bytes and the last record is not
complete, the number of bytes it needs is turned into a length of the stream, which does not go
beyond the record: after it comes another header.
-/

namespace Sniffer

open PrefixDecision

def tlsRecordHeaderLen : Nat := 5
def tlsRecordTypeHandshake : UInt8 := 0x16
def tlsMaxPlaintext : Nat := 2 ^ 14

/-- `IsValidTLSVersion`; the minor version is not looked at. -/
def isValidTLSVersion (major _minor : UInt8) : Bool := major = 3

/-- The end of what has arrived of a record. -/
def payloadEnd (b : Bytes) (payloadOffset recordEnd : Nat) : Nat :=
  max payloadOffset (min b.length recordEnd)

def payload (b : Bytes) (payloadOffset recordEnd : Nat) : Bytes :=
  (b.drop payloadOffset).take (payloadEnd b payloadOffset recordEnd - payloadOffset)

/-- `clientHello` with what has arrived of the record at `wireOffset`. -/
def appendPayload (b : Bytes) (wireOffset recordEnd : Nat) (clientHello : Bytes) : Bytes :=
  if wireOffset = 0 then payload b (wireOffset + tlsRecordHeaderLen) recordEnd
  else clientHello ++ payload b (wireOffset + tlsRecordHeaderLen) recordEnd

/-- The length of the record at `wireOffset`, whose header has arrived. -/
def readRecordHeader (wireOffset : Nat) : Sniff Nat := do
  require (wireOffset + tlsRecordHeaderLen)
  let type ← byteAt wireOffset
  let major ← byteAt (wireOffset + 1)
  let minor ← byteAt (wireOffset + 2)
  check (type = tlsRecordTypeHandshake ∧ isValidTLSVersion major minor) .notTLS
  let recordLen ← wordAt (wireOffset + 3)
  check (recordLen ≤ tlsMaxPlaintext) .notTLS
  check (recordLen ≠ 0) .notClientHello
  return recordLen

/-- The length of the stream at which a ClientHello has `length` bytes, or its record ends. -/
def wireLength (payloadEnd recordEnd helloLen length : Nat) : Nat :=
  payloadEnd + min (length - helloLen) (recordEnd - payloadEnd)

/-- After a ClientHello that needs `length` bytes: more bytes of the record, or the next record. -/
def sniffOn (wireOffset recordEnd : Nat) (hello : Bytes) (next : Nat → Bytes → Sniff Bytes)
    (length : Nat) : Sniff Bytes := fun b =>
  if payloadEnd b (wireOffset + tlsRecordHeaderLen) recordEnd < recordEnd then
    .error (.need (wireLength (payloadEnd b (wireOffset + tlsRecordHeaderLen) recordEnd) recordEnd
      hello.length length))
  else next recordEnd hello b

/-- The verdict on what has arrived of the ClientHello, if there is one yet. -/
def sniffRecord (wireOffset recordEnd : Nat) (hello : Bytes) (next : Nat → Bytes → Sniff Bytes) :
    Sniff Bytes :=
  match readClientHello hello with
  | .error (.need length) => sniffOn wireOffset recordEnd hello next length
  | verdict => fun _ => verdict

/-- The loop over the records. -/
def sniffRecords : Nat → Nat → Bytes → Sniff Bytes
  | 0, _, _ => diverge
  | fuel + 1, wireOffset, clientHello => do
      let recordLen ← readRecordHeader wireOffset
      let b ← read
      sniffRecord wireOffset (wireOffset + tlsRecordHeaderLen + recordLen)
        (appendPayload b wireOffset (wireOffset + tlsRecordHeaderLen + recordLen) clientHello)
        (sniffRecords fuel)

/-- Every round takes a record of at least one byte off the stream. -/
def sniffTLS : Sniff Bytes := fun b => sniffRecords (b.length + 1) 0 [] b

/-! ## Records -/

section Records

variable {b more clientHello : Bytes} {wireOffset payloadOffset recordEnd recordLen : Nat}

section

variable (hheader : payloadOffset ≤ b.length)
include hheader

theorem payloadEnd_of_le (hend : b.length ≤ recordEnd) :
    payloadEnd b payloadOffset recordEnd = b.length := by
  unfold payloadEnd
  omega

/-- More bytes of the stream after the end of a record. -/
theorem payload_of_le (hend : recordEnd ≤ b.length) :
    payload (b ++ more) payloadOffset recordEnd = payload b payloadOffset recordEnd := by
  have hlater : recordEnd ≤ (b ++ more).length := by
    rw [List.length_append]
    omega
  rw [payload, payload, payloadEnd, payloadEnd, Nat.min_eq_right hend, Nat.min_eq_right hlater,
    List.drop_append_of_le_length hheader, List.take_append_of_le_length]
  rw [List.length_drop]
  omega

theorem payload_eq_drop (hend : b.length ≤ recordEnd) :
    payload b payloadOffset recordEnd = b.drop payloadOffset := by
  rw [payload, payloadEnd_of_le hheader hend, ← List.length_drop, List.take_length]

/-- More bytes of a record that is not complete. -/
theorem payload_of_lt (hend : b.length < recordEnd) : payload (b ++ more) payloadOffset recordEnd =
      payload b payloadOffset recordEnd ++ more.take (recordEnd - b.length) := by
  rw [payload_eq_drop hheader (Nat.le_of_lt hend)]
  rcases Nat.le_total (b ++ more).length recordEnd with hle | hle
  · have hmore : more.length ≤ recordEnd - b.length := by
      rw [List.length_append] at hle
      omega
    rw [payload_eq_drop (by rw [List.length_append]; omega) hle,
      List.drop_append_of_le_length hheader, List.take_of_length_le hmore]
  · rw [payload, payloadEnd, List.drop_append_of_le_length hheader, List.take_append,
      List.length_drop, List.take_of_length_le]
    · congr 2
      omega
    · rw [List.length_drop]
      omega

end

section

variable (hheader : wireOffset + tlsRecordHeaderLen ≤ b.length)
include hheader

theorem appendPayload_of_le (hend : recordEnd ≤ b.length) :
    appendPayload (b ++ more) wireOffset recordEnd clientHello =
      appendPayload b wireOffset recordEnd clientHello := by
  rw [appendPayload, appendPayload, payload_of_le hheader hend]

theorem appendPayload_of_lt (hend : b.length < recordEnd) :
    appendPayload (b ++ more) wireOffset recordEnd clientHello =
      appendPayload b wireOffset recordEnd clientHello ++ more.take (recordEnd - b.length) := by
  rw [appendPayload, appendPayload, payload_of_lt hheader hend]
  split
  · rfl
  · rw [List.append_assoc]

end

theorem le_of_readRecordHeader (h : readRecordHeader wireOffset b = .ok recordLen) :
    wireOffset + tlsRecordHeaderLen ≤ b.length ∧ recordLen ≠ 0 := by
  simp only [readRecordHeader, bind_eq_ok] at h
  obtain ⟨_, hrequire, _, -, _, -, _, -, _, -, len, -, _, -, _, hcheck, ⟨⟩⟩ := h
  refine ⟨le_of_require hrequire, ?_⟩
  rintro rfl
  cases hcheck

theorem readRecordHeader_stable (wireOffset : Nat) : Stable (readRecordHeader wireOffset) := by
  refine .require trivial ?_
  have hheader : tlsRecordHeaderLen = 5 := rfl
  refine (stableFrom_byteAt (by omega)).bind fun _ _ _ => ?_
  refine (stableFrom_byteAt (by omega)).bind fun _ _ _ => ?_
  refine (stableFrom_byteAt (by omega)).bind fun _ _ _ => ?_
  refine .check fun _ => (stableFrom_wordAt (by omega)).bind fun _ _ _ => ?_
  exact .check fun _ => .check fun _ => stableFrom_pure _

end Records

/-! ## Stability -/

section Stability

variable {b more clientHello hello : Bytes} {wireOffset recordEnd : Nat}
  {next : Nat → Bytes → Sniff Bytes}

theorem sniffRecord_of_need {length : Nat} (h : readClientHello hello = .error (.need length)) :
    sniffRecord wireOffset recordEnd hello next =
      sniffOn wireOffset recordEnd hello next length := by
  rw [sniffRecord, h]

theorem sniffRecord_of_ok {name : Bytes} (h : readClientHello hello = .ok name) (b : Bytes) :
    sniffRecord wireOffset recordEnd hello next b = .ok name := by
  rw [sniffRecord, h]

theorem sniffRecord_of_verdict {e : SniffError}
    (h : readClientHello hello = .error (.verdict e)) (b : Bytes) :
    sniffRecord wireOffset recordEnd hello next b = .error (.verdict e) := by
  rw [sniffRecord, h]

/-- `AgreesAt` for the record at `wireOffset`, with the ClientHello collected before it. -/
abbrev RecordAgrees (wireOffset recordEnd : Nat) (clientHello : Bytes)
    (next : Nat → Bytes → Sniff Bytes) : Bytes → Bytes → Prop :=
  AgreesAt (fun _ => True) fun b =>
    sniffRecord wireOffset recordEnd (appendPayload b wireOffset recordEnd clientHello) next b

section

variable (hheader : wireOffset + tlsRecordHeaderLen ≤ b.length)
include hheader

/-- A complete record is not changed by what follows it. -/
theorem recordAgrees_of_le (hend : recordEnd ≤ b.length)
    (hnext : ∀ hello, AgreesAt (fun _ => True) (next recordEnd hello) b more) :
    RecordAgrees wireOffset recordEnd clientHello next b more := by
  unfold RecordAgrees AgreesAt
  dsimp only
  rw [appendPayload_of_le hheader hend]
  generalize appendPayload b wireOffset recordEnd clientHello = hello
  have hstable := readClientHello_stable hello [] (Nat.zero_le _)
  unfold AgreesAt at hstable
  cases hread : readClientHello hello with
  | ok name =>
    rw [sniffRecord_of_ok hread, sniffRecord_of_ok hread]
    rfl
  | error stop =>
    cases stop with
    | verdict e =>
      rw [sniffRecord_of_verdict hread, sniffRecord_of_verdict hread]
      rfl
    | panic =>
      rw [hread] at hstable
      exact hstable.elim
    | need length =>
      have hfull : ∀ more, sniffOn wireOffset recordEnd hello next length (b ++ more) =
          next recordEnd hello (b ++ more) := by
        intro more
        refine if_neg ?_
        unfold payloadEnd
        rw [List.length_append]
        omega
      have hnow := hfull []
      rw [List.append_nil] at hnow
      rw [sniffRecord_of_need hread, hnow, hfull more]
      exact hnext hello

/-- A verdict on a part of a record holds for the record, and the length that is asked for is
needed. -/
theorem recordAgrees_of_lt (hend : b.length < recordEnd) :
    RecordAgrees wireOffset recordEnd clientHello next b more := by
  unfold RecordAgrees AgreesAt
  dsimp only
  rw [appendPayload_of_lt hheader hend]
  generalize appendPayload b wireOffset recordEnd clientHello = hello
  have hstable := readClientHello_stable hello (more.take (recordEnd - b.length)) (Nat.zero_le _)
  unfold AgreesAt at hstable
  cases hread : readClientHello hello with
  | ok name =>
    rw [hread] at hstable
    rw [sniffRecord_of_ok hread, sniffRecord_of_ok hstable]
    rfl
  | error stop =>
    rw [hread] at hstable
    cases stop with
    | verdict e =>
      rw [sniffRecord_of_verdict hread, sniffRecord_of_verdict hstable]
      rfl
    | panic => exact hstable.elim
    | need length =>
      obtain ⟨-, hmissing, hneeded⟩ := hstable
      have hlength : sniffRecord wireOffset recordEnd hello next b =
          .error (.need (wireLength b.length recordEnd hello.length length)) := by
        rw [sniffRecord_of_need hread, sniffOn,
          payloadEnd_of_le hheader (Nat.le_of_lt hend), if_pos hend]
      rw [hlength]
      unfold wireLength
      refine ⟨trivial, by omega, fun hshort => ?_⟩
      rw [List.length_append] at hshort
      rw [List.take_of_length_le (by omega)] at hneeded ⊢
      obtain ⟨length', hlater⟩ := hneeded (by rw [List.length_append]; omega)
      have hpart : (b ++ more).length < recordEnd := by
        rw [List.length_append]
        omega
      refine ⟨wireLength (b ++ more).length recordEnd (hello ++ more).length length', ?_⟩
      rw [sniffRecord_of_need hlater, sniffOn, payloadEnd_of_le _ (Nat.le_of_lt hpart),
        if_pos hpart]
      rw [List.length_append]
      omega

end

theorem sniffRecords_succ (fuel wireOffset : Nat) (clientHello : Bytes) :
    sniffRecords (fuel + 1) wireOffset clientHello = readRecordHeader wireOffset >>=
      fun recordLen b =>
      sniffRecord wireOffset (wireOffset + tlsRecordHeaderLen + recordLen)
        (appendPayload b wireOffset (wireOffset + tlsRecordHeaderLen + recordLen) clientHello)
        (sniffRecords fuel) b := rfl

/-- The loop is stable as long as the rounds suffice for the longer of the two streams. -/
theorem sniffRecords_agrees {fuel : Nat} (hstart : wireOffset ≤ b.length)
    (hfuel : (b ++ more).length < wireOffset + fuel) :
    AgreesAt (fun _ => True) (sniffRecords fuel wireOffset clientHello) b more := by
  induction fuel generalizing wireOffset clientHello with
  | zero =>
    rw [List.length_append] at hfuel
    omega
  | succ fuel ih =>
    refine AgreesAt.bind (readRecordHeader_stable wireOffset b more (Nat.zero_le _)) ?_
    intro recordLen hrecord
    obtain ⟨hheader, hpos⟩ := le_of_readRecordHeader hrecord
    rcases Nat.lt_or_ge b.length (wireOffset + tlsRecordHeaderLen + recordLen) with hlt | hle
    · exact recordAgrees_of_lt hheader hlt
    · exact recordAgrees_of_le hheader hle fun hello => ih hle (by omega)

/-- A record depends on the loop after it only where it is complete. -/
theorem sniffRecord_congr {other : Nat → Bytes → Sniff Bytes}
    (hheader : wireOffset + tlsRecordHeaderLen ≤ b.length)
    (h : recordEnd ≤ b.length → next recordEnd hello b = other recordEnd hello b) :
    sniffRecord wireOffset recordEnd hello next b =
      sniffRecord wireOffset recordEnd hello other b := by
  cases hread : readClientHello hello with
  | ok name => rw [sniffRecord_of_ok hread, sniffRecord_of_ok hread]
  | error stop =>
    cases stop with
    | verdict e => rw [sniffRecord_of_verdict hread, sniffRecord_of_verdict hread]
    | panic => rw [sniffRecord, sniffRecord, hread]
    | need length =>
      rw [sniffRecord_of_need hread, sniffRecord_of_need hread, sniffOn, sniffOn]
      split
      · rfl
      · next hfull =>
        unfold payloadEnd at hfull
        exact h (by omega)

/-- More rounds than bytes change nothing. -/
theorem sniffRecords_fuel {fuel more : Nat} (hstart : wireOffset ≤ b.length)
    (hfuel : b.length < wireOffset + fuel) :
    sniffRecords (fuel + more) wireOffset clientHello b =
      sniffRecords fuel wireOffset clientHello b := by
  induction fuel generalizing wireOffset clientHello with
  | zero => omega
  | succ fuel ih =>
    rw [Nat.succ_add, sniffRecords_succ, sniffRecords_succ]
    cases hrecord : readRecordHeader wireOffset b with
    | error stop => rw [bind_apply_of_error hrecord, bind_apply_of_error hrecord]
    | ok recordLen =>
      obtain ⟨hheader, hpos⟩ := le_of_readRecordHeader hrecord
      rw [bind_apply_of_ok hrecord, bind_apply_of_ok hrecord]
      exact sniffRecord_congr hheader fun hend => ih hend (by omega)

theorem sniffTLS_stable : Stable sniffTLS := by
  intro b more _
  have hfuel : sniffTLS b = sniffRecords ((b ++ more).length + 1) 0 [] b := by
    rw [List.length_append, Nat.add_right_comm]
    exact (sniffRecords_fuel (Nat.zero_le _) (by omega)).symm
  unfold AgreesAt
  rw [hfuel]
  exact sniffRecords_agrees (Nat.zero_le _) (by omega)

end Stability

/-- The property of a verdict on `b` when `x` arrives after it. -/
structure VerdictHolds (sniff : Sniff Bytes) (b x : Bytes) : Prop where
  /-- A server name stays. -/
  name : ∀ serverName, sniff b = .ok serverName → sniff (b ++ x) = .ok serverName
  /-- An error other than the need for more data stays. -/
  error : ∀ e, sniff b = .error (.verdict e) → sniff (b ++ x) = .error (.verdict e)
  /-- What is asked for is more than there is, and less is not enough. -/
  need : ∀ length, sniff b = .error (.need length) → b.length < length ∧
    ((b ++ x).length < length → ∃ length', sniff (b ++ x) = .error (.need length'))
  returns : sniff b ≠ .error .panic

theorem verdictHolds_of_stable {sniff : Sniff Bytes} (h : Stable sniff) (b x : Bytes) :
    VerdictHolds sniff b x := by
  have hagrees := h b x (Nat.zero_le _)
  unfold AgreesAt at hagrees
  refine ⟨?_, ?_, ?_, ?_⟩
  · intro serverName hb
    rw [hb] at hagrees
    exact hagrees
  · intro e hb
    rw [hb] at hagrees
    exact hagrees
  · intro length hb
    rw [hb] at hagrees
    exact hagrees.2
  · intro hb
    rw [hb] at hagrees
    exact hagrees

/-- The verdicts on a stream and on a ClientHello hold whatever arrives next. -/
theorem sniff_verdicts_hold (b x : Bytes) :
    VerdictHolds sniffTLS b x ∧ VerdictHolds readClientHello b x :=
  ⟨verdictHolds_of_stable sniffTLS_stable b x, verdictHolds_of_stable readClientHello_stable b x⟩

end Sniffer
