import CheezyCore.Sniffer.Bitmap
import CheezyCore.Sniffer.ClientHello

/-!
# Reassembly of a CRYPTO stream

The CRYPTO frames of a QUIC connection carry pieces of one byte stream, in any order. They are
written into a buffer from a pool, whose other bytes are arbitrary, and `contiguousCryptoEnd` is
the length of the prefix that is complete. The server name is looked for in this prefix.
-/

namespace Sniffer

open PrefixDecision

def maxCryptoStreamOffset : Nat := 64 * 1024

inductive QuicError where
  /-- `io.ErrShortBuffer` -/
  | shortBuffer
  | sniff (e : SniffError)
  | panic
  deriving DecidableEq, Repr

/-- A frame, with the array that the pool gives if it is asked for one. -/
structure CryptoFrame where
  offset : Nat
  data : Bytes
  pooled : Bytes := []

/-- The first `len` bytes of the array are the buffer. -/
structure QuicPacketSender where
  array : Bytes := []
  len : Nat := 0
  receivedCryptoData : Bitmap := []
  contiguousCryptoEnd : Nat := 0
  closed : Bool := false

/-- `copy(array[offset:], data)` -/
def overwrite (array : Bytes) (offset : Nat) (data : Bytes) : Bytes :=
  array.take offset ++ data ++ array.drop (offset + data.length)

namespace QuicPacketSender

def buffer (q : QuicPacketSender) : Bytes := q.array.take q.len

/-- The buffer has at least `stop` bytes. An array from the pool may be longer. -/
def reserve (q : QuicPacketSender) (pooled : Bytes) (stop : Nat) : QuicPacketSender :=
  if q.array.length < stop then
    { q with
      array := overwrite (pooled ++ List.replicate (stop - pooled.length) 0) 0 q.buffer
      len := stop }
  else if q.len < stop then { q with len := stop }
  else q

def addCryptoData (q : QuicPacketSender) (f : CryptoFrame) : Except QuicError QuicPacketSender :=
  if f.data = [] then .ok q
  else if maxCryptoStreamOffset < f.offset ∨ maxCryptoStreamOffset - f.offset < f.data.length then
    .error .shortBuffer
  else if q.closed then .ok q
  else
    let stop := f.offset + f.data.length
    let q := q.reserve f.pooled stop
    match q.receivedCryptoData.setRange f.offset stop with
    | none => .error .panic
    | some receivedCryptoData =>
      let q := { q with array := overwrite q.array f.offset f.data, receivedCryptoData }
      -- other frames do not change the complete prefix
      if f.offset ≤ q.contiguousCryptoEnd ∧ q.contiguousCryptoEnd < stop then
        match receivedCryptoData.firstUnset q.contiguousCryptoEnd q.len with
        | none => .error .panic
        | some contiguousCryptoEnd => .ok { q with contiguousCryptoEnd }
      else .ok q

/-- The size that the header announces, where it is there, is not too large. -/
def checkSize (q : QuicPacketSender) : Except QuicError Unit :=
  if tlsHandshakeHeaderLen ≤ q.contiguousCryptoEnd then
    match clientHelloSize (q.buffer.take tlsHandshakeHeaderLen) with
    | .ok helloSize => if maxCryptoStreamOffset < helloSize then .error .shortBuffer else .ok ()
    | .error (.verdict e) => .error (.sniff e)
    | .error _ => .error .panic
  else .ok ()

/-- The server name; the empty one as long as it is not complete. -/
def tryAssemble (q : QuicPacketSender) : Except QuicError Bytes :=
  if q.closed ∨ q.contiguousCryptoEnd = 0 then .ok []
  else do
    q.checkSize
    match readClientHello (q.buffer.take q.contiguousCryptoEnd) with
    | .ok domain => .ok domain
    | .error (.need length) =>
      if maxCryptoStreamOffset < length then .error .shortBuffer else .ok []
    | .error (.verdict e) => .error (.sniff e)
    | .error .panic => .error .panic

end QuicPacketSender

/-! ## The state after some frames -/

/-- A frame carries the byte. -/
def Covered (frames : List CryptoFrame) (i : Nat) : Prop :=
  ∃ f ∈ frames, f.offset ≤ i ∧ i < f.offset + f.data.length

def CoveredPrefix (frames : List CryptoFrame) (n : Nat) : Prop := ∀ i < n, Covered frames i

structure Assembled (stream : Bytes) (frames : List CryptoFrame) (q : QuicPacketSender) : Prop where
  bits : ∀ i, q.receivedCryptoData.bit i = true ↔ Covered frames i
  bytes : ∀ i, Covered frames i → i < q.len ∧ q.array[i]? = stream[i]?
  room : q.len ≤ q.array.length
  covered : CoveredPrefix frames q.contiguousCryptoEnd
  missing : ¬ Covered frames q.contiguousCryptoEnd
  isOpen : q.closed = false

section Assembled

variable {stream array data : Bytes} {frames : List CryptoFrame} {q : QuicPacketSender}
  {f : CryptoFrame} {offset i n : Nat}

theorem covered_concat : Covered (frames ++ [f]) i ↔
    Covered frames i ∨ f.offset ≤ i ∧ i < f.offset + f.data.length := by
  simp [Covered]

theorem length_overwrite (h : offset + data.length ≤ array.length) :
    (overwrite array offset data).length = array.length := by
  simp only [overwrite, List.length_append, List.length_take, List.length_drop]
  omega

theorem getElem?_overwrite (h : offset + data.length ≤ array.length) (i : Nat) :
    (overwrite array offset data)[i]? =
      if offset ≤ i ∧ i < offset + data.length then data[i - offset]? else array[i]? := by
  have hoffset : (array.take offset).length = offset := by
    rw [List.length_take]
    omega
  rw [overwrite, List.append_assoc]
  rcases Nat.lt_or_ge i offset with hi | hi
  · rw [List.getElem?_append_left (by omega), List.getElem?_take_of_lt hi, if_neg (by omega)]
  · rw [List.getElem?_append_right (by omega), hoffset]
    rcases Nat.lt_or_ge (i - offset) data.length with hd | hd
    · rw [List.getElem?_append_left hd, if_pos (by omega)]
    · rw [List.getElem?_append_right hd, List.getElem?_drop, if_neg (by omega)]
      congr 1
      omega

/-- The bytes of a frame are those of the stream. -/
theorem getElem?_of_slice (h : f.data <+: stream.drop f.offset) (hstart : f.offset ≤ i)
    (hend : i < f.offset + f.data.length) : f.data[i - f.offset]? = stream[i]? := by
  obtain ⟨rest, hrest⟩ := h
  have hget : (f.data ++ rest)[i - f.offset]? = f.data[i - f.offset]? :=
    List.getElem?_append_left (by omega)
  rw [← hget, hrest, List.getElem?_drop]
  congr 1
  omega

/-- The buffer grows, and keeps what is in it. -/
structure Reserved (q : QuicPacketSender) (stop : Nat) (q' : QuicPacketSender) : Prop where
  stop : stop ≤ q'.len
  room : q'.len ≤ q'.array.length
  bytes : ∀ i < q.len, i < q'.len ∧ q'.array[i]? = q.array[i]?
  received : q'.receivedCryptoData = q.receivedCryptoData
  contiguous : q'.contiguousCryptoEnd = q.contiguousCryptoEnd
  closed : q'.closed = q.closed

theorem reserve_reserved (h : q.len ≤ q.array.length) (pooled : Bytes) (stop : Nat) :
    Reserved q stop (q.reserve pooled stop) := by
  unfold QuicPacketSender.reserve
  split
  · next hcap =>
    have hbuffer : q.buffer.length = q.len := by
      rw [QuicPacketSender.buffer, List.length_take, Nat.min_eq_left h]
    have hnew : stop ≤ (pooled ++ List.replicate (stop - pooled.length) (0 : UInt8)).length := by
      rw [List.length_append, List.length_replicate]
      omega
    refine ⟨Nat.le_refl _, ?_, fun i hi => ⟨by dsimp only; omega, ?_⟩, rfl, rfl, rfl⟩
    · rw [length_overwrite (by omega)]
      exact hnew
    · rw [getElem?_overwrite (by omega), if_pos (by omega), Nat.sub_zero,
        QuicPacketSender.buffer, List.getElem?_take_of_lt hi]
  · split
    · next hcap hlen =>
      exact ⟨Nat.le_refl _, Nat.le_of_not_lt hcap, fun i hi => ⟨Nat.lt_trans hi hlen, rfl⟩,
        rfl, rfl, rfl⟩
    · next hcap hlen => exact ⟨Nat.le_of_not_lt hlen, h, fun i hi => ⟨hi, rfl⟩, rfl, rfl, rfl⟩

/-- A frame that is written into the buffer, before the complete prefix is looked at. -/
theorem Assembled.write {q' : QuicPacketSender} {received : Bitmap}
    (hq : Assembled stream frames q) (hf : f.data <+: stream.drop f.offset)
    (hreserved : Reserved q (f.offset + f.data.length) q')
    (hset : ∀ i, received.bit i = true ↔ q'.receivedCryptoData.bit i = true ∨
      f.offset ≤ i ∧ i < f.offset + f.data.length) :
    (∀ i, received.bit i = true ↔ Covered (frames ++ [f]) i) ∧
    (∀ i, Covered (frames ++ [f]) i →
      i < q'.len ∧ (overwrite q'.array f.offset f.data)[i]? = stream[i]?) := by
  have hstop := hreserved.stop
  have hroom := hreserved.room
  refine ⟨fun i => ?_, fun i hi => ?_⟩
  · rw [hset, hreserved.received, hq.bits, covered_concat]
  · rw [getElem?_overwrite (by omega)]
    split
    · next hin => exact ⟨by omega, getElem?_of_slice hf hin.1 hin.2⟩
    · next hout =>
      obtain ⟨hlen, hbyte⟩ := hq.bytes i ((covered_concat.mp hi).resolve_right hout)
      rw [← hbyte]
      exact hreserved.bytes i hlen

theorem Assembled.add (hstream : stream.length ≤ maxCryptoStreamOffset)
    (hq : Assembled stream frames q) (hf : f.data <+: stream.drop f.offset) :
    ∃ q', q.addCryptoData f = .ok q' ∧ Assembled stream (frames ++ [f]) q' := by
  unfold QuicPacketSender.addCryptoData
  split
  · next hempty =>
    have hsame : Covered (frames ++ [f]) = Covered frames := by
      funext i
      rw [eq_iff_iff, covered_concat, hempty, List.length_nil]
      exact or_iff_left (by omega)
    obtain ⟨hbits, hbytes, hroom, hcovered, hmissing, hopen⟩ := hq
    rw [CoveredPrefix, ← hsame] at *
    exact ⟨q, rfl, hbits, hbytes, hroom, hcovered, hmissing, hopen⟩
  · next hne =>
    have hpos : 0 < f.data.length := List.length_pos_iff.mpr hne
    have hfits := hf.length_le
    rw [List.length_drop] at hfits
    rw [if_neg (by omega), if_neg (by rw [hq.isOpen]; exact Bool.false_ne_true)]
    dsimp only
    have hreserved := reserve_reserved hq.room f.pooled (f.offset + f.data.length)
    generalize q.reserve f.pooled (f.offset + f.data.length) = q' at hreserved
    have hstop := hreserved.stop
    have hroom := hreserved.room
    obtain ⟨received, hsome, hset⟩ := q'.receivedCryptoData.bit_setRange
      (show f.offset < f.offset + f.data.length by omega)
    obtain ⟨hbits, hbytes⟩ := hq.write hf hreserved hset
    rw [hsome]
    have hroom' : q'.len ≤ (overwrite q'.array f.offset f.data).length := by
      rw [length_overwrite (by omega)]
      exact hroom
    have hold : CoveredPrefix (frames ++ [f]) q'.contiguousCryptoEnd := by
      intro i hi
      rw [hreserved.contiguous] at hi
      exact covered_concat.mpr (.inl (hq.covered i hi))
    dsimp only
    split
    · next htouch =>
      obtain ⟨stop, hfirst, hspec⟩ := received.firstUnset_spec
        (show q'.contiguousCryptoEnd < q'.len by omega)
      rw [hfirst]
      refine ⟨_, rfl, hbits, hbytes, hroom', fun i hi => ?_, fun h => ?_,
        hreserved.closed.trans hq.isOpen⟩
      · rcases Nat.lt_or_ge i q'.contiguousCryptoEnd with hlt | hge
        · exact hold i hlt
        · exact (hbits i).mp (hspec.set i hge hi)
      · have hlen := (hbytes _ h).1
        have hunset := hspec.unset hlen
        rw [(hbits _).mpr h] at hunset
        cases hunset
    · next haway =>
      refine ⟨_, rfl, hbits, hbytes, hroom', hold, fun h => ?_,
        hreserved.closed.trans hq.isOpen⟩
      rcases covered_concat.mp h with h | h
      · rw [hreserved.contiguous] at h
        exact hq.missing h
      · exact haway h

theorem assembled_empty : Assembled stream [] {} where
  bits i := by simp [Bitmap.bit, Covered]
  bytes i h := by
    obtain ⟨f, ⟨⟩, -⟩ := h
  room := Nat.le_refl _
  covered i hi := by cases hi
  missing h := by
    obtain ⟨f, ⟨⟩, -⟩ := h
  isOpen := rfl

section

variable (hq : Assembled stream frames q)
include hq

theorem Assembled.addAll (hstream : stream.length ≤ maxCryptoStreamOffset) {more : List CryptoFrame}
    (hmore : ∀ f ∈ more, f.data <+: stream.drop f.offset) :
    ∃ q', more.foldlM QuicPacketSender.addCryptoData q = .ok q' ∧
      Assembled stream (frames ++ more) q' := by
  induction more generalizing frames q with
  | nil => exact ⟨q, rfl, by rwa [List.append_nil]⟩
  | cons f more ih =>
    rw [List.forall_mem_cons] at hmore
    obtain ⟨q₁, hadd, hq₁⟩ := hq.add hstream hmore.1
    obtain ⟨q', hfold, hq'⟩ := ih hq₁ hmore.2
    refine ⟨q', ?_, by rwa [List.append_assoc] at hq'⟩
    rw [List.foldlM_cons, hadd]
    exact hfold

/-- The complete prefix is the longest one. -/
theorem Assembled.le_contiguousCryptoEnd (h : CoveredPrefix frames n) :
    n ≤ q.contiguousCryptoEnd := by
  by_contra hlt
  exact hq.missing (h _ (Nat.lt_of_not_le hlt))

theorem Assembled.take_buffer (h : n ≤ q.contiguousCryptoEnd) :
    q.buffer.take n = stream.take n := by
  refine List.ext_getElem? fun i => ?_
  rcases Nat.lt_or_ge i n with hi | hi
  · obtain ⟨hlen, hbyte⟩ := hq.bytes i (hq.covered i (by omega))
    rw [List.getElem?_take_of_lt hi, List.getElem?_take_of_lt hi, QuicPacketSender.buffer,
      List.getElem?_take_of_lt hlen, hbyte]
  · rw [List.getElem?_take_eq_none hi, List.getElem?_take_eq_none hi]

end

end Assembled

/-! ## The server name -/

/-- A ClientHello with a name has a header. -/
theorem clientHelloSize_of_readClientHello {stream name : Bytes} {n : Nat}
    (h : readClientHello (stream.take n) = .ok name) : tlsHandshakeHeaderLen ≤ n ∧
      ∃ size, clientHelloSize (stream.take tlsHandshakeHeaderLen) = .ok size := by
  simp only [readClientHello, bind_eq_ok] at h
  obtain ⟨_, -, _, -, _, -, _, hrequire, size, hsize, -⟩ := h
  have hlen := le_of_require hrequire
  rw [List.length_take] at hlen
  have hn : tlsHandshakeHeaderLen ≤ n := by omega
  refine ⟨hn, size, ?_⟩
  have hheader : stream.take tlsHandshakeHeaderLen =
      (stream.take n).take tlsHandshakeHeaderLen := by
    rw [List.take_take, Nat.min_eq_left hn]
  have hagrees := @stableFrom_clientHelloSize (fun _ => False)
    ((stream.take n).take tlsHandshakeHeaderLen) ((stream.take n).drop tlsHandshakeHeaderLen)
    (by rw [List.length_take, List.length_take]; exact Nat.le_min.mpr ⟨Nat.le_refl 4, hlen⟩)
  unfold AgreesAt at hagrees
  rw [List.take_append_drop, hsize] at hagrees
  rw [hheader]
  cases hread : clientHelloSize ((stream.take n).take tlsHandshakeHeaderLen) with
  | ok size' =>
    rw [hread] at hagrees
    exact congrArg _ (Except.ok.inj hagrees).symm
  | error stop =>
    rw [hread] at hagrees
    cases stop with
    | need length => exact hagrees.1.elim
    | verdict e => cases hagrees
    | panic => exact hagrees.elim

/-- A name in a part of the complete prefix is found, unless the header announces too much. -/
theorem Assembled.tryAssemble {stream name : Bytes} {frames : List CryptoFrame}
    {q : QuicPacketSender} {n : Nat} (hq : Assembled stream frames q)
    (hn : n ≤ q.contiguousCryptoEnd) (hname : readClientHello (stream.take n) = .ok name) :
    ∃ size, clientHelloSize (stream.take tlsHandshakeHeaderLen) = .ok size ∧ q.tryAssemble =
      if maxCryptoStreamOffset < size then .error .shortBuffer else .ok name := by
  obtain ⟨hheader, size, hsize⟩ := clientHelloSize_of_readClientHello hname
  have hpos : 0 < tlsHandshakeHeaderLen := by decide
  refine ⟨size, hsize, ?_⟩
  have hread : readClientHello (q.buffer.take q.contiguousCryptoEnd) = .ok name := by
    have hstable := readClientHello_stable (stream.take n)
      ((stream.take q.contiguousCryptoEnd).drop n) (Nat.zero_le _)
    unfold AgreesAt at hstable
    rw [hname, ← Nat.min_eq_left hn, ← List.take_take, Nat.min_eq_left hn,
      List.take_append_drop] at hstable
    rw [hq.take_buffer (Nat.le_refl _)]
    exact hstable
  unfold QuicPacketSender.tryAssemble QuicPacketSender.checkSize
  rw [hq.isOpen, if_neg (by simp only [Bool.false_eq_true, false_or]; omega), if_pos (by omega),
    hq.take_buffer (by omega), hsize, hread]
  dsimp only
  split
  · rfl
  · rfl

/-- After frames in any order, the complete prefix is the longest one that they cover, the buffer
holds it, and the server name depends on the stream only. -/
theorem crypto_reassembled (stream : Bytes) (frames : List CryptoFrame)
    (hstream : stream.length ≤ maxCryptoStreamOffset)
    (hframes : ∀ f ∈ frames, f.data <+: stream.drop f.offset) :
    ∃ q, frames.foldlM QuicPacketSender.addCryptoData {} = .ok q ∧
      CoveredPrefix frames q.contiguousCryptoEnd ∧
      (∀ n, CoveredPrefix frames n → n ≤ q.contiguousCryptoEnd) ∧
      q.buffer.take q.contiguousCryptoEnd = stream.take q.contiguousCryptoEnd ∧
      ∀ n name, CoveredPrefix frames n → readClientHello (stream.take n) = .ok name →
        ∃ size, clientHelloSize (stream.take tlsHandshakeHeaderLen) = .ok size ∧ q.tryAssemble =
          if maxCryptoStreamOffset < size then .error .shortBuffer else .ok name := by
  obtain ⟨q, hfold, hq⟩ := assembled_empty.addAll hstream hframes
  refine ⟨q, hfold, hq.covered, fun n => hq.le_contiguousCryptoEnd,
    hq.take_buffer (Nat.le_refl _), fun n name hn hname => ?_⟩
  exact hq.tryAssemble (hq.le_contiguousCryptoEnd hn) hname

/-- A ClientHello for `a.b` up to the name, with the lengths of it and of its extensions. -/
def helloFor (size extensions : Bytes) : Bytes :=
  [1] ++ size ++ [3, 3] ++ List.replicate 32 7 ++ [0, 0, 2, 0x13, 0x01, 1, 0] ++ extensions ++
    [0, 0, 0, 8, 0, 6, 0, 0, 3, 97, 46, 98]

/-- The end comes first, and some of it comes again. -/
theorem crypto_reassembled_reversed :
    ∃ q, [CryptoFrame.mk 40 ((helloFor [0, 0, 55] [0, 12]).drop 40) [9, 9, 9],
        ⟨0, (helloFor [0, 0, 55] [0, 12]).take 45, []⟩].foldlM
          QuicPacketSender.addCryptoData {} = .ok q ∧ q.tryAssemble = .ok [97, 46, 98] := by
  obtain ⟨q, hfold, -, -, -, hname⟩ := crypto_reassembled (helloFor [0, 0, 55] [0, 12])
    [⟨40, (helloFor [0, 0, 55] [0, 12]).drop 40, [9, 9, 9]⟩,
      ⟨0, (helloFor [0, 0, 55] [0, 12]).take 45, []⟩] (by decide) (by decide)
  obtain ⟨size, hsize, htry⟩ := hname 59 [97, 46, 98]
    (by unfold CoveredPrefix Covered; decide +kernel) (by decide +kernel)
  have hvalue : clientHelloSize ((helloFor [0, 0, 55] [0, 12]).take 4) = .ok 59 := by
    decide +kernel
  cases hvalue.symm.trans hsize
  exact ⟨q, hfold, htry⟩

/-- The name of a ClientHello of more than 64 KiB is covered, and there is an error. -/
theorem oversized_hello_refused :
    readClientHello (helloFor [1, 0, 42] [255, 255]) = .ok [97, 46, 98] ∧
    (QuicPacketSender.addCryptoData {} ⟨0, helloFor [1, 0, 42] [255, 255], []⟩ >>=
      QuicPacketSender.tryAssemble) = .error .shortBuffer := by
  decide +kernel

end Sniffer
