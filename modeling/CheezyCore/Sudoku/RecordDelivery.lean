import Mathlib.Data.List.Nodup
import CheezyCore.Sudoku.RecordConn

/-!
# Delivery and order of records

`rotations` is the schedule of the key rotation: how often the sender has changed its epoch
before each record, as a function of the sizes alone. `Emits` describes the records by it.
The receiver compares epochs as numbers, so that a connection works until the epoch, which
starts anywhere, passes `2 ^ 32`.

An attacker who drops, repeats and moves whole records can cut out the records at the
beginning of the connection and around a rotation, and no others.
-/

namespace Sudoku

/-- How often the epoch was changed before each of the records of these sizes, when `bytes`
were counted and the epoch was changed `count` times before. -/
def rotations (ku : Int) : Int → Nat → List Nat → List Nat
  | _, _, [] => []
  | bytes, count, size :: sizes =>
    if ku ≤ 0 then count :: rotations ku bytes count sizes
    else
      let bytes := int64 (bytes + size)
      if bytes < int64 (ku * ((count + 1) % 2 ^ 32 : Nat)) then
        count :: rotations ku bytes count sizes
      else count :: rotations ku bytes (count + 1) sizes

/-- A sender that has changed its epoch `count` times and has reached `seq` emits records
with these counts. -/
inductive Emits (epoch : UInt32) : Nat → UInt64 → List Nat → List Record → Prop where
  | nil {count seq} : Emits epoch count seq [] []
  | stay {count seq plain counts records} (rest : Emits epoch count (seq + 1) counts records) :
      Emits epoch count seq (count :: counts) (⟨epoch + UInt32.ofNat count, seq, plain⟩ :: records)
  | rotate {count seq plain counts records}
      (next : UInt64) (rest : Emits epoch (count + 1) next counts records) :
      Emits epoch count seq (count :: counts) (⟨epoch + UInt32.ofNat count, seq, plain⟩ :: records)

/-! ## The sender -/

section Sender

variable {ku : Int} {random : Nat → UInt64} {s : Sender} {epoch : UInt32}

theorem toNat_ofNat_succ (count : Nat) :
    (UInt32.ofNat count + 1).toNat = (count + 1) % 2 ^ 32 := by
  exact Nat.mod_add_mod count (2 ^ 32) 1

theorem ofNat_succ (count : Nat) : UInt32.ofNat (count + 1) = UInt32.ofNat count + 1 := by
  apply UInt32.toNat_inj.mp
  rw [toNat_ofNat_succ, UInt32.toNat_ofNat']

theorem emits_writeChunks {count : Nat} (hepoch : s.sendEpoch = epoch + UInt32.ofNat count)
    (hupdates : s.sendEpochUpdates = UInt32.ofNat count) (chunks : List Bytes) :
    Emits epoch count s.sendSeq (rotations ku s.sendBytes count (chunks.map List.length))
      (s.writeChunks ku random chunks).2 := by
  induction chunks generalizing s count with
  | nil => exact .nil
  | cons chunk rest ih =>
    rw [Sender.writeChunks, List.map_cons, rotations]
    simp only [Sender.maybeBumpSendEpochLocked, hepoch, hupdates, toNat_ofNat_succ]
    split
    · exact .stay (ih (s := ⟨_, _, _, _, _⟩) rfl rfl)
    · split
      · exact .stay (ih (s := ⟨_, _, _, _, _⟩) rfl rfl)
      · refine .rotate (random s.drawn) (ih (s := ⟨_, _, _, _, _⟩) ?_ ?_)
        · rw [ofNat_succ, UInt32.add_assoc]
        · exact (ofNat_succ count).symm

theorem plain_writeChunks (s : Sender) (chunks : List Bytes) :
    (s.writeChunks ku random chunks).2.map Record.plain = chunks := by
  induction chunks generalizing s with
  | nil => rfl
  | cons chunk rest ih =>
    exact congrArg (chunk :: ·) (ih _)

theorem writeChunks_append (s : Sender) (first second : List Bytes) :
    s.writeChunks ku random (first ++ second) =
      (((s.writeChunks ku random first).1.writeChunks ku random second).1,
        (s.writeChunks ku random first).2 ++
          ((s.writeChunks ku random first).1.writeChunks ku random second).2) := by
  induction first generalizing s with
  | nil => rfl
  | cons chunk rest ih =>
    rw [List.cons_append, Sender.writeChunks, ih]
    rfl

/-- The writes are the loops over all their chunks. -/
theorem writeAll_eq (s : Sender) (writes : List Bytes) :
    s.writeAll ku random writes =
      s.writeChunks ku random (writes.flatMap (Chunks.pieces maxPlain)) := by
  induction writes generalizing s with
  | nil => rfl
  | cons p rest ih =>
    rw [Sender.writeAll, List.flatMap_cons, writeChunks_append]
    simp only [Sender.write, ih]

end Sender

/-! ## The records of a sender -/

namespace Emits

variable {epoch : UInt32} {count n : Nat} {seq : UInt64} {counts : List Nat}
  {records : List Record} {i j k : Nat} {r r' : Record}

section

variable (h : Emits epoch count seq counts records)
include h

theorem length : counts.length = records.length := by
  induction h with
  | nil => rfl
  | stay rest ih | rotate next rest ih => exact congrArg (· + 1) ih

theorem le : ∀ n ∈ counts, count ≤ n := by
  induction h with
  | nil => exact nofun
  | stay rest ih | rotate next rest ih =>
    intro n hn
    obtain rfl | hn := List.mem_cons.mp hn
    · exact Nat.le_refl n
    · have hle := ih n hn
      omega

/-- The sender at a later record. -/
theorem drop (hcount : counts[k]? = some n) (hrecord : records[k]? = some r) :
    r.epoch = epoch + UInt32.ofNat n ∧
      Emits epoch n r.seq (counts.drop k) (records.drop k) := by
  induction h generalizing k with
  | nil => cases hcount
  | stay rest ih | rotate next rest ih =>
    cases k with
    | zero =>
      cases hcount
      cases hrecord
      exact ⟨rfl, by first | exact .stay rest | exact .rotate next rest⟩
    | succ k => exact ih hcount hrecord

/-- Sequence numbers go up one by one until the first rotation. -/
theorem seq_of_count (hcount : counts[k]? = some count) (hrecord : records[k]? = some r) :
    r.seq = seq + UInt64.ofNat k := by
  induction h generalizing k with
  | nil => cases hcount
  | @stay _ seq _ _ _ rest ih =>
    cases k with
    | zero =>
      cases hrecord
      exact (UInt64.add_zero seq).symm
    | succ k =>
      rw [ih hcount hrecord, UInt64.add_assoc, UInt64.ofNat_add, UInt64.add_comm 1]
      rfl
  | @rotate count seq _ _ _ next rest ih =>
    cases k with
    | zero =>
      cases hrecord
      exact (UInt64.add_zero seq).symm
    | succ k =>
      have hle := rest.le count (List.mem_of_getElem? hcount)
      exact absurd hle (Nat.not_succ_le_self count)

theorem exists_record (hcount : counts[k]? = some n) : ∃ r, records[k]? = some r := by
  have hk : k < records.length := h.length ▸ (List.getElem?_eq_some_iff.mp hcount).1
  exact ⟨records[k], List.getElem?_eq_getElem hk⟩

theorem exists_count (hrecord : records[k]? = some r) : ∃ n, counts[k]? = some n := by
  have hk : k < counts.length := h.length ▸ (List.getElem?_eq_some_iff.mp hrecord).1
  exact ⟨counts[k], List.getElem?_eq_getElem hk⟩

theorem mono {m n : Nat} (hij : i ≤ j) (hi : counts[i]? = some m) (hj : counts[j]? = some n) :
    m ≤ n := by
  obtain ⟨r, hr⟩ := h.exists_record hi
  refine (h.drop hi hr).2.le n (List.mem_of_getElem? (i := j - i) ?_)
  rw [List.getElem?_drop, Nat.add_sub_cancel' hij]
  exact hj

/-- The records between two of one epoch are of that epoch. -/
theorem between (hik : i ≤ k) (hkj : k ≤ j) (hi : counts[i]? = some n) (hj : counts[j]? = some n) :
    counts[k]? = some n := by
  have hlt : k < counts.length := Nat.lt_of_le_of_lt hkj (List.getElem?_eq_some_iff.mp hj).1
  have hmid := List.getElem?_eq_getElem hlt
  rw [hmid, Nat.le_antisymm (h.mono hkj hmid hj) (h.mono hik hi hmid)]

/-- Within an epoch the sequence numbers are as far apart as the records. -/
theorem seq_of_le (hij : i ≤ j) (hi : counts[i]? = some n) (hj : counts[j]? = some n)
    (hr : records[i]? = some r) (hr' : records[j]? = some r') :
    r'.seq = r.seq + UInt64.ofNat (j - i) := by
  refine (h.drop hi hr).2.seq_of_count ?_ ?_
  · rw [List.getElem?_drop, Nat.add_sub_cancel' hij]
    exact hj
  · rw [List.getElem?_drop, Nat.add_sub_cancel' hij]
    exact hr'

end

end Emits

/-! ## The receiver -/

section Receiver

variable {keys : EpochKeys} {epoch : UInt32} {count : Nat} {seq : UInt64} {counts : List Nat}
  {records : List Record} {c : Receiver} {r : Record}

/-- What a sender puts on the wire. -/
def wire (keys : EpochKeys) (records : List Record) : Bytes := records.flatMap (Record.frame keys)

/-- The receiver has got everything up to this position of the sender. -/
def Awaits (epoch : UInt32) (count : Nat) (seq : UInt64) (c : Receiver) : Prop :=
  c.recvInitialized = true →
    (c.recvEpoch = epoch + UInt32.ofNat count ∧ c.recvSeq = seq) ∨
      ∃ last, count = last + 1 ∧ c.recvEpoch = epoch + UInt32.ofNat last

theorem toNat_epoch {n : Nat} (h : epoch.toNat + n < 2 ^ 32) :
    (epoch + UInt32.ofNat n).toNat = epoch.toNat + n := by
  rw [UInt32.toNat_add, UInt32.toNat_ofNat', Nat.add_mod_mod]
  exact Nat.mod_eq_of_lt h

/-- The next record is taken as long as the epoch has not passed `2 ^ 32`. -/
theorem Awaits.validate (h : Awaits epoch count seq c) (hfits : epoch.toNat + count < 2 ^ 32) :
    c.validateRecvPosition (epoch + UInt32.ofNat count) seq = none := by
  unfold Receiver.validateRecvPosition
  by_cases hfirst : c.recvInitialized = false
  · rw [if_pos hfirst]
  rw [if_neg hfirst]
  obtain ⟨hepoch, hseq⟩ | ⟨last, rfl, hepoch⟩ := h (Bool.not_eq_false _ ▸ hfirst)
  · rw [hepoch, hseq, if_neg (UInt32.lt_irrefl _), if_neg (fun hne => hne.2 rfl),
      if_neg (fun hlt => UInt32.lt_irrefl _ hlt.1)]
  · have hlast := @toNat_epoch epoch last (by omega)
    have hnext := toNat_epoch hfits
    rw [hepoch]
    have hlt : epoch + UInt32.ofNat last < epoch + UInt32.ofNat (last + 1) :=
      UInt32.lt_iff_toNat_lt.mpr (by omega)
    rw [if_neg (UInt32.not_lt.mpr (UInt32.le_of_lt hlt)),
      if_neg (fun heq => UInt32.ne_of_lt hlt heq.1.symm), if_neg ?_]
    rintro ⟨-, hjump⟩
    rw [UInt32.lt_iff_toNat_lt, UInt32.toNat_sub_of_le _ _ (UInt32.le_of_lt hlt), hnext] at hjump
    change 8 < _ at hjump
    omega

theorem awaits_start : Awaits epoch count seq .start := nofun

theorem read_unread (hunread : c.unread ≠ []) (stream : Bytes) (size : Nat) :
    c.read keys stream size =
      ({ c with unread := c.unread.drop size }, stream, .data (c.unread.take size)) := by
  unfold Receiver.read
  rw [if_pos hunread]
  rfl

theorem read_nil (hunread : c.unread = []) (size : Nat) :
    c.read keys [] size = (c, [], .blocked) := by
  unfold Receiver.read
  rw [if_neg (not_not.mpr hunread)]
  rfl

/-- What the receiver has not returned yet. -/
def pending (c : Receiver) (records : List Record) : Bytes :=
  c.unread ++ (records.map Record.plain).flatten

/-- The receiver and the records that are still on the wire. -/
structure Ready (epoch : UInt32) (c : Receiver) (records : List Record) : Prop where
  fits : ∀ r ∈ records, r.Fits
  emits : ∃ count seq counts, Emits epoch count seq counts records ∧
    (∀ n ∈ counts, epoch.toNat + n < 2 ^ 32) ∧ Awaits epoch count seq c

/-- The next record is valid, and then the one after it is the next. -/
theorem Ready.next (h : Ready epoch c (r :: records)) :
    c.validateRecvPosition r.epoch r.seq = none ∧
      Ready epoch (c.markRecvPosition r.epoch r.seq) records := by
  obtain ⟨fits, count, seq, counts, hemits, hlow, hawaits⟩ := h
  have hfits : ∀ r ∈ records, r.Fits := fun x hx => fits x (List.mem_cons_of_mem r hx)
  cases hemits with
  | stay rest | rotate next rest =>
    refine ⟨hawaits.validate (hlow count List.mem_cons_self), hfits, _, _, _, rest, ?_, fun _ => ?_⟩
    · exact fun n hn => hlow n (List.mem_cons_of_mem count hn)
    · first | exact .inl ⟨rfl, rfl⟩ | exact .inr ⟨count, rfl, rfl⟩

/-- A read waits when nothing is pending, and otherwise returns the front of it. -/
theorem Ready.read (h : Ready epoch c records) (size : Nat) :
    (pending c records = [] ∧ c.read keys (wire keys records) size = (c, [], .blocked)) ∨
    ∃ c' records' bytes, Ready epoch c' records' ∧
      c.read keys (wire keys records) size = (c', wire keys records', .data bytes) ∧
      pending c records = bytes ++ pending c' records' ∧ (0 < size → bytes ≠ []) := by
  have hfront : ∀ {all : Bytes}, all ≠ [] → 0 < size → all.take size ≠ [] := by
    intro all hne hpos
    simp [hne, hpos.ne']
  by_cases hunread : c.unread = []
  · cases records with
    | nil => exact .inl ⟨by rw [pending, hunread]; rfl, read_nil hunread size⟩
    | cons r records =>
      obtain ⟨hvalid, hnext⟩ := h.next
      have hfits := h.fits r List.mem_cons_self
      refine .inr ⟨{ c.markRecvPosition r.epoch r.seq with unread := r.plain.drop size },
        records, r.plain.take size, { hnext with }, ?_, ?_, hfront hfits.1⟩
      · rw [wire, List.flatMap_cons, read_frame hunread hfits, hvalid]
        rfl
      · simp only [pending, hunread, List.nil_append, List.map_cons, List.flatten_cons]
        rw [← List.append_assoc, List.take_append_drop]
  · refine .inr ⟨{ c with unread := c.unread.drop size }, records, c.unread.take size,
      { h with }, read_unread hunread _ size, ?_, hfront hunread⟩
    simp only [pending]
    rw [← List.append_assoc, List.take_append_drop]

/-- The reads return what is pending, and something for every buffer that is not empty. -/
theorem Ready.readAll (h : Ready epoch c records) (sizes : List Nat) :
    (c.readAll keys (wire keys records) sizes).2 = none ∧
    (c.readAll keys (wire keys records) sizes).1 <+: pending c records ∧
    min (sizes.countP (0 < ·)) (pending c records).length ≤
      (c.readAll keys (wire keys records) sizes).1.length := by
  induction sizes generalizing c records with
  | nil =>
    refine ⟨rfl, List.nil_prefix, ?_⟩
    exact Nat.zero_le _
  | cons size sizes ih =>
    obtain ⟨hnil, hread⟩ | ⟨c', records', bytes, hready, hread, hpending, hbytes⟩ :=
      @Ready.read keys _ _ _ h size
    · rw [Receiver.readAll, hread, hnil]
      exact ⟨rfl, List.nil_prefix, by simp⟩
    · obtain ⟨herror, hprefix, hlength⟩ := ih hready
      rw [Receiver.readAll, hread, hpending]
      refine ⟨herror, (List.prefix_append_right_inj bytes).mpr hprefix, ?_⟩
      simp only [List.length_append, List.countP_cons, decide_eq_true_eq]
      have hone : 0 < size → 0 < bytes.length :=
        fun hpos => List.length_pos_iff.mpr (hbytes hpos)
      split
      next hpos =>
        omega
      · omega

/-- A buffer for the largest record takes a whole one. -/
theorem readAll_record (hunread : c.unread = []) (hfits : r.Fits) (sizes : List Nat)
    (valid : c.validateRecvPosition r.epoch r.seq = none) :
    (c.readAll keys (wire keys (r :: records)) (maxPlain :: sizes)).2 =
      ((c.markRecvPosition r.epoch r.seq).readAll keys (wire keys records) sizes).2 := by
  have hstate : { c.markRecvPosition r.epoch r.seq with unread := r.plain.drop maxPlain } =
      c.markRecvPosition r.epoch r.seq := by
    rw [List.drop_of_length_le hfits.2, ← hunread]
    rfl
  rw [Receiver.readAll, wire, List.flatMap_cons, read_frame hunread hfits, valid]
  simp only [hstate]
  rfl

/-- Behind `2 ^ 32` the epochs start from zero, and the receiver takes them for replayed. -/
theorem readAll_wraps (h : Emits epoch count seq counts records) (fits : ∀ r ∈ records, r.Fits)
    (hc : Awaits epoch count seq c) (hunread : c.unread = [])
    (low : epoch.toNat + count < 2 ^ 32) (wraps : ∃ n ∈ counts, 2 ^ 32 ≤ epoch.toNat + n) :
    (c.readAll keys (wire keys records) (List.replicate records.length maxPlain)).2 ≠ none := by
  have hlater : ∀ {count : Nat} {counts : List Nat}, epoch.toNat + count < 2 ^ 32 →
      (∃ n ∈ count :: counts, 2 ^ 32 ≤ epoch.toNat + n) →
      ∃ n ∈ counts, 2 ^ 32 ≤ epoch.toNat + n := by
    rintro count counts low ⟨n, hn, hwrap⟩
    obtain rfl | hn := List.mem_cons.mp hn
    · omega
    · exact ⟨n, hn, hwrap⟩
  induction h generalizing c with
  | nil =>
    obtain ⟨n, ⟨⟩, -⟩ := wraps
  | @stay count seq plain counts records rest ih =>
    rw [List.length_cons, List.replicate_succ,
      readAll_record hunread (fits _ List.mem_cons_self) _ (hc.validate low)]
    exact ih (fun r hr => fits r (List.mem_cons_of_mem _ hr)) (fun _ => .inl ⟨rfl, rfl⟩)
      hunread low (hlater low wraps)
  | @rotate count seq plain counts records next rest ih =>
    rw [List.length_cons, List.replicate_succ,
      readAll_record hunread (fits _ List.mem_cons_self) _ (hc.validate low)]
    have hrest := hlater low wraps
    by_cases hnext : epoch.toNat + (count + 1) < 2 ^ 32
    · exact ih (fun r hr => fits r (List.mem_cons_of_mem _ hr)) (fun _ => .inr ⟨count, rfl, rfl⟩)
        hunread hnext hrest
    -- The epoch of the next record is zero.
    · cases records with
      | nil =>
        obtain ⟨n, hn, -⟩ := hrest
        rw [List.length_eq_zero_iff.mp rest.length] at hn
        cases hn
      | cons r records =>
        have hfirst : r.epoch = epoch + UInt32.ofNat (count + 1) := by
          cases rest with
          | stay | rotate => rfl
        have hzero : r.epoch.toNat = 0 := by
          rw [hfirst, UInt32.toNat_add, UInt32.toNat_ofNat']
          omega
        have hlast := toNat_epoch low
        have hlt : r.epoch < epoch + UInt32.ofNat count := UInt32.lt_iff_toNat_lt.mpr (by omega)
        rw [List.length_cons, List.replicate_succ, Receiver.readAll, wire, List.flatMap_cons,
          read_frame (c := c.markRecvPosition _ _) hunread
            (fits r (List.mem_cons_of_mem _ List.mem_cons_self))]
        simp [Receiver.validateRecvPosition, Receiver.markRecvPosition, hlt]

end Receiver

/-! ## Delivery -/

/-- The reads of a fresh receiver: with buffers of any sizes no error, the written bytes and
nothing else, and at least one more byte for each buffer that is not empty. -/
def Delivers (keys : EpochKeys) (records : List Record) (written : Bytes) : Prop :=
  ∀ sizes : List Nat, (Receiver.start.readAll keys (wire keys records) sizes).2 = none ∧
    (Receiver.start.readAll keys (wire keys records) sizes).1 <+: written ∧
    min (sizes.countP (0 < ·)) written.length ≤
      (Receiver.start.readAll keys (wire keys records) sizes).1.length

/-- The sizes of the records of some writes. -/
def recordSizes (writes : List Bytes) : List Nat :=
  (writes.flatMap (Chunks.pieces maxPlain)).map List.length

section Schedule

variable {epoch : UInt32} {seq : UInt64} {counts : List Nat} {records : List Record}

theorem seq_add_eq_self_iff {seq : UInt64} {d : Nat} :
    seq + UInt64.ofNat d = seq ↔ d % 2 ^ 64 = 0 := by
  have hseq := seq.toNat_lt
  rw [← UInt64.toNat_inj, UInt64.toNat_add, UInt64.toNat_ofNat']
  omega

/-- No two records have the same epoch and sequence number exactly if no two records of one
epoch are `2 ^ 64` apart. -/
theorem positions_nodup_iff (h : Emits epoch 0 seq counts records)
    (low : ∀ n ∈ counts, epoch.toNat + n < 2 ^ 32) :
    (records.map fun r => (r.epoch, r.seq)).Nodup ↔
      ∀ k n, counts[k]? = some n → counts[k + 2 ^ 64]? ≠ some n := by
  rw [List.nodup_iff_getElem?_ne_getElem?]
  constructor
  · intro hnodup k n hk hk'
    obtain ⟨r, hr⟩ := h.exists_record hk
    obtain ⟨r', hr'⟩ := h.exists_record hk'
    refine hnodup k (k + 2 ^ 64) (by omega) ?_ ?_
    · rw [List.length_map]
      exact (List.getElem?_eq_some_iff.mp hr').1
    · have hepoch := (h.drop hk hr).1.trans (h.drop hk' hr').1.symm
      have hseq := h.seq_of_le (Nat.le_add_right k _) hk hk' hr hr'
      rw [Nat.add_sub_cancel_left, seq_add_eq_self_iff.mpr (Nat.mod_self _)] at hseq
      rw [List.getElem?_map, List.getElem?_map, hr, hr', Option.map_some, Option.map_some, hepoch,
        hseq]
  · intro hfar i j hij hj heq
    rw [List.length_map] at hj
    have hri : records[i]? = some records[i] := List.getElem?_eq_getElem (by omega)
    have hrj : records[j]? = some records[j] := List.getElem?_eq_getElem hj
    obtain ⟨m, hm⟩ := h.exists_count hri
    obtain ⟨n, hn⟩ := h.exists_count hrj
    rw [List.getElem?_map, List.getElem?_map, hri, hrj] at heq
    obtain ⟨hepoch, hseq⟩ := Prod.mk.inj (Option.some.inj heq)
    rw [(h.drop hm hri).1, (h.drop hn hrj).1] at hepoch
    have hcount := toNat_epoch (low m (List.mem_of_getElem? hm))
    rw [hepoch, toNat_epoch (low n (List.mem_of_getElem? hn))] at hcount
    obtain rfl : m = n := by omega
    have hdist := h.seq_of_le (Nat.le_of_lt hij) hm hn hri hrj
    rw [← hseq, eq_comm, seq_add_eq_self_iff] at hdist
    -- The record `2 ^ 64` behind the first one lies between the two.
    exact hfar i m hm (h.between (Nat.le_add_right i _) (by omega) hm hn)

/-- What a sender makes of its writes. -/
theorem writeAll_spec (epoch : UInt32) (seq : UInt64) (ku : Int) (random : Nat → UInt64)
    (writes : List Bytes) :
    Emits epoch 0 seq (rotations ku 0 0 (recordSizes writes))
      ((Sender.start epoch seq).writeAll ku random writes).2 ∧
    (∀ r ∈ ((Sender.start epoch seq).writeAll ku random writes).2, r.Fits) ∧
    (((Sender.start epoch seq).writeAll ku random writes).2.map Record.plain).flatten =
      writes.flatten := by
  have hplain := @plain_writeChunks ku random (Sender.start epoch seq)
    (writes.flatMap (Chunks.pieces maxPlain))
  rw [writeAll_eq]
  refine ⟨?_, ?_, ?_⟩
  · exact emits_writeChunks (s := Sender.start epoch seq) (UInt32.add_zero epoch).symm rfl _
  · intro r hr
    have hmem := List.mem_map_of_mem (f := Record.plain) hr
    rw [hplain] at hmem
    obtain ⟨p, -, hpiece⟩ := List.mem_flatMap.mp hmem
    exact Chunks.mem_pieces (by decide) hpiece
  · rw [hplain]
    exact Chunks.flatten_flatMap_pieces (by decide) writes

/-- Of every connection: the receiver gets exactly the written bytes, whatever the buffers,
without an error, and no epoch and sequence number are used twice, if and only if every record
is written before the epoch passes `2 ^ 32` and no two records of one epoch are `2 ^ 64`
apart. -/
theorem record_delivery_iff (keys : EpochKeys) (epoch : UInt32) (seq : UInt64) (ku : Int)
    (random : Nat → UInt64) (writes : List Bytes) :
    (Delivers keys ((Sender.start epoch seq).writeAll ku random writes).2 writes.flatten ∧
      (((Sender.start epoch seq).writeAll ku random writes).2.map
        fun r => (r.epoch, r.seq)).Nodup) ↔
    (∀ n ∈ rotations ku 0 0 (recordSizes writes), epoch.toNat + n < 2 ^ 32) ∧
      ∀ k n, (rotations ku 0 0 (recordSizes writes))[k]? = some n →
        (rotations ku 0 0 (recordSizes writes))[k + 2 ^ 64]? ≠ some n := by
  obtain ⟨hemits, hfits, hwritten⟩ := writeAll_spec epoch seq ku random writes
  generalize rotations ku 0 0 (recordSizes writes) = counts at hemits ⊢
  generalize ((Sender.start epoch seq).writeAll ku random writes).2 = records
    at hemits hfits hwritten ⊢
  constructor
  · rintro ⟨hdelivers, hnodup⟩
    have hlow : ∀ n ∈ counts, epoch.toNat + n < 2 ^ 32 := by
      intro n hn
      by_contra hwrap
      refine readAll_wraps hemits hfits awaits_start rfl epoch.toNat_lt ⟨n, hn, ?_⟩
        (hdelivers _).1
      omega
    exact ⟨hlow, (positions_nodup_iff hemits hlow).mp hnodup⟩
  · rintro ⟨hlow, hfar⟩
    refine ⟨?_, (positions_nodup_iff hemits hlow).mpr hfar⟩
    have hready : Ready epoch .start records := ⟨hfits, 0, seq, counts, hemits, hlow, awaits_start⟩
    rw [← hwritten]
    exact hready.readAll

/-- From the last start epoch but one the third record after two rotations is refused. -/
theorem third_epoch_refused :
    Receiver.start.readAll (fun _ => .untagged recordOverhead)
      (wire (fun _ => .untagged recordOverhead)
        ((Sender.start 0xFFFFFFFE 1).writeAll 1 (fun _ => 1) [[1], [2], [3]]).2) [1, 1, 1] =
      ([1, 2], some (.replayedEpoch 0 0xFFFFFFFF)) := by
  decide

end Schedule

/-! ## Order -/

section Order

variable {keys : EpochKeys} {epoch : UInt32} {seq : UInt64} {counts : List Nat}
  {records : List Record} {c : Receiver}

/-- The records that an attacker lets through, in this order. -/
def picked (records : List Record) (picks : List (Fin records.length)) : List Record :=
  picks.map records.get

/-- The records up to the first that the receiver refuses. -/
def Receiver.accepts (records : List Record) :
    Receiver → List (Fin records.length) → List (Fin records.length)
  | _, [] => []
  | c, i :: picks =>
    match c.validateRecvPosition (records.get i).epoch (records.get i).seq with
    | some _ => []
    | none =>
      i :: (c.markRecvPosition (records.get i).epoch (records.get i).seq).accepts records picks

theorem Receiver.accepts_unread (c : Receiver) (picks : List (Fin records.length))
    (unread : Bytes) :
    { c with unread := unread }.accepts records picks = c.accepts records picks := by
  induction picks generalizing c with
  | nil => rfl
  | cons i picks ih =>
    have hmark := ih (c.markRecvPosition (records.get i).epoch (records.get i).seq)
    rw [accepts, accepts, ← hmark]
    rfl

theorem Receiver.accepts_isPrefix (c : Receiver) (picks : List (Fin records.length)) :
    c.accepts records picks <+: picks := by
  induction picks generalizing c with
  | nil => exact List.nil_prefix
  | cons i picks ih =>
    rw [accepts]
    split
    · exact List.nil_prefix
    · exact (List.prefix_cons_inj i).mpr (ih _)

/-- One record is accepted after another one: it is a later one, in the same epoch the next. -/
def Later (records : List Record) (i j : Fin records.length) : Prop :=
  i < j ∧ ((records.get i).epoch = (records.get j).epoch → j.val = i.val + 1)

/-- The receiver has accepted this record last, if it has accepted one. -/
def Accepted (records : List Record) (c : Receiver) (last : Option (Fin records.length)) : Prop :=
  c.recvInitialized = last.isSome ∧ ∀ i ∈ last,
    c.recvEpoch = (records.get i).epoch ∧ c.recvSeq = (records.get i).seq + 1

/-- An epoch has fewer than `2 ^ 64` records. -/
theorem Emits.near (h : Emits epoch 0 seq counts records)
    (short : ∀ k n, counts[k]? = some n → counts[k + (2 ^ 64 - 1)]? ≠ some n) {i j n : Nat}
    (hi : counts[i]? = some n) (hj : counts[j]? = some n) : j < i + (2 ^ 64 - 1) := by
  by_contra hfar
  exact short i n hi (h.between (Nat.le_add_right i _) (by omega) hi hj)

/-- What `validateRecvPosition` leaves to an attacker. -/
theorem later_of_validate (h : Emits epoch 0 seq counts records)
    (low : ∀ n ∈ counts, epoch.toNat + n < 2 ^ 32)
    (short : ∀ k n, counts[k]? = some n → counts[k + (2 ^ 64 - 1)]? ≠ some n)
    {i j : Fin records.length} (hc : Accepted records c (some i))
    (valid : c.validateRecvPosition (records.get j).epoch (records.get j).seq = none) :
    Later records i j := by
  obtain ⟨hinitialized, hposition⟩ := hc
  obtain ⟨hepoch, hseq⟩ := hposition i rfl
  have hi : records[i.val]? = some (records.get i) := List.getElem?_eq_getElem i.isLt
  have hj : records[j.val]? = some (records.get j) := List.getElem?_eq_getElem j.isLt
  obtain ⟨m, hm⟩ := h.exists_count hi
  obtain ⟨n, hn⟩ := h.exists_count hj
  have hm' := toNat_epoch (low m (List.mem_of_getElem? hm))
  have hn' := toNat_epoch (low n (List.mem_of_getElem? hn))
  rw [← (h.drop hm hi).1] at hm'
  rw [← (h.drop hn hj).1] at hn'
  unfold Receiver.validateRecvPosition at valid
  rw [if_neg (by rw [hinitialized]; exact Bool.noConfusion), hepoch, hseq] at valid
  split at valid
  · cases valid
  next hnew =>
    rw [UInt32.not_lt, UInt32.le_iff_toNat_le, hn'] at hnew
    split at valid
    · cases valid
    next hsame =>
      obtain rfl | hlt := Nat.eq_or_lt_of_le (show m ≤ n by omega)
      · have hepochs : (records.get j).epoch = (records.get i).epoch :=
          UInt32.toNat_inj.mp (hn'.trans hm'.symm)
        have hnext : (records.get j).seq = (records.get i).seq + 1 :=
          not_not.mp fun hne => hsame ⟨hepochs, hne⟩
        have hji := h.near short hm hn
        have hij := h.near short hn hm
        have hsucc : j.val = i.val + 1 := by
          rw [← UInt64.toNat_inj, UInt64.toNat_add] at hnext
          change _ = (_ + 1) % _ at hnext
          obtain hle | hle := Nat.le_total i.val j.val
          · have hdist := h.seq_of_le hle hm hn hi hj
            rw [← UInt64.toNat_inj, UInt64.toNat_add, UInt64.toNat_ofNat'] at hdist
            omega
          · have hdist := h.seq_of_le hle hn hm hj hi
            rw [← UInt64.toNat_inj, UInt64.toNat_add, UInt64.toNat_ofNat'] at hdist
            omega
        exact ⟨Fin.lt_def.mpr (by omega), fun _ => hsucc⟩
      · refine ⟨?_, ?_⟩
        · by_contra hback
          have hle := h.mono (Nat.not_lt.mp hback) hn hm
          omega
        · intro heq
          rw [heq] at hm'
          omega

theorem accepted_mark (c : Receiver) (i : Fin records.length) (unread : Bytes) :
    Accepted records
      { c.markRecvPosition (records.get i).epoch (records.get i).seq with unread := unread }
      (some i) := by
  refine ⟨rfl, ?_⟩
  rintro _ ⟨⟩
  exact ⟨rfl, rfl⟩

theorem take_append_isPrefix {all data rest : Bytes} {size : Nat}
    (h : data <+: all.drop size ++ rest) : all.take size ++ data <+: all ++ rest := by
  have hall := (List.prefix_append_right_inj (all.take size)).mpr h
  rwa [← List.append_assoc, List.take_append_drop] at hall

/-- The reads return the bytes of records each of which is later than the one before. -/
theorem readAll_picked (h : Emits epoch 0 seq counts records) (fits : ∀ r ∈ records, r.Fits)
    (low : ∀ n ∈ counts, epoch.toNat + n < 2 ^ 32)
    (short : ∀ k n, counts[k]? = some n → counts[k + (2 ^ 64 - 1)]? ≠ some n)
    {last : Option (Fin records.length)} (hc : Accepted records c last)
    (picks : List (Fin records.length)) (sizes : List Nat) :
    ∃ accepted, accepted <+: c.accepts records picks ∧
      (last.toList ++ accepted).IsChain (Later records) ∧
      (c.readAll keys (wire keys (picked records picks)) sizes).1 <+:
        c.unread ++ (accepted.map fun i => (records.get i).plain).flatten := by
  have hstop : ∀ last : Option (Fin records.length),
      (last.toList ++ []).IsChain (Later records) := by
    rintro (_ | i)
    · exact .nil
    · exact .singleton i
  induction sizes generalizing c last picks with
  | nil => exact ⟨[], List.nil_prefix, hstop last, List.nil_prefix⟩
  | cons size sizes ih =>
    by_cases hunread : c.unread = []
    · cases picks with
      | nil =>
        refine ⟨[], List.nil_prefix, hstop last, ?_⟩
        rw [Receiver.readAll, picked, List.map_nil, wire, List.flatMap_nil, read_nil hunread]
        exact List.nil_prefix
      | cons i picks =>
        have hfits := fits _ (List.get_mem records i)
        rw [Receiver.readAll, picked, List.map_cons, wire, List.flatMap_cons,
          read_frame hunread hfits]
        cases hvalid : c.validateRecvPosition (records.get i).epoch (records.get i).seq with
        | some err => exact ⟨[], List.nil_prefix, hstop last, List.nil_prefix⟩
        | none =>
          obtain ⟨accepted, hprefix, hchain, hdata⟩ := ih
            (accepted_mark c i ((records.get i).plain.drop size)) picks
          rw [Receiver.accepts_unread] at hprefix
          refine ⟨i :: accepted, ?_, ?_, ?_⟩
          · rw [Receiver.accepts, hvalid]
            exact (List.prefix_cons_inj i).mpr hprefix
          · cases last with
            | none => exact hchain
            | some last =>
              exact .cons_cons (later_of_validate h low short hc hvalid) hchain
          · rw [hunread, List.map_cons, List.flatten_cons]
            exact take_append_isPrefix hdata
    · obtain ⟨accepted, hprefix, hchain, hdata⟩ := ih
        (c := { c with unread := c.unread.drop size }) hc picks
      rw [Receiver.accepts_unread] at hprefix
      refine ⟨accepted, hprefix, hchain, ?_⟩
      rw [Receiver.readAll, read_unread hunread]
      exact take_append_isPrefix hdata

/-- Records taken one by one from the first on are a front part of all of them. -/
theorem isPrefix_of_successors {accepted : List (Fin records.length)}
    (first : ∀ i ∈ accepted.head?, i.val = 0)
    (successors : accepted.IsChain fun i j => j.val = i.val + 1) :
    (accepted.map fun i => (records.get i).plain).flatten <+:
      (records.map Record.plain).flatten := by
  have hvals : ∀ (start : Nat) (accepted : List (Fin records.length)),
      (∀ i ∈ accepted.head?, i.val = start) →
      (accepted.IsChain fun i j => j.val = i.val + 1) →
      accepted.map records.get <+: records.drop start := by
    intro start accepted
    induction accepted generalizing start with
    | nil => exact fun _ _ => List.nil_prefix
    | cons i accepted ih =>
      intro hfirst hchain
      obtain rfl := hfirst i rfl
      rw [List.drop_eq_getElem_cons i.isLt]
      refine (List.prefix_cons_inj _).mpr ?_
      cases hchain with
      | singleton => exact List.nil_prefix
      | cons_cons hnext hrest =>
        refine ih (i.val + 1) ?_ hrest
        rintro j ⟨⟩
        exact hnext
  have hrecords := hvals 0 accepted first successors
  obtain ⟨rest, hrest⟩ := hrecords
  have hplain := congrArg (fun records : List Record => (records.map Record.plain).flatten) hrest
  simp only [List.map_append, List.flatten_append, List.map_map] at hplain
  exact ⟨(rest.map Record.plain).flatten, hplain⟩

/-- Whatever whole records an attacker lets through, in whatever order: the bytes that the
receiver returns before its first error are a front part of those of records that it accepted,
each of which was sent after the one before it, and in the same epoch right after it. If the
first of them is the sender's first record and the first in each new epoch is the one sent
right after the last, they are a front part of what was written. -/
theorem record_order (keys : EpochKeys) (epoch : UInt32) (seq : UInt64) (ku : Int)
    (random : Nat → UInt64) (writes : List Bytes)
    (low : ∀ n ∈ rotations ku 0 0 (recordSizes writes), epoch.toNat + n < 2 ^ 32)
    (short : ∀ k n, (rotations ku 0 0 (recordSizes writes))[k]? = some n →
      (rotations ku 0 0 (recordSizes writes))[k + (2 ^ 64 - 1)]? ≠ some n)
    (sent : ((Sender.start epoch seq).writeAll ku random writes).2 = records)
    (picks : List (Fin records.length)) (sizes : List Nat) :
    ∃ accepted, accepted <+: Receiver.start.accepts records picks ∧ accepted <+: picks ∧
      accepted.IsChain (Later records) ∧
      (Receiver.start.readAll keys (wire keys (picked records picks)) sizes).1 <+:
        (accepted.map fun i => (records.get i).plain).flatten ∧
      ((∀ i ∈ accepted.head?, i.val = 0) →
        (accepted.IsChain fun i j => (records.get i).epoch ≠ (records.get j).epoch →
          j.val = i.val + 1) →
        (Receiver.start.readAll keys (wire keys (picked records picks)) sizes).1 <+:
          writes.flatten) := by
  obtain ⟨hemits, hfits, hwritten⟩ := writeAll_spec epoch seq ku random writes
  rw [sent] at hemits hfits hwritten
  have hstart : Accepted records Receiver.start none := ⟨rfl, nofun⟩
  obtain ⟨accepted, hprefix, hchain, hdata⟩ :=
    @readAll_picked keys _ _ _ _ _ hemits hfits low short _ hstart picks sizes
  refine ⟨accepted, hprefix, hprefix.trans (Receiver.accepts_isPrefix _ _), hchain, hdata, ?_⟩
  intro hfirst hswitches
  rw [← hwritten]
  refine hdata.trans (isPrefix_of_successors hfirst ?_)
  rw [List.isChain_iff_getElem]
  intro k hk
  by_cases hepoch : (records.get accepted[k]).epoch = (records.get accepted[k + 1]).epoch
  · exact (hchain.getElem k hk).2 hepoch
  · exact hswitches.getElem k hk hepoch

/-- Three records in two epochs. -/
def threeRecords : List Record := [⟨5, 9, [1]⟩, ⟨5, 10, [2]⟩, ⟨6, 4, [3]⟩]

theorem record_order_threeRecords :
    ((Sender.start 5 9).writeAll 2 (fun _ => 4) [[1], [2], [3]]).2 = threeRecords ∧
      ∃ accepted : List (Fin threeRecords.length),
        accepted <+: [⟨0, by decide⟩, ⟨2, by decide⟩, ⟨1, by decide⟩] ∧
        accepted.IsChain (Later threeRecords) := by
  have hcounts : rotations 2 0 0 (recordSizes [[1], [2], [3]]) = [0, 0, 1] := by decide
  have hsent : ((Sender.start 5 9).writeAll 2 (fun _ => 4) [[1], [2], [3]]).2 = threeRecords := by
    decide
  have horder := record_order (fun _ => .untagged recordOverhead) 5 9 2 (fun _ => 4)
    [[1], [2], [3]] (by rw [hcounts]; decide) ?_ hsent
    [⟨0, by decide⟩, ⟨2, by decide⟩, ⟨1, by decide⟩] [8, 8, 8]
  · obtain ⟨accepted, -, hprefix, hchain, -⟩ := horder
    exact ⟨hsent, accepted, hprefix, hchain⟩
  · intro k n _
    rw [hcounts, List.getElem?_eq_none (by rw [List.length_cons]; simp)]
    exact nofun

/-- A receiver that does not get the first record returns the second one. -/
theorem first_record_dropped :
    ((Sender.start 5 9).writeAll 1000 (fun _ => 4) [[1], [2]]).2 = [⟨5, 9, [1]⟩, ⟨5, 10, [2]⟩] ∧
      (Receiver.start.readAll (fun _ => .untagged recordOverhead)
        (wire (fun _ => .untagged recordOverhead)
          (picked [⟨5, 9, [1]⟩, ⟨5, 10, [2]⟩] [1])) [8]) = ([2], none) ∧
      ¬[2] <+: ([[1], [2]] : List Bytes).flatten := by
  decide

end Order

end Sudoku
