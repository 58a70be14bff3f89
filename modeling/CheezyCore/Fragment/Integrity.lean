import Mathlib.Data.List.Forall2
import CheezyCore.Fragment.Conn

/-!
# Fragmenting does not change the stream

In the segmentation modes the inner connection gets the written bytes, apart from a
first record that is held back until it is complete. In the mode `tlshello` the first
complete handshake record becomes several ones that carry the same payload.
-/

namespace Fragment

open Chunks Transition

/-! ### The first record -/

/-- The stream starts with a complete handshake record. -/
def Complete (s : List UInt8) : Prop :=
  handshakeRecordLen s ≠ 0 ∧ handshakeRecordLen s ≤ s.length

/-- Enough of the stream is known to say what it starts with. -/
def Settled (s : List UInt8) : Prop := s ≠ [] ∧ incomplete s = false

/-- A record with the type and version bytes `header`, a correct length and the payload. -/
def IsRecord (header payload bytes : List UInt8) : Prop :=
  ∃ hi lo : UInt8, hi.toNat * 256 + lo.toNat = payload.length ∧
    bytes = header ++ [hi, lo] ++ payload

/-- The first record of `s` is replaced by records that share out its payload. -/
def Replaces (s out : List UInt8) : Prop :=
  ∃ pieces records : List (List UInt8), pieces ≠ [] ∧ (∀ piece ∈ pieces, piece ≠ []) ∧
    pieces.flatten = (s.take (handshakeRecordLen s)).drop recordHeaderLen ∧
    List.Forall₂ (IsRecord (s.take 3)) pieces records ∧
    out = records.flatten ++ s.drop (handshakeRecordLen s)

/-- What the mode `tlshello` may make of a stream. -/
def Rewrites (s out : List UInt8) : Prop :=
  (Complete s → Replaces s out) ∧ (¬ Complete s → out = s)

variable {s out more payload : List UInt8} {cfg : Config}

theorem handshakeRecordLen_append (h : recordHeaderLen ≤ s.length) :
    handshakeRecordLen (s ++ more) = handshakeRecordLen s := by
  match s, h with
  | _ :: _ :: _ :: _ :: _ :: _, _ => rfl

theorem handshakeRecordLen_cases (s : List UInt8) :
    handshakeRecordLen s = 0 ∨ ∃ (minor hi lo : UInt8) (rest : List UInt8),
      s = recordHandshake :: 3 :: minor :: hi :: lo :: rest ∧
      0 < hi.toNat * 256 + lo.toNat ∧ hi.toNat * 256 + lo.toNat ≤ maxRecordPayload ∧
      handshakeRecordLen s = recordHeaderLen + (hi.toNat * 256 + lo.toNat) := by
  fun_cases handshakeRecordLen s with
  | case3 kind major minor hi lo rest =>
    rename_i hkind hl
    obtain ⟨rfl, rfl⟩ : kind = recordHandshake ∧ major = 3 := by simpa using hkind
    exact .inr ⟨minor, hi, lo, rest, rfl, by omega, by omega, rfl⟩
  | _ => exact .inl rfl

theorem handshakeRecordLen_bounds (h : handshakeRecordLen s ≠ 0) :
    recordHeaderLen ≤ s.length ∧ recordHeaderLen < handshakeRecordLen s ∧
      handshakeRecordLen s ≤ recordHeaderLen + maxRecordPayload := by
  rcases handshakeRecordLen_cases s with hzero | ⟨minor, hi, lo, rest, hs, hpos, hmax, hlen⟩
  · exact absurd hzero h
  · refine ⟨?_, by omega, by omega⟩
    rw [hs]
    simp [recordHeaderLen]

theorem Settled.complete (settled : Settled s) (h : handshakeRecordLen s ≠ 0) : Complete s := by
  have hsettled := settled.2
  simp only [incomplete, Bool.or_eq_false_iff, decide_eq_false_iff_not] at hsettled
  exact ⟨h, Nat.le_of_not_lt hsettled.1⟩

/-- Bytes that do not start a handshake record do not start one when more follow. -/
theorem handshakeRecordLen_append_of_not_start (hs : s ≠ []) (short : s.length < recordHeaderLen)
    (h : recordStart s = false) : handshakeRecordLen (s ++ more) = 0 := by
  rcases handshakeRecordLen_cases (s ++ more) with hzero | ⟨minor, hi, lo, rest, happend, -⟩
  · exact hzero
  · simp only [recordStart, short, decide_true, Bool.true_and] at h
    match s, hs with
    | [kind], _ =>
      cases happend
      simp at h
    | kind :: major :: others, _ =>
      simp only [List.cons_append, List.cons.injEq] at happend
      obtain ⟨rfl, rfl, -⟩ := happend
      simp at h

theorem Settled.handshakeRecordLen_append (settled : Settled s) :
    handshakeRecordLen (s ++ more) = handshakeRecordLen s := by
  rcases Nat.lt_or_ge s.length recordHeaderLen with hshort | hlong
  · have hzero : handshakeRecordLen s = 0 := by
      by_contra hne
      have hlen := (handshakeRecordLen_bounds hne).1
      omega
    have hsettled := settled.2
    simp only [incomplete, hzero, beq_self_eq_true, Bool.true_and, Bool.or_eq_false_iff] at hsettled
    rw [hzero, handshakeRecordLen_append_of_not_start settled.1 hshort hsettled.2]
  · exact Fragment.handshakeRecordLen_append hlong

theorem recordStart_append (h : recordStart s = false) (hs : s ≠ []) :
    recordStart (s ++ more) = false := by
  match s, hs with
  | [kind], _ =>
    have hkind : (kind == recordHandshake) = false := by
      simpa [recordStart, recordHeaderLen] using h
    cases more <;> simp [recordStart, hkind]
  | kind :: major :: others, _ =>
    simp only [recordStart, Bool.and_eq_false_iff, decide_eq_false_iff_not, List.cons_append,
      List.length_cons, List.length_append] at h ⊢
    rcases h with h | h
    · exact .inl (by omega)
    · exact .inr h

theorem Settled.append (settled : Settled s) : Settled (s ++ more) := by
  have hsettled := settled.2
  refine ⟨fun hnil => settled.1 (List.append_eq_nil_iff.mp hnil).1, ?_⟩
  simp only [incomplete, settled.handshakeRecordLen_append, Bool.or_eq_false_iff,
    decide_eq_false_iff_not, Bool.and_eq_false_iff] at hsettled ⊢
  refine ⟨by rw [List.length_append]; omega, ?_⟩
  rcases hsettled.2 with h | h
  · exact .inl h
  · exact .inr (recordStart_append h settled.1)

theorem Settled.complete_append (settled : Settled s) : Complete (s ++ more) ↔ Complete s := by
  unfold Complete
  rw [settled.handshakeRecordLen_append]
  constructor
  · rintro ⟨hne, -⟩
    exact settled.complete hne
  · rintro ⟨hne, hle⟩
    rw [List.length_append]
    exact ⟨hne, by omega⟩

theorem Replaces.append (complete : Complete s) (h : Replaces s out) :
    Replaces (s ++ more) (out ++ more) := by
  obtain ⟨hne, hle⟩ := complete
  obtain ⟨hheader, hpos, -⟩ := handshakeRecordLen_bounds hne
  obtain ⟨pieces, records, hpieces, hpiece, hpayload, hrecords, rfl⟩ := h
  have hlen : handshakeRecordLen (s ++ more) = handshakeRecordLen s :=
    handshakeRecordLen_append hheader
  refine ⟨pieces, records, hpieces, hpiece, ?_, ?_, ?_⟩
  · rw [hlen, List.take_append_of_le_length hle, hpayload]
  · rw [List.take_append_of_le_length (by simp only [recordHeaderLen] at hheader; omega)]
    exact hrecords
  · rw [hlen, List.drop_append_of_le_length hle, List.append_assoc]

/-- Once the start is settled, later bytes are passed on. -/
theorem Rewrites.append (settled : Settled s) (h : Rewrites s out) :
    Rewrites (s ++ more) (out ++ more) := by
  constructor
  · intro complete
    have hs := settled.complete_append.mp complete
    exact (h.1 hs).append hs
  · intro hnot
    rw [h.2 fun complete => hnot (settled.complete_append.mpr complete)]

/-- A stream may stay as it is. -/
theorem Rewrites.refl (s : List UInt8) : Rewrites s s := by
  refine ⟨fun complete => ?_, fun _ => rfl⟩
  rcases handshakeRecordLen_cases s with hzero | ⟨minor, hi, lo, rest, hs, hpos, hmax, hlen⟩
  · exact absurd hzero complete.1
  · have htake : s.take (handshakeRecordLen s) = recordHandshake :: 3 :: minor :: hi :: lo ::
        rest.take (hi.toNat * 256 + lo.toNat) := by
      rw [hlen, hs, Nat.add_comm]
      rfl
    have hlength : (rest.take (hi.toNat * 256 + lo.toNat)).length = hi.toNat * 256 + lo.toNat := by
      have hle := complete.2
      rw [hlen, hs] at hle
      simp only [List.length_cons, recordHeaderLen] at hle
      rw [List.length_take]
      omega
    refine ⟨[rest.take (hi.toNat * 256 + lo.toNat)], [s.take (handshakeRecordLen s)],
      List.cons_ne_nil _ _, ?_, ?_, ?_, ?_⟩
    · intro piece hpiece hnil
      rw [List.mem_singleton.mp hpiece] at hnil
      rw [hnil] at hlength
      simp only [List.length_nil] at hlength
      omega
    · rw [htake]
      simp [recordHeaderLen]
    · refine .cons ⟨hi, lo, hlength.symm, ?_⟩ .nil
      rw [htake, hs]
      rfl
    · simp

/-! ### Where a write is cut -/

/-- What an accepted configuration guarantees. -/
def Config.Valid (cfg : Config) : Prop := cfg.splitSNI = false → 0 < cfg.lengthMin

theorem randBetween_pos {draw lower upper : Nat} (h : 0 < lower) :
    0 < randBetween draw lower upper := by
  unfold randBetween
  split <;> omega

/-- The loop moves on by at least a byte, so the number of bytes is enough fuel. -/
theorem exists_lengthCutsFrom (hpos : 0 < cfg.lengthMin) (rand : Nat → Nat)
    (maxSplit n fuel : Nat) {start pieces : Nat} (hlt : start < n) (hfuel : n < start + fuel) :
    ∃ cuts, lengthCutsFrom cfg rand maxSplit n fuel start pieces = some cuts ∧
      Cuts start n cuts := by
  fun_induction lengthCutsFrom cfg rand maxSplit n fuel start pieces with
  | case1 => omega
  | case2 => exact ⟨[], rfl, hlt⟩
  | case3 fuel start pieces stop hstop ih =>
    have hstep : start < stop := Nat.lt_add_of_pos_right (randBetween_pos hpos)
    obtain ⟨cuts, hcuts, hascend⟩ := ih (by omega) (by omega)
    exact ⟨stop :: cuts, by rw [hcuts]; rfl, hstep, hascend⟩

theorem exists_lengthCuts (hpos : 0 < cfg.lengthMin) (rand : Nat → Nat) {n : Nat} (hn : 0 < n) :
    ∃ cuts, lengthCuts cfg rand n = some cuts ∧ Cuts 0 n cuts :=
  exists_lengthCutsFrom hpos rand _ n (n + 1) hn (by omega)

theorem Config.exists_cuts (valid : cfg.Valid) (rand : Nat → Nat) (hs : s ≠ []) :
    ∃ cuts, cfg.cuts rand s = some cuts ∧ (cuts = [] ∨ Cuts 0 s.length cuts) := by
  unfold Config.cuts
  split
  · obtain ⟨cuts, hcuts, hascend⟩ := exists_sniCuts s rand
    refine ⟨cuts, hcuts, ?_⟩
    rcases hascend with hnil | ⟨hle, hascend⟩
    · exact .inl hnil
    · exact .inr (hascend.mono (Nat.zero_le _) hle)
  next hsplit =>
    obtain ⟨cuts, hcuts, hascend⟩ :=
      exists_lengthCuts (valid (Bool.eq_false_iff.mpr hsplit)) rand (List.length_pos_iff.mpr hs)
    exact ⟨cuts, hcuts, .inr hascend⟩

theorem Config.exists_payloadCuts (valid : cfg.Valid) (rand : Nat → Nat)
    (hpayload : payload.length = handshakeRecordLen s - recordHeaderLen)
    (hpos : 0 < payload.length) : ∃ cuts, cfg.payloadCuts rand s payload = some cuts ∧
      (cuts = [] ∨ Cuts 0 payload.length cuts) := by
  unfold Config.payloadCuts
  split
  · obtain ⟨cuts, hcuts, hascend⟩ := exists_sniCuts s rand
    refine ⟨cuts.map (· - recordHeaderLen), by rw [hcuts]; rfl, ?_⟩
    rcases hascend with rfl | ⟨-, hascend⟩
    · exact .inl rfl
    · have hsub := hascend.map_sub (Nat.le_refl recordHeaderLen)
      rw [← hpayload] at hsub
      exact .inr hsub
  next hsplit =>
    obtain ⟨cuts, hcuts, hascend⟩ :=
      exists_lengthCuts (valid (Bool.eq_false_iff.mpr hsplit)) rand hpos
    exact ⟨cuts, hcuts, .inr hascend⟩

namespace Conn

variable {c : Conn} {b : List UInt8}

/-! ### What a write sends -/

/-- The connection has sent `out` and is otherwise as before, apart from the flag. -/
structure Sends (c c' : Conn) (out : List UInt8) : Prop where
  cfg : c'.cfg = c.cfg
  pending : c'.pending = c.pending
  sent : c'.sent.flatten = c.sent.flatten ++ out

theorem exists_writeNext (valid : c.cfg.Valid) (rand : Nat → Nat) (hb : b ≠ []) :
    ∃ c', c.writeNext rand b = some c' ∧ Sends c c' b := by
  unfold writeNext
  dsimp only
  split
  · refine ⟨_, rfl, rfl, rfl, ?_⟩
    simp [send]
  · obtain ⟨cuts, hcuts, hascend⟩ := Config.exists_cuts valid rand hb
    rw [hcuts]
    refine ⟨_, rfl, ?_⟩
    dsimp only
    split
    · exact ⟨rfl, rfl, by simp [send]⟩
    next hne =>
      have hflatten := flatten_cutAt (hascend.resolve_left hne)
      refine ⟨rfl, rfl, ?_⟩
      simp [send, hflatten]

/-- Cutting the payload of the first record at ascending offsets replaces the record. -/
theorem replaces_cutAt {cuts : List Nat}
    (hpayload : payload = (b.take (handshakeRecordLen b)).drop recordHeaderLen)
    (hmax : payload.length < 65536) (ascend : Cuts 0 payload.length cuts) :
    Replaces b (((cutAt payload 0 (cuts ++ [payload.length])).map (record (b.take 3))).flatten ++
      b.drop (handshakeRecordLen b)) := by
  have hflatten : (cutAt payload 0 (cuts ++ [payload.length])).flatten = payload :=
    flatten_cutAt ascend
  refine ⟨cutAt payload 0 (cuts ++ [payload.length]), _, ?_, cutAt_ne_nil ascend,
    hflatten.trans hpayload, ?_, rfl⟩
  · cases cuts <;> exact List.cons_ne_nil _ _
  · rw [List.forall₂_map_right_iff, List.forall₂_same]
    intro piece hpiece
    refine ⟨_, _, ?_, rfl⟩
    rw [UInt8.toNat_ofNat', UInt8.toNat_ofNat']
    have hle := (List.sublist_flatten_of_mem hpiece).length_le
    rw [hflatten] at hle
    omega

/-- The first record goes out as one or more records. -/
theorem exists_writeHello (valid : c.cfg.Valid) (rand : Nat → Nat) (complete : Complete b) :
    ∃ c' out, c.writeHello rand b = some c' ∧ c'.done = c.done ∧ Sends c c' out ∧
      Rewrites b out := by
  obtain ⟨hheader, hpos, hmax⟩ := handshakeRecordLen_bounds complete.1
  generalize hpayload : (b.take (handshakeRecordLen b)).drop recordHeaderLen = payload
  have hlength : payload.length = handshakeRecordLen b - recordHeaderLen := by
    have hle := complete.2
    rw [← hpayload, List.length_drop, List.length_take]
    omega
  obtain ⟨cuts, hcuts, hascend⟩ := Config.exists_payloadCuts valid rand hlength (by omega)
  unfold writeHello
  dsimp only
  rw [hpayload, hcuts, Option.map_some]
  split
  · exact ⟨_, b, rfl, rfl, ⟨rfl, rfl, by simp [send]⟩, .refl b⟩
  next hne =>
    have hreplaces := replaces_cutAt hpayload.symm
      (by simp only [maxRecordPayload] at hmax; omega) (hascend.resolve_left hne)
    refine ⟨_, _, rfl, ?_, ?_, fun _ => hreplaces, absurd complete⟩
    · split
      · rfl
      · split <;> rfl
    · split
      · exact ⟨rfl, rfl, by simp [send]⟩
      · split
        next hrest => exact ⟨rfl, rfl, by simp [send, hrest]⟩
        · exact ⟨rfl, rfl, by simp [send]⟩

/-- The first write, or the record that was held back. -/
theorem exists_writeFirst (valid : c.cfg.Valid) (rand : Nat → Nat) (settled : Settled b) :
    ∃ c' out, c.writeFirst rand b = some c' ∧ Sends c c' out ∧
      (c.cfg.tlsHello = false → out = b) ∧
      (c.cfg.tlsHello = true → c'.done = true ∧ Settled b ∧ Rewrites b out) := by
  unfold writeFirst
  split
  next hhello =>
    split
    · exact ⟨_, b, rfl, ⟨rfl, rfl, by simp [send]⟩, fun _ => rfl, fun _ => ⟨rfl, settled, .refl b⟩⟩
    next hne =>
      obtain ⟨c', out, hwrite, hdone, hsends, hrewrites⟩ :=
        exists_writeHello (c := { c with done := true }) valid rand (settled.complete hne)
      refine ⟨c', out, hwrite, { hsends with }, ?_, ?_⟩
      · intro h
        rw [hhello] at h
        cases h
      · exact fun _ => ⟨hdone, settled, hrewrites⟩
  next hhello =>
    obtain ⟨c', hwrite, hsends⟩ := exists_writeNext valid rand settled.1
    exact ⟨c', b, hwrite, hsends, fun _ => rfl, fun h => absurd h hhello⟩

/-! ### What holds after every write -/

/-- In the mode `tlshello`, before the first record is known. -/
structure Waiting (s : List UInt8) (c : Conn) : Prop where
  done : c.done = false
  sent : c.sent = []
  held : c.pending.getD [] = s
  first : c.pending = none → c.count = 0

/-- In the mode `tlshello`, after the first record. -/
structure Passing (s : List UInt8) (c : Conn) : Prop where
  done : c.done = true
  pending : c.pending = none
  settled : Settled s
  rewrites : Rewrites s c.sent.flatten

structure Inv (cfg : Config) (s : List UInt8) (c : Conn) : Prop where
  config : c.cfg = cfg
  held : ∀ held, c.pending = some held → held ≠ []
  idle : c.done = true → c.pending = none
  segments : cfg.tlsHello = false → c.output = s
  hello : cfg.tlsHello = true → Waiting s c ∨ Passing s c

theorem Inv.start (cfg : Config) : Inv cfg [] (Conn.new cfg) where
  config := rfl
  held := nofun
  idle _ := rfl
  segments _ := rfl
  hello _ := .inl ⟨rfl, rfl, rfl, fun _ => rfl⟩

variable {cfg : Config} {s : List UInt8} {c' : Conn}

section

variable (inv : Inv cfg s c)
include inv

/-- A connection that is done passes everything on. -/
theorem Inv.pass (done : c.done = true) (b : List UInt8) : Inv cfg (s ++ b) (c.send [b]) where
  __ := inv
  segments hmode := by
    have houtput := inv.segments hmode
    simp only [output, inv.idle done, Option.getD_none, List.append_nil] at houtput
    simp [output, send, inv.idle done, houtput]
  hello hmode := by
    rcases inv.hello hmode with waiting | passing
    · rw [waiting.done] at done
      cases done
    · refine .inr ⟨done, passing.pending, passing.settled.append, ?_⟩
      simpa [send] using passing.rewrites.append passing.settled

/-- Bytes are held back. -/
theorem Inv.hold (done : c.done = false) {held : List UInt8} (hheld : c.pending.getD [] ++ b = held)
    (hne : held ≠ []) (count : Nat) : Inv cfg (s ++ b) { c with count, pending := some held } where
  config := inv.config
  held _ h := by
    cases h
    exact hne
  idle h := by
    rw [show c.done = true from h] at done
    cases done
  segments hmode := by
    have houtput := inv.segments hmode
    simp only [output] at houtput
    rw [← houtput, List.append_assoc, hheld]
    rfl
  hello hmode := by
    rcases inv.hello hmode with waiting | passing
    · refine .inl ⟨done, waiting.sent, ?_, nofun⟩
      rw [← waiting.held, hheld]
      rfl
    · rw [passing.done] at done
      cases done

/-- What was held back, and the new bytes, go out. -/
theorem Inv.release (done : c.done = false) {out data : List UInt8}
    (hdata : c.pending.getD [] ++ b = data) (hcfg : c'.cfg = c.cfg) (hpending : c'.pending = none)
    (hsent : c'.sent.flatten = c.sent.flatten ++ out)
    (hsegments : cfg.tlsHello = false → out = data)
    (hhello : cfg.tlsHello = true → c'.done = true ∧ Settled data ∧ Rewrites data out) :
    Inv cfg (s ++ b) c' where
  config := hcfg.trans inv.config
  held _ h := by
    rw [hpending] at h
    cases h
  idle _ := hpending
  segments hmode := by
    have houtput := inv.segments hmode
    rw [output, hpending, hsent, hsegments hmode, ← hdata, ← houtput, output]
    simp
  hello hmode := by
    obtain ⟨hdone, settled, hrewrites⟩ := hhello hmode
    rcases inv.hello hmode with waiting | passing
    · rw [← waiting.held, hdata]
      refine .inr ⟨hdone, hpending, settled, ?_⟩
      rw [hsent, waiting.sent]
      exact hrewrites
    · rw [passing.done] at done
      cases done

/-- Every write succeeds and keeps the invariant. -/
theorem Inv.next (valid : cfg.Valid) (w : Write) :
    ∃ c', c.next w = some c' ∧ Inv cfg (s ++ w.bytes) c' := by
  obtain ⟨b, rand⟩ := w
  have hvalid : c.cfg.Valid := inv.config ▸ valid
  unfold Conn.next Conn.write
  dsimp only
  split
  next hdone => exact ⟨_, rfl, inv.pass hdone b⟩
  next hdone =>
    have hdone : c.done = false := Bool.eq_false_iff.mpr hdone
    split
    next held hpending =>
      have hheld : c.pending.getD [] ++ b = held ++ b := by rw [hpending]; rfl
      have hne : held ++ b ≠ [] := fun h => inv.held held hpending (List.append_eq_nil_iff.mp h).1
      split
      · exact ⟨_, rfl, inv.hold hdone hheld hne c.count⟩
      next hincomplete =>
        have settled : Settled (held ++ b) := ⟨hne, Bool.eq_false_iff.mpr hincomplete⟩
        obtain ⟨c', out, hwrite, hsends, hsegments, hhello⟩ :=
          exists_writeFirst (c := { c with pending := none }) hvalid rand settled
        refine ⟨c', hwrite, inv.release hdone hheld hsends.cfg hsends.pending hsends.sent ?_ ?_⟩
        · exact inv.config ▸ hsegments
        · exact inv.config ▸ hhello
    next hpending =>
      have hheld : c.pending.getD [] ++ b = b := by rw [hpending]; rfl
      split
      next hnil =>
        rw [hnil, List.append_nil]
        exact ⟨c, rfl, inv⟩
      next hne =>
        split
        next hcount =>
          split
          · exact ⟨_, rfl, inv.hold hdone hheld hne _⟩
          next hincomplete =>
            have settled : Settled b := ⟨hne, Bool.eq_false_iff.mpr hincomplete⟩
            obtain ⟨c', out, hwrite, hsends, hsegments, hhello⟩ :=
              exists_writeFirst (c := { c with count := (c.count + 1) % 2 ^ 64 }) hvalid rand
                settled
            refine ⟨c', hwrite, inv.release hdone hheld hsends.cfg
              (hsends.pending.trans hpending) hsends.sent ?_ ?_⟩
            · exact inv.config ▸ hsegments
            · exact inv.config ▸ hhello
        next hcount =>
          -- The first write has been seen, so this is a segmentation mode.
          obtain ⟨c', hwrite, hsends⟩ :=
            exists_writeNext (c := { c with count := (c.count + 1) % 2 ^ 64 }) hvalid rand hne
          refine ⟨c', hwrite, inv.release hdone hheld hsends.cfg (hsends.pending.trans hpending)
            hsends.sent (fun _ => rfl) fun hmode => ?_⟩
          rcases inv.hello hmode with waiting | passing
          · rw [waiting.first hpending] at hcount
            exact absurd rfl hcount
          · rw [passing.done] at hdone
            cases hdone

end

theorem Inv.run (valid : cfg.Valid) (writes : List Write) :
    ∀ {s : List UInt8} {c : Conn}, Inv cfg s c →
      ∃ c', Transition.run Conn.next c writes = some c' ∧ Inv cfg (s ++ written writes) c' := by
  induction writes with
  | nil =>
    intro s c inv
    exact ⟨c, rfl, by simpa [written] using inv⟩
  | cons w rest ih =>
    intro s c inv
    obtain ⟨c₁, hstep, inv₁⟩ := inv.next valid w
    obtain ⟨c₂, hrun, inv₂⟩ := ih inv₁
    refine ⟨c₂, (run_cons_some hstep).trans hrun, ?_⟩
    simpa [written, List.append_assoc] using inv₂

/-- From a replaceable connection on, the inner connection gets exactly what is written. -/
theorem replaceable_run (writes : List Write) :
    ∀ {c c' : Conn}, c.writerReplaceable → Transition.run Conn.next c writes = some c' →
      c'.writerReplaceable ∧ c'.sent.flatten = c.sent.flatten ++ written writes := by
  induction writes with
  | nil =>
    rintro c c' replaceable ⟨⟩
    exact ⟨replaceable, by simp [written]⟩
  | cons w rest ih =>
    intro c c' replaceable hrun
    have hdone : c.done = true := (Bool.and_eq_true_iff.mp replaceable).1
    have hstep : c.next w = some (c.send [w.bytes]) := by
      rw [Conn.next, Conn.write, if_pos hdone]
    rw [run_cons_some hstep] at hrun
    have hsend : (c.send [w.bytes]).writerReplaceable := replaceable
    obtain ⟨hreplaceable, hsent⟩ := ih hsend hrun
    refine ⟨hreplaceable, ?_⟩
    rw [hsent]
    simp [send, written]

/-- What the peer gets of a stream. -/
structure Preserves (cfg : Config) (s : List UInt8) (c : Conn) : Prop where
  segments : cfg.tlsHello = false → c.output = s
  hello : cfg.tlsHello = true → Rewrites s c.output
  replaceable : c.writerReplaceable → c.pending = none ∧ ∀ writes c',
    Transition.run Conn.next c writes = some c' →
      c'.writerReplaceable ∧ c'.pending = none ∧
        c'.sent.flatten = c.sent.flatten ++ written writes

theorem pending_of_replaceable (h : c.writerReplaceable) : c.pending = none :=
  Option.isNone_iff_eq_none.mp (Bool.and_eq_true_iff.mp h).2

theorem Inv.preserves (inv : Inv cfg s c) : Preserves cfg s c where
  segments := inv.segments
  hello hmode := by
    rcases inv.hello hmode with waiting | passing
    · have houtput : c.output = s := by
        rw [output, waiting.sent, waiting.held]
        rfl
      rw [houtput]
      exact .refl s
    · have houtput : c.output = c.sent.flatten := by
        rw [output, passing.pending]
        exact List.append_nil _
      rw [houtput]
      exact passing.rewrites
  replaceable h := by
    refine ⟨pending_of_replaceable h, fun writes c' hrun => ?_⟩
    obtain ⟨h', hsent⟩ := replaceable_run writes h hrun
    exact ⟨h', pending_of_replaceable h', hsent⟩

/-- Every sequence of writes returns, and the stream is preserved. -/
theorem preserves_of_writes {o : Settings} (h : newConfig o = .ok cfg) (writes : List Write) :
    ∃ c, Transition.run Conn.next (Conn.new cfg) writes = some c ∧
      Preserves cfg (written writes) c := by
  have valid : cfg.Valid := lengthMin_pos h
  obtain ⟨c, hrun, inv⟩ := Inv.run valid writes (.start cfg)
  exact ⟨c, hrun, inv.preserves⟩

/-- The first ClientHello in records of one or two bytes. -/
def shortRecords : Settings where
  packets := Strings.bytes "tlshello"
  length := Strings.bytes "1-3"
  interval := []
  maxSplit := []
  split := []
  wait := []
  fallbackDelay := 0

theorem preserves_twoWrites :
    ∃ cfg c, newConfig shortRecords = .ok cfg ∧
      Transition.run Conn.next (Conn.new cfg)
        [⟨[22, 3, 1, 0, 4, 1, 2], id⟩, ⟨[3, 4, 9], id⟩] = some c ∧
      Preserves cfg [22, 3, 1, 0, 4, 1, 2, 3, 4, 9] c := by
  obtain ⟨cfg, hcfg⟩ : ∃ cfg, newConfig shortRecords = .ok cfg := ⟨_, rfl⟩
  obtain ⟨c, hrun, hpreserves⟩ :=
    preserves_of_writes hcfg [⟨[22, 3, 1, 0, 4, 1, 2], id⟩, ⟨[3, 4, 9], id⟩]
  exact ⟨cfg, c, hcfg, hrun, hpreserves⟩

end Conn

end Fragment
