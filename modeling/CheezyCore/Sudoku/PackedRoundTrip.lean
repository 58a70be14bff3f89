import Mathlib.Data.UInt
import CheezyCore.Sudoku.PackedDecode

/-!
# The packed codec returns what was written

Each part of a `Write` emits padding and the complete groups of its bits, and what one part
leaves in the accumulator the next one emits. A `Write` leaves nothing: a reader that starts
with an empty accumulator has all bytes of the payload at its end, and an empty accumulator.
-/

namespace Sudoku

open Decoding

namespace PackedConn

variable {pc : PackedConn}

/-- The wire bytes that mean something to the reader. -/
def carries (pc : PackedConn) (b : UInt8) : Bool :=
  decide (pc.group b < 64) || b == pc.layout.padMarker

/-- A connection whose padding the reader skips. -/
structure Sound (pc : PackedConn) : Prop where
  layout : pc.layout.Sound
  pool_pos : 0 < pc.padPool.length
  pool_lt : pc.padPool.length < 2 ^ 32
  pool : ∀ b ∈ pc.padPool, pc.carries b = false

theorem newPackedConn_sound {layout : ByteLayout} (h : layout.Sound) (paddingThreshold : UInt64) :
    (newPackedConn layout paddingThreshold).Sound := by
  obtain ⟨b, hb, hne⟩ := h.spare
  have hspare : b ∈ layout.paddingPool.filter (· ≠ layout.padMarker) :=
    List.mem_filter.mpr ⟨hb, decide_eq_true hne⟩
  have hpool : (newPackedConn layout paddingThreshold).padPool =
      layout.paddingPool.filter (· ≠ layout.padMarker) := by
    rw [newPackedConn, if_neg]
    exact List.ne_nil_of_mem hspare
  refine ⟨h, ?_, ?_, ?_⟩
  · rw [hpool]
    exact List.length_pos_of_mem hspare
  · rw [hpool]
    have hlength := h.pool_length
    have hfilter := List.length_filter_le (fun b => decide (b ≠ layout.padMarker))
      layout.paddingPool
    omega
  · intro b hb
    rw [hpool] at hb
    obtain ⟨hmem, hne⟩ := List.mem_filter.mp hb
    have hdecode : 64 ≤ (newPackedConn layout paddingThreshold).group b :=
      UInt8.le_iff_toNat_le.mp (h.decode_padding b hmem)
    rw [carries, decide_eq_false (Nat.not_lt.mpr hdecode), Bool.false_or, beq_eq_false_iff_ne]
    exact of_decide_eq_true hne

theorem Sound.carries_group (h : pc.Sound) (group : Fin 64) :
    pc.carries (pc.layout.encodeGroup group) = true := by
  have hlt : pc.group (pc.layout.encodeGroup group) < 64 :=
    UInt8.lt_iff_toNat_lt.mp (h.layout.decode_lt group)
  rw [carries, decide_eq_true hlt, Bool.true_or]

/-! ## What a part of a `Write` emits -/

/-- A piece of the wire has the bits of the data, as far as they make complete groups. -/
def Encodes (pc : PackedConn) (bits : BitBuffer) (data wire : List UInt8) (bits' : BitBuffer) :
    Prop :=
  ∃ groups, wire.filter pc.carries = groups.map pc.layout.encodeGroup ∧
    bits.bits ++ data.flatMap byteBits = groupBits groups ++ bits'.bits

/-- A part of a `Write` that encodes some bytes of its payload. -/
def Emits (pc : PackedConn) (data : List UInt8) (bound : Nat) (e e' : PackedEncoder) : Prop :=
  ∃ wire, e'.out = e.out ++ wire ∧ pc.Encodes e.bits data wire e'.bits ∧ wire.length ≤ bound

variable {bits bits' bits'' : BitBuffer} {data data' wire wire' : List UInt8}
  {e e' e'' : PackedEncoder} {bound bound' : Nat}

theorem Encodes.append (h : pc.Encodes bits data wire bits')
    (h' : pc.Encodes bits' data' wire' bits'') :
    pc.Encodes bits (data ++ data') (wire ++ wire') bits'' := by
  obtain ⟨groups, hwire, hbits⟩ := h
  obtain ⟨groups', hwire', hbits'⟩ := h'
  refine ⟨groups ++ groups', ?_, ?_⟩
  · rw [List.filter_append, hwire, hwire', List.map_append]
  · rw [List.flatMap_append, ← List.append_assoc, hbits, List.append_assoc, hbits',
      groupBits_append, List.append_assoc]

theorem Encodes.count (h : pc.Encodes bits data wire bits') :
    bits'.count % 6 = (bits.count + 8 * data.length) % 6 := by
  obtain ⟨groups, -, hbits⟩ := h
  have hlength := congrArg List.length hbits
  simp only [List.length_append, BitBuffer.length_bits, length_flatMap_byteBits,
    length_groupBits] at hlength
  omega

theorem Encodes.nil (bits : BitBuffer) : pc.Encodes bits [] [] bits :=
  ⟨[], rfl, List.append_nil _⟩

theorem Emits.trans (h : pc.Emits data bound e e') (h' : pc.Emits data' bound' e' e'') :
    pc.Emits (data ++ data') (bound + bound') e e'' := by
  obtain ⟨wire, hout, hencodes, hlength⟩ := h
  obtain ⟨wire', hout', hencodes', hlength'⟩ := h'
  refine ⟨wire ++ wire', ?_, hencodes.append hencodes', ?_⟩
  · rw [hout', hout, List.append_assoc]
  · rw [List.length_append]
    omega

theorem Emits.refl (e : PackedEncoder) : pc.Emits [] 0 e e :=
  ⟨[], (List.append_nil _).symm, .nil _, Nat.le_refl 0⟩

section

variable (h : pc.Emits data bound e e')
include h

theorem Emits.mono (hle : bound ≤ bound') : pc.Emits data bound' e e' := by
  obtain ⟨wire, hout, hencodes, hlength⟩ := h
  exact ⟨wire, hout, hencodes, Nat.le_trans hlength hle⟩

theorem Emits.count : e'.bits.count % 6 = (e.bits.count + 8 * data.length) % 6 := by
  obtain ⟨wire, -, hencodes, -⟩ := h
  exact hencodes.count

theorem Emits.length : e'.out.length ≤ e.out.length + bound := by
  obtain ⟨wire, hout, -, hlength⟩ := h
  rw [hout, List.length_append]
  omega

end

/-- A part of a `Write` that emits nothing but padding. -/
def Pads (pc : PackedConn) (bound : Nat) (e e' : PackedEncoder) : Prop :=
  ∃ padding, e'.out = e.out ++ padding ∧ padding.filter pc.carries = [] ∧
    padding.length ≤ bound ∧ e'.bits = e.bits

theorem Pads.emits (h : pc.Pads bound e e') : pc.Emits [] bound e e' := by
  obtain ⟨padding, hout, hfilter, hlength, hbits⟩ := h
  refine ⟨padding, hout, ⟨[], hfilter, ?_⟩, hlength⟩
  rw [hbits]
  exact List.append_nil _

/-- Drawing random numbers emits nothing. -/
theorem Pads.draw (pc : PackedConn) (rng : Draws) (bound : Nat) (e : PackedEncoder) :
    pc.Pads bound e ⟨rng, e.bits, e.out⟩ :=
  ⟨[], (List.append_nil _).symm, rfl, Nat.zero_le _, rfl⟩

theorem Sound.pads_pool (h : pc.Sound) (rng : Draws) (e : PackedEncoder) {i : Nat}
    (hi : i < pc.padPool.length) :
    pc.Pads 1 e ⟨rng, e.bits, e.out ++ [pc.padPool.getD i 0]⟩ := by
  refine ⟨_, rfl, ?_, Nat.le_refl 1, rfl⟩
  rw [List.filter_cons_of_neg, List.filter_nil]
  rw [h.pool _ (getD_mem hi)]
  exact Bool.false_ne_true

theorem Sound.pads_maybe (h : pc.Sound) (e : PackedEncoder) :
    pc.Pads 1 e (pc.maybeAppendPackedPadding e) := by
  rw [maybeAppendPackedPadding]
  split
  · simp only
    split
    · exact h.pads_pool _ e (fastIntnFromUint32_lt _ h.pool_pos h.pool_lt)
    · exact .draw pc _ 1 e
  · exact .draw pc e.rng 1 e

theorem Sound.pads_forced (h : pc.Sound) (e : PackedEncoder) :
    pc.Pads 1 e (pc.appendForcedPadding e) :=
  h.pads_pool _ e (e.rng.intn_lt h.pool_pos h.pool_lt)

theorem Sound.foldl_group (h : pc.Sound) (groups : List (Fin 64)) (e : PackedEncoder) :
    ∃ wire, (groups.foldl pc.appendPackedGroup e).out = e.out ++ wire ∧
      wire.filter pc.carries = groups.map pc.layout.encodeGroup ∧
      wire.length ≤ 2 * groups.length ∧ (groups.foldl pc.appendPackedGroup e).bits = e.bits := by
  induction groups generalizing e with
  | nil => exact ⟨[], (List.append_nil _).symm, rfl, Nat.le_refl 0, rfl⟩
  | cons group groups ih =>
    obtain ⟨padding, hout, hfilter, hlength, hbits⟩ := h.pads_maybe e
    obtain ⟨wire, hwire, hgroups, hlengths, hrest⟩ := ih (pc.appendPackedGroup e group)
    refine ⟨padding ++ pc.layout.encodeGroup group :: wire, ?_, ?_, ?_, ?_⟩
    · rw [List.foldl_cons, hwire, appendPackedGroup, hout]
      simp
    · rw [List.filter_append, hfilter, List.nil_append,
        List.filter_cons_of_pos (h.carries_group group), hgroups, List.map_cons]
    · rw [List.length_append, List.length_cons, List.length_cons]
      omega
    · rw [List.foldl_cons, hrest, appendPackedGroup, hbits]

theorem groupBits_map_ofNat (groups : List Nat) :
    groupBits (groups.map (Fin.ofNat 64)) = groups.flatMap (toBits 6) := by
  induction groups with
  | nil => rfl
  | cons group groups ih =>
    rw [List.map_cons, groupBits_cons, List.flatMap_cons]
    congr 1
    exact toBits_mod 6 group

section

variable {e : PackedEncoder} (h : pc.Sound) (hcount : e.bits.count < 6)
include h hcount

theorem Sound.emits_byte (b : UInt8) :
    pc.Emits [b] 4 e (pc.appendByte e b) ∧ (pc.appendByte e b).bits.count < 6 := by
  obtain ⟨hbits, hleft, -⟩ := @BitBuffer.popAll_spec
    (e.bits.push 8 b.toNat b.toNat_lt) 6 _ (by decide) (Nat.le_refl _)
  generalize hpop : BitBuffer.popAll 6 _ (e.bits.push 8 b.toNat b.toNat_lt) = popped at *
  obtain ⟨groups, bits⟩ := popped
  have hbyte : pc.appendByte e b = (groups.map (Fin.ofNat 64)).foldl pc.appendPackedGroup
      { e with bits := bits } := by
    rw [appendByte, List.foldl_map]
    simp only [hpop]
  obtain ⟨wire, hwire, hfilter, hlength, hrest⟩ :=
    h.foldl_group (groups.map (Fin.ofNat 64)) { e with bits := bits }
  rw [BitBuffer.bits_push] at hbits
  rw [hbyte]
  refine ⟨⟨wire, hwire, ⟨groups.map (Fin.ofNat 64), hfilter, ?_⟩, ?_⟩, ?_⟩
  · rw [groupBits_map_ofNat groups, hrest]
    exact hbits
  · have hsize := congrArg List.length hbits
    have hwidth : (groups.flatMap (toBits 6)).length = 6 * groups.length := by
      rw [← groupBits_map_ofNat groups, length_groupBits, List.length_map]
    rw [List.length_append, List.length_append, hwidth, length_toBits,
      BitBuffer.length_bits] at hsize
    rw [List.length_map] at hlength
    omega
  · rw [hrest]
    exact hleft

theorem Sound.emits_bytes (bytes : List UInt8) :
    pc.Emits bytes (4 * bytes.length) e (bytes.foldl pc.appendByte e) ∧
      (bytes.foldl pc.appendByte e).bits.count < 6 := by
  induction bytes generalizing e with
  | nil => exact ⟨.refl e, hcount⟩
  | cons b bytes ih =>
    obtain ⟨hbyte, hcount⟩ := h.emits_byte hcount b
    obtain ⟨hbytes, hcount⟩ := ih hcount
    refine ⟨(hbyte.trans hbytes).mono ?_, hcount⟩
    rw [List.length_cons]
    omega

end

/-! ## The prefix -/

/-- The loop ends, since its bound is never more than two. -/
theorem Sound.prefixPadding (h : pc.Sound) (fuel padCount : Nat) (hfuel : fuel + padCount = 3)
    (hpad : padCount ≤ 2) (e : PackedEncoder) :
    ∃ e', pc.prefixPadding fuel padCount e = some e' ∧ pc.Emits [] (2 - padCount) e e' ∧
      e'.bits = e.bits := by
  induction fuel generalizing padCount e with
  | zero => omega
  | succ fuel ih =>
    have htwo := e.rng.intn_lt (n := 2) (by decide) (by decide)
    rw [PackedConn.prefixPadding]
    simp only
    split
    · obtain ⟨e', hloop, hemits, hbits⟩ := ih (padCount + 1) (by omega) (by omega)
        (pc.appendForcedPadding ⟨(e.rng.intn 2).2, e.bits, e.out⟩)
      have hdraw := Pads.draw pc (e.rng.intn 2).2 0 e
      have hforced := h.pads_forced ⟨(e.rng.intn 2).2, e.bits, e.out⟩
      exact ⟨e', hloop, ((hdraw.emits.trans hforced.emits).trans hemits).mono (by omega), hbits⟩
    · exact ⟨_, rfl, (Pads.draw pc _ 0 e).emits.mono (Nat.zero_le _), rfl⟩

theorem Sound.emits_protected (h : pc.Sound) {e : PackedEncoder} (hcount : e.bits.count < 6)
    (gap effective : Nat) (bytes : List UInt8) :
    pc.Emits bytes (5 * bytes.length) e (pc.prefixBytes gap effective e bytes) ∧
      (pc.prefixBytes gap effective e bytes).bits.count < 6 := by
  induction bytes generalizing e gap effective with
  | nil =>
    exact ⟨.refl e, hcount⟩
  | cons b bytes ih =>
    obtain ⟨hbyte, hcount⟩ := h.emits_byte hcount b
    rw [prefixBytes]
    split
    · have hforced := h.pads_forced (pc.appendByte e b)
      generalize hpadded : pc.appendForcedPadding (pc.appendByte e b) = padded at hforced
      have hdraw := Pads.draw pc (padded.rng.intn 2).2 0 padded
      have hgap := (hforced.emits.trans hdraw.emits)
      obtain ⟨hbytes, hcount⟩ := @ih ⟨(padded.rng.intn 2).2, padded.bits, padded.out⟩
        (by rw [← hpadded]; exact hcount) (1 + (padded.rng.intn 2).1) 0
      refine ⟨((hbyte.trans hgap).trans hbytes).mono ?_, hcount⟩
      rw [List.length_cons]
      omega
    · obtain ⟨hbytes, hcount⟩ := ih hcount gap (effective + 1)
      refine ⟨(hbyte.trans hbytes).mono ?_, hcount⟩
      rw [List.length_cons]
      omega

theorem Sound.writeProtectedPrefix (h : pc.Sound) {e : PackedEncoder} (hcount : e.bits.count < 6)
    {p : List UInt8} (hp : p ≠ []) :
    ∃ e', pc.writeProtectedPrefix e p = some e' ∧
      pc.Emits (p.take packedProtectedPrefixBytes) 72 e e' ∧ e'.bits.count < 6 := by
  obtain ⟨e₁, hpadding, hemits, hbits⟩ := h.prefixPadding 3 0 rfl (by decide) e
  have hdraw := Pads.draw pc (e₁.rng.intn 2).2 0 e₁
  obtain ⟨hbytes, hlast⟩ := @Sound.emits_protected pc h ⟨(e₁.rng.intn 2).2, e₁.bits, e₁.out⟩
    (by rw [hbits]; exact hcount) (1 + (e₁.rng.intn 2).1) 0 (p.take packedProtectedPrefixBytes)
  refine ⟨_, ?_, ((hemits.trans hdraw.emits).trans hbytes).mono ?_, hlast⟩
  · rw [PackedConn.writeProtectedPrefix, if_neg hp, hpadding]
    rfl
  · have hlength := List.length_take_le packedProtectedPrefixBytes p
    rw [packedProtectedPrefixBytes] at *
    omega

/-- From a group boundary or not, at most two bytes lead to the next boundary. -/
theorem Sound.emits_align (h : pc.Sound) {e : PackedEncoder} (hcount : e.bits.count < 6)
    (heven : e.bits.count % 2 = 0) (rest : List UInt8) :
    ∃ bytes, rest = bytes ++ (pc.align e rest).2 ∧
      bytes.length ≤ (6 - e.bits.count) / 2 % 3 ∧
      pc.Emits bytes (4 * bytes.length) e (pc.align e rest).1 ∧
      (pc.align e rest).1.bits.count < 6 ∧
      ((pc.align e rest).2 = [] ∨ (pc.align e rest).1.bits.count = 0) := by
  induction rest generalizing e with
  | nil => exact ⟨[], rfl, Nat.zero_le _, .refl e, hcount, .inl rfl⟩
  | cons b rest ih =>
    rw [align]
    split
    next hpos =>
      obtain ⟨hbyte, hcount'⟩ := h.emits_byte hcount b
      have hmod := hbyte.count
      rw [List.length_singleton] at hmod
      obtain ⟨bytes, hrest, hlength, hbytes, hlast⟩ := ih hcount' (by omega)
      refine ⟨b :: bytes, ?_, ?_, (hbyte.trans hbytes).mono ?_, hlast⟩
      · rw [List.cons_append, ← hrest]
      · rw [List.length_cons]
        omega
      · rw [List.length_cons]
        omega
    next hzero =>
      have hboundary : e.bits.count = 0 := Nat.le_zero.mp (Nat.not_lt.mp hzero)
      exact ⟨[], rfl, Nat.zero_le _, .refl e, hcount, .inr hboundary⟩

/-! ## The blocks -/

/-- The bits of the four groups are the bits of the three bytes. -/
theorem groupBits_blockGroups (b₀ b₁ b₂ : UInt8) :
    groupBits (blockGroups b₀ b₁ b₂) = [b₀, b₁, b₂].flatMap byteBits := by
  have hlow : ∀ n k : Nat, toBits k (n &&& (2 ^ k - 1)) = toBits k n := by
    intro n k
    rw [Nat.and_two_pow_sub_one_eq_mod, toBits_mod]
  have hsecond := toBits_shiftLeft_or 2 4 (b₀.toNat &&& 3) (b₁.toNat >>> 4) (shiftRight_lt b₁ rfl)
  have hthird := toBits_shiftLeft_or 4 2 (b₁.toNat &&& 15) (b₂.toNat >>> 6) (shiftRight_lt b₂ rfl)
  simp only [blockGroups, groupBits_cons, List.flatMap_cons, List.flatMap_nil, byteBits]
  have hlow₀ : toBits 2 (b₀.toNat &&& 3) = toBits 2 b₀.toNat := hlow b₀.toNat 2
  have hlow₁ : toBits 4 (b₁.toNat &&& 15) = toBits 4 b₁.toNat := hlow b₁.toNat 4
  have hlow₂ : toBits 6 (b₂.toNat &&& 63) = toBits 6 b₂.toNat := hlow b₂.toNat 6
  have hbyte₁ : toBits 8 b₁.toNat = _ := toBits_add 4 4 b₁.toNat
  have hbyte₂ : toBits 8 b₂.toNat = _ := toBits_add 2 6 b₂.toNat
  rw [hsecond, hthird, hlow₀, hlow₁, hlow₂, hbyte₁, hbyte₂]
  rfl

section

variable {e : PackedEncoder} (h : pc.Sound) (hcount : e.bits.count = 0)
include h hcount

theorem Sound.emits_block (b₀ b₁ b₂ : UInt8) :
    pc.Emits [b₀, b₁, b₂] pc.blockSize e (pc.appendBlock e (blockGroups b₀ b₁ b₂)) ∧
      (pc.appendBlock e (blockGroups b₀ b₁ b₂)).bits.count = 0 := by
  have hbits : e.bits.bits ++ [b₀, b₁, b₂].flatMap byteBits =
      groupBits (blockGroups b₀ b₁ b₂) ++ e.bits.bits := by
    rw [groupBits_blockGroups, BitBuffer.eq_empty_of_count hcount, BitBuffer.bits_empty,
      List.nil_append, List.append_nil]
  by_cases hzero : pc.paddingThreshold = 0
  · rw [appendBlock, blockSize, if_pos hzero, if_neg (not_not_intro hzero)]
    refine ⟨⟨_, rfl, ⟨blockGroups b₀ b₁ b₂, ?_, hbits⟩, Nat.le_refl 4⟩, hcount⟩
    rw [List.filter_eq_self]
    intro b hb
    obtain ⟨group, -, rfl⟩ := List.mem_map.mp hb
    exact h.carries_group group
  · rw [appendBlock, blockSize, if_neg hzero, if_pos hzero]
    obtain ⟨wire, hout, hfilter, hlength, hsame⟩ := h.foldl_group (blockGroups b₀ b₁ b₂) e
    refine ⟨⟨wire, hout, ⟨blockGroups b₀ b₁ b₂, hfilter, ?_⟩, hlength⟩, ?_⟩
    · rw [hsame]
      exact hbits
    · rw [hsame]
      exact hcount

theorem Sound.emits_blocks {blocks : Nat} {bytes : List UInt8}
    (hlength : bytes.length = 3 * blocks) :
    pc.Emits bytes (pc.blockSize * blocks) e (pc.appendPackedBlocks e bytes) ∧
      (pc.appendPackedBlocks e bytes).bits.count = 0 := by
  induction blocks generalizing e bytes with
  | zero =>
    obtain rfl := List.eq_nil_of_length_eq_zero hlength
    exact ⟨.refl e, hcount⟩
  | succ blocks ih =>
    match bytes, hlength with
    | b₀ :: b₁ :: b₂ :: rest, hlength =>
      obtain ⟨hblock, hcount'⟩ := h.emits_block hcount b₀ b₁ b₂
      simp only [List.length_cons] at hlength
      obtain ⟨hrest, hlast⟩ := @ih _ hcount' rest (by omega)
      refine ⟨(hblock.trans hrest).mono ?_, hlast⟩
      rw [Nat.mul_succ, Nat.add_comm]

end

/-- As many blocks as there are and as fit, before the room that is kept free. -/
theorem blockCount {cap length blocks : Nat} (size : Nat) (hroom : length + 8 ≤ cap) :
    min ((cap - length - 8 : Int).tdiv size * 3) ((3 * blocks : Nat) : Int) =
      ((3 * min ((cap - length - 8) / size) blocks : Nat) : Int) := by
  have hnat : (cap - length - 8 : Int) = ((cap - length - 8 : Nat) : Int) := by omega
  rw [hnat, ← Int.ofNat_tdiv]
  omega

/-- The loop never asks for a negative number of bytes, and a round that sends the buffer is
followed by one that takes a block. -/
theorem Sound.blockLoop (h : pc.Sound) (grow : Nat → Nat → Nat) {fuel cap blocks : Nat}
    {e : PackedEncoder} {rest : List UInt8} (hcount : e.bits.count = 0) (hcap : 16 ≤ cap)
    (hroom : e.out.length + 8 ≤ cap) (hlength : rest.length = 3 * blocks)
    (hfuel : 2 * blocks + (if e.out = [] then 1 else 2) ≤ fuel) :
    ∃ e' cap' sent, pc.blockLoop grow fuel cap e rest = some (e', cap', sent) ∧
      e'.bits.count = 0 ∧
      ∃ wire, sent.flatten ++ e'.out = e.out ++ wire ∧ pc.Encodes e.bits rest wire e'.bits := by
  induction fuel generalizing blocks e rest with
  | zero => split at hfuel <;> omega
  | succ fuel ih =>
    have hsize : pc.blockSize = 4 ∨ pc.blockSize = 8 := by
      rw [blockSize]
      split
      · exact .inr rfl
      · exact .inl rfl
    rw [PackedConn.blockLoop]
    split
    next hnil =>
      subst hnil
      exact ⟨e, cap, [], rfl, hcount, [], by simp, .nil _⟩
    next hne =>
      have hblocks : 0 < blocks := by
        apply Nat.pos_of_ne_zero
        rintro rfl
        exact hne (List.eq_nil_of_length_eq_zero hlength)
      rw [hlength, blockCount pc.blockSize hroom]
      generalize hk : min ((cap - e.out.length - 8) / pc.blockSize) blocks = k
      dsimp only
      split
      next hzero =>
        -- The buffer is full, which it is not when it has just been sent.
        have hfull : (cap - e.out.length - 8) / pc.blockSize = 0 := by omega
        have hout : e.out ≠ [] := by
          intro hout
          rw [hout, List.length_nil] at hfull
          obtain hsize | hsize := hsize <;> rw [hsize] at hfull <;> omega
        rw [if_neg hout] at hfuel
        obtain ⟨e', cap', sent, hloop, hlast, wire, hwire, hencodes⟩ :=
          @ih blocks { e with out := [] } rest hcount (by simp; omega) hlength (by simp; omega)
        refine ⟨e', cap', e.out :: sent, by rw [hloop]; rfl, hlast, wire, ?_, hencodes⟩
        rw [List.flatten_cons, List.append_assoc, hwire, List.nil_append]
      next hpos =>
        have hfits : pc.blockSize * k ≤ cap - e.out.length - 8 :=
          Nat.le_trans (Nat.mul_le_mul_left _ (hk ▸ Nat.min_le_left _ _)) (Nat.mul_div_le _ _)
        rw [Int.toNat_natCast]
        have htake : (rest.take (3 * k)).length = 3 * k := by
          rw [List.length_take]
          omega
        obtain ⟨hemits, hcount'⟩ := h.emits_blocks hcount htake
        have hgrown := hemits.length
        obtain ⟨wire, hout, hencodes, -⟩ := hemits
        rw [capAfter_of_le (by omega)]
        obtain ⟨e', cap', sent, hloop, hlast, wire', hwire', hencodes'⟩ :=
          @ih (blocks - k) _ (rest.drop (3 * k)) hcount' (by omega)
            (by rw [List.length_drop]; omega) (by split at hfuel <;> split <;> omega)
        refine ⟨e', cap', sent, hloop, hlast, wire ++ wire', ?_, ?_⟩
        · rw [hwire', hout, List.append_assoc]
        · have happend := hencodes.append hencodes'
          rwa [List.take_append_drop] at happend

/-! ## The reader of what was emitted -/

/-- The reader does not see padding. -/
theorem feed_filter (pc : PackedConn) (bits : BitBuffer) (wire : List UInt8) :
    feed pc.step bits (wire.filter pc.carries) = feed pc.step bits wire := by
  induction wire generalizing bits with
  | nil => rfl
  | cons b wire ih =>
    rw [List.filter_cons]
    split
    next => rw [feed_cons_byte, feed_cons_byte, ih]
    next hsilent =>
      rw [carries, Bool.or_eq_true, not_or, decide_eq_true_eq, beq_iff_eq] at hsilent
      rw [feed_cons_byte, decodeByte, dif_neg hsilent.1, if_neg hsilent.2, ih]
      cases feed pc.step bits wire with
      | none | some next => rfl

/-- A reader has all bytes of a payload when it has read the groups of its bits. -/
theorem Sound.feed_payload (h : pc.Sound) {groups : List (Fin 64)} {p : List UInt8}
    {fill : List Bool} (hbits : groupBits groups = p.flatMap byteBits ++ fill)
    (hfill : fill.length < 8) :
    ∃ bits, feed pc.step .empty (groups.map pc.layout.encodeGroup) = some (bits, p) ∧
      bits.count = fill.length := by
  obtain ⟨bits, out, hfeed, hout, hcount⟩ := @feed_groups pc .empty h.layout (by decide) groups
  rw [BitBuffer.bits_empty, List.nil_append, hbits] at hout
  have hlength := congrArg List.length hout
  simp only [List.length_append, length_flatMap_byteBits, BitBuffer.length_bits] at hlength
  obtain ⟨rfl, hrest⟩ := eq_of_byteBits_append (by omega) hout
  exact ⟨bits, hfeed, by rw [hrest, BitBuffer.length_bits]⟩

theorem residualGroup_bits {bits : BitBuffer} (h : bits.count ≤ 6) :
    toBits 6 (residualGroup bits).val = bits.bits ++ toBits (6 - bits.count) 0 := by
  have hjoin := toBits_shiftLeft_or bits.count (6 - bits.count) bits.value 0 (Nat.two_pow_pos _)
  rw [Nat.or_zero, Nat.add_sub_cancel' h] at hjoin
  rw [BitBuffer.bits, ← hjoin]
  exact toBits_mod 6 _

theorem Sound.feed_marker (h : pc.Sound) (bits : BitBuffer) :
    feed pc.step bits [pc.layout.padMarker] = some (.empty, []) := by
  have hmarker : 64 ≤ pc.group pc.layout.padMarker :=
    UInt8.le_iff_toNat_le.mp (h.layout.decode_padding _ h.layout.marker)
  rw [feed_cons_byte, decodeByte, dif_neg (Nat.not_lt.mpr hmarker), if_pos rfl]
  rfl

/-- The last group of a `Write` is filled with zero bits and followed by a marker. -/
theorem Sound.feed_appendResidual (h : pc.Sound) {e : PackedEncoder} {p before : List UInt8}
    (hencodes : pc.Encodes .empty p (before ++ e.out) e.bits) (hcount : e.bits.count < 6) :
    feed pc.step .empty (before ++ (pc.appendResidual e).out) = some (.empty, p) ∧
      (pc.appendResidual e).bits.count = 0 := by
  obtain ⟨groups, hfilter, hbits⟩ := hencodes
  rw [BitBuffer.bits_empty, List.nil_append] at hbits
  rw [appendResidual]
  split
  next hpos =>
    obtain ⟨wire, hwire, hlast, -, hsame⟩ :=
      h.foldl_group [residualGroup e.bits] { e with bits := .empty }
    rw [List.foldl_cons, List.foldl_nil] at hwire hsame
    have hall : (before ++ (e.out ++ wire)).filter pc.carries =
        (groups ++ [residualGroup e.bits]).map pc.layout.encodeGroup := by
      rw [← List.append_assoc, List.filter_append, hfilter, hlast, List.map_append]
    have hgroups : groupBits (groups ++ [residualGroup e.bits]) =
        p.flatMap byteBits ++ toBits (6 - e.bits.count) 0 := by
      rw [groupBits_append, groupBits_cons, residualGroup_bits (Nat.le_of_lt hcount), hbits]
      simp [groupBits]
    obtain ⟨bits, hfeed, -⟩ := h.feed_payload hgroups (by rw [length_toBits]; omega)
    rw [← hall, feed_filter] at hfeed
    constructor
    · simp only [hwire]
      rw [← List.append_assoc, feed_append_of_some hfeed, h.feed_marker bits, Option.map_some,
        List.append_nil]
    · simp only [hsame]
      rfl
  next hzero =>
    have hempty : e.bits.count = 0 := Nat.le_zero.mp (Nat.not_lt.mp hzero)
    rw [BitBuffer.eq_empty_of_count hempty, BitBuffer.bits_empty] at hbits
    have hgroups : groupBits groups = p.flatMap byteBits ++ [] := by
      rw [hbits, List.append_nil, List.append_nil]
    obtain ⟨bits, hfeed, hlast⟩ := h.feed_payload hgroups (by decide)
    rw [← feed_filter, hfilter, hfeed, BitBuffer.eq_empty_of_count hlast]
    exact ⟨rfl, hempty⟩

end PackedConn

/-! ## Calls -/

namespace PackedWriter

open PackedConn

variable {pc : PackedConn} {grow : Nat → Nat → Nat} {w : PackedWriter}

/-- A call hands its payload to a reader that starts between two calls. -/
def Hands (pc : PackedConn) (p : List UInt8) (after : Option (PackedWriter × List (List UInt8))) :
    Prop :=
  ∃ w' sent, after = some (w', sent) ∧ w'.bits.count = 0 ∧
    feed pc.step .empty sent.flatten = some (.empty, p)

theorem hands_padding (h : pc.Sound) {e : PackedEncoder} {p before : List UInt8}
    (hfeed : feed pc.step .empty (before ++ e.out) = some (.empty, p)) :
    feed pc.step .empty (before ++ (pc.maybeAppendPackedPadding e).out) = some (.empty, p) ∧
      (pc.maybeAppendPackedPadding e).bits = e.bits := by
  obtain ⟨padding, hout, hsilent, -, hbits⟩ := h.pads_maybe e
  refine ⟨?_, hbits⟩
  rw [← feed_filter] at hfeed ⊢
  rw [hout, ← List.append_assoc, List.filter_append, hsilent, List.append_nil]
  exact hfeed

theorem hands_flush (h : pc.Sound) (hw : w.bits.count = 0) :
    Hands pc [] (some (w.flush pc grow)) := by
  have hstart : feed pc.step .empty ([] ++ []) = some (.empty, []) := rfl
  obtain ⟨hfeed, hbits⟩ := @hands_padding pc h ⟨w.rng, w.bits, []⟩ [] [] hstart
  have hzero : ¬ 0 < w.bits.count := by omega
  simp only [flush, if_neg hzero]
  split
  next =>
    refine ⟨_, _, rfl, by rw [hbits]; exact hw, ?_⟩
    rw [List.flatten_cons, List.flatten_nil, List.append_nil]
    exact hfeed
  next => exact ⟨_, _, rfl, by rw [hbits]; exact hw, rfl⟩

/-- The end of a `Write`, from the encoder behind its blocks. -/
theorem hands_end (h : pc.Sound) {e last : PackedEncoder} {data rest : List UInt8} {cap : Nat}
    {sent : List (List UInt8)} (hcount : e.bits.count < 6)
    (hencodes : pc.Encodes .empty data (sent.flatten ++ e.out) e.bits)
    (hend : pc.maybeAppendPackedPadding (pc.appendResidual (rest.foldl pc.appendByte e)) = last) :
    Hands pc (data ++ rest) (some
      (⟨last.rng, releaseWriteBuf (capAfter grow cap last.out), last.bits⟩,
        sent ++ [last.out])) := by
  subst hend
  obtain ⟨⟨wire, hout, htail, -⟩, hcount'⟩ := h.emits_bytes hcount rest
  have hall := hencodes.append htail
  rw [List.append_assoc, ← hout] at hall
  obtain ⟨hfeed, hlast⟩ := h.feed_appendResidual hall hcount'
  obtain ⟨hfeed, hbits⟩ := hands_padding h hfeed
  refine ⟨_, _, rfl, by rw [hbits]; exact hlast, ?_⟩
  rw [List.flatten_append, List.flatten_cons, List.flatten_nil, List.append_nil]
  exact hfeed

/-- There is room for the prefix and for a block when there are blocks at all. -/
theorem room_of_blocks {p : List UInt8} (cap : Nat) (hp : 17 ≤ p.length) :
    109 ≤ growWriteBuf cap
      (min (min p.length maxEncodedWriteSize * 3 + 64) maxEncodedWriteSize) := by
  refine Nat.le_trans ?_ (le_growWriteBuf cap (Nat.min_le_right _ _))
  rw [maxEncodedWriteSize]
  omega

theorem hands_write (h : pc.Sound) (hw : w.bits.count = 0) (p : List UInt8) :
    Hands pc p (w.write pc grow p) := by
  rw [write]
  split
  next hnil => exact ⟨w, [], rfl, hw, by rw [hnil]; rfl⟩
  next hne =>
    obtain ⟨e, hprotected, hfirst, hcount⟩ := @Sound.writeProtectedPrefix pc h ⟨w.rng, w.bits, []⟩
      (by rw [hw]; decide) p hne
    rw [hprotected, Option.bind_some]
    have hmod := hfirst.count
    obtain ⟨bytes, hrest, haligned, halign, hcount', hboundary⟩ :=
      h.emits_align hcount (by simp only [hw] at hmod; omega) (p.drop packedProtectedPrefixBytes)
    generalize pc.align e (p.drop packedProtectedPrefixBytes) = aligned at *
    obtain ⟨e₂, rest⟩ := aligned
    dsimp only at *
    have hp : p = p.take packedProtectedPrefixBytes ++ bytes ++ rest := by
      rw [List.append_assoc, ← hrest, List.take_append_drop]
    obtain ⟨wire, hout, hencodes, hwire⟩ := hfirst.trans halign
    rw [BitBuffer.eq_empty_of_count hw] at hencodes
    rw [List.nil_append] at hout
    generalize hcap : growWriteBuf w.writeBuf _ = cap
    generalize hwhole : rest.length / 3 * 3 = whole
    have hloop : ∃ e₃ cap' sent, pc.blockLoop grow (2 * whole + 1) (capAfter grow cap e₂.out) e₂
          (rest.take whole) = some (e₃, cap', sent) ∧ e₃.bits.count < 6 ∧
        pc.Encodes .empty (p.take packedProtectedPrefixBytes ++ bytes ++ rest.take whole)
          (sent.flatten ++ e₃.out) e₃.bits := by
      by_cases hblocks : whole = 0
      · subst hblocks
        refine ⟨e₂, capAfter grow cap e₂.out, [], rfl, hcount', ?_⟩
        rw [List.take_zero, List.append_nil, List.flatten_nil, hout]
        exact hencodes
      · have hpos : 3 ≤ rest.length := by omega
        have hzero : e₂.bits.count = 0 := by
          refine hboundary.resolve_left ?_
          rintro rfl
          exact absurd hpos (by decide)
        have hlong : 17 ≤ p.length := by
          have hlength := congrArg List.length hrest
          rw [List.length_append, List.length_drop, packedProtectedPrefixBytes] at hlength
          omega
        have hroom : 109 ≤ cap := hcap ▸ room_of_blocks w.writeBuf hlong
        have hshort : e₂.out.length ≤ 80 := by
          rw [hout]
          omega
        have htake : (rest.take whole).length = 3 * (rest.length / 3) := by
          rw [List.length_take]
          omega
        have hfuel : 2 * (rest.length / 3) + (if e₂.out = [] then 1 else 2) ≤ 2 * whole + 1 := by
          split <;> omega
        rw [capAfter_of_le (by omega)]
        obtain ⟨e₃, cap', sent, hrun, hlast, wire', hwire', hencodes'⟩ :=
          @Sound.blockLoop pc h grow _ cap _ e₂ _ hzero (by omega) (by omega) htake hfuel
        refine ⟨e₃, cap', sent, hrun, by omega, ?_⟩
        rw [hwire', hout]
        exact hencodes.append hencodes'
    obtain ⟨e₃, cap', sent, hrun, hcount₃, hencodes₃⟩ := hloop
    rw [hrun]
    have hend := @hands_end pc grow h e₃ _ _ (rest.drop whole) cap' sent hcount₃ hencodes₃ rfl
    rw [List.append_assoc, List.take_append_drop, ← hp] at hend
    exact hend

/-- What a sequence of calls sends is read as the sequence of their payloads. -/
theorem hands_calls (h : pc.Sound) (hw : w.bits.count = 0) (calls : List PackedCall) :
    Hands pc (calls.flatMap PackedCall.payload) (w.calls pc grow calls) := by
  induction calls generalizing w with
  | nil => exact ⟨w, [], rfl, hw, rfl⟩
  | cons call calls ih =>
    have hcall : Hands pc call.payload (w.call pc grow call) := by
      cases call with
      | write p => exact hands_write h hw p
      | flush => exact hands_flush h hw
    obtain ⟨w', sent, hafter, hw', hfeed⟩ := hcall
    obtain ⟨w'', more, hcalls, hw'', hfeed'⟩ := ih hw'
    refine ⟨w'', sent ++ more, ?_, hw'', ?_⟩
    · rw [PackedWriter.calls, hafter]
      simp [hcalls]
    · rw [List.flatten_append, feed_append_of_some hfeed, hfeed', Option.map_some,
        List.flatMap_cons]

end PackedWriter

/-- Whatever the layout, the padding, the random numbers and the calls are, the writer ends every
call, and a reader of the same layout returns the payloads in order, however the wire bytes are
cut into chunks and whatever the sizes of its buffers are. The fast path of its decoder is the
accumulator. -/
theorem packed_roundTrip {mode customPattern : List UInt8} {layout : ByteLayout}
    (h : resolveLayout mode customPattern = .ok layout) (paddingThreshold readerThreshold : UInt64)
    (grow : Nat → Nat → Nat) (rng : Draws) (calls : List PackedCall) :
    (∃ w sent, (PackedWriter.start rng).calls (newPackedConn layout paddingThreshold) grow calls =
        some (w, sent) ∧
      ∀ chunks sizes, chunks.flatten = sent.flatten →
        ∃ results bits source,
          (newPackedConn layout readerThreshold).reads sizes .empty ⟨[], chunks⟩ =
            some (results, bits, source) ∧
          Decoding.Delivers sizes results (calls.flatMap PackedCall.payload)) ∧
    ∀ room bits chunk,
      (newPackedConn layout readerThreshold).decodeLoop chunk.length room bits chunk =
        (newPackedConn layout readerThreshold).decodeBytes room bits chunk := by
  have hsound := PackedConn.newPackedConn_sound (resolveLayout_sound h) paddingThreshold
  refine ⟨?_, fun room bits chunk => PackedConn.decodeLoop_eq _ bits room (Nat.le_refl _)⟩
  obtain ⟨w, sent, hcalls, -, hfeed⟩ :=
    @PackedWriter.hands_calls _ grow (.start rng) hsound rfl calls
  refine ⟨w, sent, hcalls, ?_⟩
  intro chunks sizes hchunks
  -- The reader's connection has the layout of the writer's, and with it the same steps.
  have hread : feed (newPackedConn layout readerThreshold).step .empty
      (Source.unread ⟨[], chunks⟩) = some (.empty, calls.flatMap PackedCall.payload) := by
    rw [Source.unread, hchunks]
    exact hfeed
  exact reads_delivers _ (PackedConn.decode_implements _) sizes hread

/-- Two bytes in the ASCII layout with padding before every group, read in buffers of one byte. -/
theorem packed_roundTrip_ascii :
    ∃ layout w sent, resolveLayout (Strings.bytes "prefer_ascii") [] = .ok layout ∧
      (PackedWriter.start (wyDraws 7)).calls (newPackedConn layout (2 ^ 32)) (fun _ n => n)
        [.write [1, 2], .flush] = some (w, sent) ∧
      ∃ results bits source,
        (newPackedConn layout 0).reads [1, 1, 1] .empty ⟨[], [sent.flatten]⟩ =
          some (results, bits, source) ∧
        Decoding.Delivers [1, 1, 1] results [1, 2] := by
  have hlayout : resolveLayout (Strings.bytes "prefer_ascii") [] = .ok newASCIILayout := by
    rw [resolveLayout, if_pos]
    exact .inr (Strings.toLower_of_lower (by decide +kernel))
  obtain ⟨⟨w, sent, hcalls, hread⟩, -⟩ := packed_roundTrip hlayout (2 ^ 32) 0 (fun _ n => n)
    (wyDraws 7) [.write [1, 2], .flush]
  exact ⟨_, w, sent, hlayout, hcalls, hread [sent.flatten] [1, 1, 1] (by simp)⟩

end Sudoku
