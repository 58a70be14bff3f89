import CheezyCore.Sudoku.LayoutSound
import CheezyCore.Sudoku.PackedConn

/-!
# Decoding packed groups

The accumulator is the meaning of the decoder: the bits of the groups that went in are the bits
of the bytes that came out and those it holds. The fast path for four groups gives the same.
-/

namespace Sudoku

open Decoding

/-- The bits of a list of groups. -/
def groupBits (groups : List (Fin 64)) : List Bool :=
  groups.flatMap fun group : Fin 64 => toBits 6 group.val

@[simp] theorem groupBits_cons (group : Fin 64) (groups : List (Fin 64)) :
    groupBits (group :: groups) = toBits 6 group.val ++ groupBits groups := List.flatMap_cons

@[simp] theorem length_groupBits (groups : List (Fin 64)) :
    (groupBits groups).length = 6 * groups.length := by
  induction groups with
  | nil => rfl
  | cons group groups ih =>
    rw [groupBits_cons, List.length_append, length_toBits, List.length_cons]
    omega

@[simp] theorem groupBits_append (first second : List (Fin 64)) :
    groupBits (first ++ second) = groupBits first ++ groupBits second := List.flatMap_append

namespace PackedConn

variable {pc : PackedConn} (bits : BitBuffer) {b : UInt8} {room : Nat}

/-- What the accumulator does with a wire byte. -/
def step (pc : PackedConn) (bits : BitBuffer) (b : UInt8) : Option (BitBuffer × List UInt8) :=
  some (pc.decodeByte bits b)

theorem feed_cons_byte (pc : PackedConn) (bits : BitBuffer) (b : UInt8) (rest : List UInt8) :
    feed pc.step bits (b :: rest) = (feed pc.step (pc.decodeByte bits b).1 rest).map fun next =>
      (next.1, (pc.decodeByte bits b).2 ++ next.2) := by
  rfl

/-! ## One byte -/

/-- A group goes in, and a byte comes out once there are eight bits. -/
theorem decodeByte_group (h : pc.group b < 64) :
    bits.bits ++ toBits 6 (pc.group b) =
        (pc.decodeByte bits b).2.flatMap byteBits ++ (pc.decodeByte bits b).1.bits ∧
      8 * (pc.decodeByte bits b).2.length = if 2 ≤ bits.count then 8 else 0 := by
  rw [decodeByte, dif_pos h, takeByte, BitBuffer.count_push]
  split
  next hfull =>
    have hpop := @BitBuffer.bits_pop (bits.push 6 _ h) 8 hfull
    have hlt := @BitBuffer.pop_lt (bits.push 6 _ h) 8 hfull
    refine ⟨?_, ?_⟩
    · rw [← BitBuffer.bits_push h, hpop, List.flatMap_singleton, byteBits,
        UInt8.toNat_ofNat_of_lt' hlt]
    · rw [if_pos (by omega), List.length_singleton]
  next hfew =>
    refine ⟨?_, ?_⟩
    · rw [BitBuffer.bits_push, List.flatMap_nil, List.nil_append]
    · rw [if_neg (by omega), List.length_nil]

theorem count_decodeByte (h : pc.group b < 64) :
    (pc.decodeByte bits b).1.count + 8 * (pc.decodeByte bits b).2.length = bits.count + 6 := by
  have hlength := congrArg List.length (decodeByte_group bits h).1
  simp only [List.length_append, BitBuffer.length_bits, length_toBits,
    length_flatMap_byteBits] at hlength
  omega

theorem length_decodeByte_le (pc : PackedConn) (bits : BitBuffer) (b : UInt8) :
    (pc.decodeByte bits b).2.length ≤ 1 := by
  rw [decodeByte]
  split
  · rw [takeByte]
    split
    · exact Nat.le_refl 1
    · exact Nat.zero_le 1
  · exact Nat.zero_le 1

/-- The bits of a stream of groups. -/
theorem feed_groups {bits : BitBuffer} (hlayout : pc.layout.Sound) (hbits : bits.count < 8)
    (groups : List (Fin 64)) :
    ∃ bits' out, feed pc.step bits (groups.map pc.layout.encodeGroup) = some (bits', out) ∧
      bits.bits ++ groupBits groups = out.flatMap byteBits ++ bits'.bits ∧ bits'.count < 8 := by
  induction groups generalizing bits with
  | nil => exact ⟨bits, [], rfl, List.append_nil _, hbits⟩
  | cons group groups ih =>
    have hdecode : pc.group (pc.layout.encodeGroup group) = group := by
      rw [PackedConn.group, hlayout.decode_encode, toNat_ofNat_group]
    have hvalid := hdecode ▸ group.isLt
    obtain ⟨hstep, hlength⟩ := decodeByte_group bits hvalid
    have hcount := count_decodeByte bits hvalid
    rw [hdecode] at hstep
    obtain ⟨bits', out, hfeed, hrest, hbits'⟩ := @ih
      (pc.decodeByte bits (pc.layout.encodeGroup group)).1 (by split at hlength <;> omega)
    refine ⟨bits', (pc.decodeByte bits (pc.layout.encodeGroup group)).2 ++ out, ?_, ?_, hbits'⟩
    · rw [List.map_cons, feed_cons_byte, hfeed, Option.map_some]
    · rw [groupBits_cons, ← List.append_assoc, hstep, List.append_assoc, hrest,
        List.flatMap_append, List.append_assoc]

/-! ## A chunk -/

theorem decodeBytes_cons (hroom : room ≠ 0) (chunk : List UInt8) :
    pc.decodeBytes room bits (b :: chunk) =
      ((pc.decodeByte bits b).2 ++ (pc.decodeBytes (room - (pc.decodeByte bits b).2.length)
          (pc.decodeByte bits b).1 chunk).1,
        (pc.decodeBytes (room - (pc.decodeByte bits b).2.length)
          (pc.decodeByte bits b).1 chunk).2) := by
  rw [decodeBytes, if_neg hroom]

theorem decodeBytes_spec (pc : PackedConn) (bits : BitBuffer) (room : Nat) (chunk : List UInt8) :
    ∃ consumed, chunk = consumed ++ (pc.decodeBytes room bits chunk).2.2 ∧
      feed pc.step bits consumed =
        some ((pc.decodeBytes room bits chunk).2.1, (pc.decodeBytes room bits chunk).1) ∧
      (pc.decodeBytes room bits chunk).1.length ≤ room ∧
      ((pc.decodeBytes room bits chunk).2.2 = [] ∨
        (pc.decodeBytes room bits chunk).1.length = room) := by
  induction chunk generalizing room bits with
  | nil => exact ⟨[], rfl, rfl, Nat.zero_le room, .inl rfl⟩
  | cons b chunk ih =>
    by_cases hroom : room = 0
    · rw [decodeBytes, if_pos hroom]
      exact ⟨[], rfl, rfl, Nat.zero_le room, .inr hroom.symm⟩
    · rw [decodeBytes_cons bits hroom]
      have hone := length_decodeByte_le pc bits b
      obtain ⟨consumed, hchunk, hfeed, hlength, hstop⟩ :=
        ih (pc.decodeByte bits b).1 (room - (pc.decodeByte bits b).2.length)
      refine ⟨b :: consumed, ?_, ?_, ?_, ?_⟩
      · rw [List.cons_append, ← hchunk]
      · rw [feed_cons_byte, hfeed, Option.map_some]
      · rw [List.length_append]
        omega
      · obtain hnil | hfull := hstop
        · exact .inl hnil
        · refine .inr ?_
          rw [List.length_append]
          omega

/-- The bits of the three bytes are the bits of the four groups. -/
theorem flatMap_byteBits_block (g₁ : Nat) {g₂ g₃ g₄ : Nat} (h₂ : g₂ < 64) (h₃ : g₃ < 64)
    (h₄ : g₄ < 64) :
    (blockBytes g₁ g₂ g₃ g₄).flatMap byteBits =
      toBits 6 g₁ ++ toBits 6 g₂ ++ toBits 6 g₃ ++ toBits 6 g₄ := by
  have hbyte : ∀ n : Nat, byteBits (UInt8.ofNat n) = toBits 8 n := by
    intro n
    rw [byteBits, UInt8.toNat_ofNat', toBits_mod]
  have hhigh : ∀ {g k n : Nat}, g < 64 → k + n = 6 → g >>> k < 2 ^ n := by
    intro g k n hg hkn
    rw [Nat.shiftRight_eq_div_pow, Nat.div_lt_iff_lt_mul (Nat.two_pow_pos k), ← Nat.pow_add,
      Nat.add_comm, hkn]
    exact hg
  have hfirst := toBits_shiftLeft_or 6 2 g₁ (g₂ >>> 4) (hhigh h₂ rfl)
  have hsecond := toBits_shiftLeft_or 4 4 g₂ (g₃ >>> 2) (hhigh h₃ rfl)
  have hthird := toBits_shiftLeft_or 2 6 g₃ g₄ h₄
  simp only [blockBytes, List.flatMap_cons, List.flatMap_nil, List.append_nil, hbyte]
  rw [hfirst, hsecond, hthird, toBits_add 2 4 g₂, toBits_add 4 2 g₃]
  simp

/-- The fast path: four groups without bits before them are three bytes. -/
theorem decodeBytes_block {b₁ b₂ b₃ b₄ : UInt8} (hcount : bits.count = 0)
    (hroom : 3 ≤ room) (h₁ : pc.group b₁ < 64)
    (h₂ : pc.group b₂ < 64) (h₃ : pc.group b₃ < 64)
    (h₄ : pc.group b₄ < 64) (rest : List UInt8) {bytes : List UInt8}
    (hbytes : bytes.flatMap byteBits =
      toBits 6 (pc.group b₁) ++ toBits 6 (pc.group b₂) ++
        toBits 6 (pc.group b₃) ++ toBits 6 (pc.group b₄)) :
    pc.decodeBytes room bits (b₁ :: b₂ :: b₃ :: b₄ :: rest) =
      (bytes ++ (pc.decodeBytes (room - 3) bits rest).1,
        (pc.decodeBytes (room - 3) bits rest).2) := by
  obtain rfl := BitBuffer.eq_empty_of_count hcount
  obtain ⟨hbits₁, hout₁⟩ := decodeByte_group .empty h₁
  have hcount₁ := count_decodeByte .empty h₁
  generalize hs₁ : pc.decodeByte .empty b₁ = s₁ at hbits₁ hout₁ hcount₁
  obtain ⟨hbits₂, hout₂⟩ := decodeByte_group s₁.1 h₂
  have hcount₂ := count_decodeByte s₁.1 h₂
  generalize hs₂ : pc.decodeByte s₁.1 b₂ = s₂ at hbits₂ hout₂ hcount₂
  obtain ⟨hbits₃, hout₃⟩ := decodeByte_group s₂.1 h₃
  have hcount₃ := count_decodeByte s₂.1 h₃
  generalize hs₃ : pc.decodeByte s₂.1 b₃ = s₃ at hbits₃ hout₃ hcount₃
  obtain ⟨hbits₄, hout₄⟩ := decodeByte_group s₃.1 h₄
  have hcount₄ := count_decodeByte s₃.1 h₄
  generalize hs₄ : pc.decodeByte s₃.1 b₄ = s₄ at hbits₄ hout₄ hcount₄
  -- The accumulator holds 6, 4, 2 and 0 bits after the four groups.
  rw [if_pos (by omega)] at hout₂
  rw [if_pos (by omega)] at hout₃
  rw [if_pos (by omega)] at hout₄
  have hlast : s₄.1 = .empty := BitBuffer.eq_empty_of_count (by omega)
  have hbits : bytes.flatMap byteBits ++ [] =
      (s₁.2 ++ s₂.2 ++ s₃.2 ++ s₄.2).flatMap byteBits ++ s₄.1.bits := by
    rw [BitBuffer.bits_empty, List.nil_append] at hbits₁
    rw [List.append_nil, hbytes, hbits₁, List.append_assoc _ s₁.1.bits, hbits₂,
      ← List.append_assoc, List.append_assoc _ s₂.1.bits, hbits₃, ← List.append_assoc,
      List.append_assoc _ s₃.1.bits, hbits₄]
    simp only [List.flatMap_append, List.append_assoc]
  have hall : bytes = s₁.2 ++ s₂.2 ++ s₃.2 ++ s₄.2 := by
    have hlength := congrArg List.length hbytes
    simp only [length_flatMap_byteBits, List.length_append, length_toBits] at hlength
    refine (eq_of_byteBits_append ?_ hbits).1
    simp only [List.length_append]
    omega
  rw [decodeBytes_cons _ (by omega), hs₁, decodeBytes_cons _ (by omega), hs₂,
    decodeBytes_cons _ (by omega), hs₃, decodeBytes_cons _ (by omega), hs₄, hlast]
  have hleft : room - s₁.2.length - s₂.2.length - s₃.2.length - s₄.2.length = room - 3 := by omega
  rw [hleft, hall]
  simp only [List.append_assoc]

/-- What the fast path found. -/
theorem decodeBlock_eq_some {chunk bytes rest : List UInt8}
    (h : pc.decodeBlock room bits chunk = some (bytes, rest)) : rest.length + 4 = chunk.length ∧
      pc.decodeBytes room bits chunk = (bytes ++ (pc.decodeBytes (room - 3) bits rest).1,
        (pc.decodeBytes (room - 3) bits rest).2) := by
  rw [decodeBlock.eq_def] at h
  split at h
  next b₁ b₂ b₃ b₄ rest =>
    split at h <;> cases h
    next hfast =>
      obtain ⟨hcount, hroom, hvalid⟩ := hfast
      have h₄ := Nat.lt_of_le_of_lt Nat.right_le_or hvalid
      have h₁₂₃ := Nat.lt_of_le_of_lt Nat.left_le_or hvalid
      have h₃ := Nat.lt_of_le_of_lt Nat.right_le_or h₁₂₃
      have h₁₂ := Nat.lt_of_le_of_lt Nat.left_le_or h₁₂₃
      have h₂ := Nat.lt_of_le_of_lt Nat.right_le_or h₁₂
      have h₁ := Nat.lt_of_le_of_lt Nat.left_le_or h₁₂
      exact ⟨rfl, decodeBytes_block bits hcount hroom h₁ h₂ h₃ h₄ rest
        (flatMap_byteBits_block _ h₂ h₃ h₄)⟩
  · cases h

/-- The fast path agrees with the accumulator. -/
theorem decodeLoop_eq (pc : PackedConn) (bits : BitBuffer) {fuel : Nat} {chunk : List UInt8}
    (room : Nat) (h : chunk.length ≤ fuel) :
    pc.decodeLoop fuel room bits chunk = pc.decodeBytes room bits chunk := by
  fun_induction decodeLoop pc fuel room bits chunk with
  | case1 room bits chunk =>
    obtain rfl := List.eq_nil_of_length_eq_zero (Nat.le_zero.mp h)
    rfl
  | case2 | case3 => rfl
  | case4 fuel room bits b chunk _ bytes rest hblock more bits' rest' hrest ih =>
    obtain ⟨hlength, hbytes⟩ := decodeBlock_eq_some bits hblock
    rw [List.length_cons] at hlength h
    rw [hbytes, ← ih (by omega), hrest]
  | case5 fuel room bits b chunk hroom _ bits' bytes hbyte more last rest hrest ih =>
    rw [decodeBytes_cons bits hroom, hbyte, ← ih (Nat.le_of_succ_le_succ h), hrest]

theorem decode_implements (pc : PackedConn) : Implements pc.decode pc.step := by
  intro bits bits' room chunk out hroom hfeed
  obtain ⟨consumed, hchunk, hconsumed, hlength, hstop⟩ := decodeBytes_spec pc bits room chunk
  have hdecode := decodeLoop_eq pc bits room (Nat.le_refl chunk.length)
  refine ⟨consumed, ?_⟩
  simp only [decode, hdecode]
  exact ⟨hchunk, hconsumed, hlength, hstop, trivial⟩

end PackedConn

end Sudoku
