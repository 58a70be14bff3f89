import Mathlib.Data.Nat.Bitwise
import CheezyCore.Sudoku.Layout

/-!
# Hints can be told from padding

Every layout that `resolveLayout` returns decodes what it encodes, and its padding bytes are
no hints. A custom pattern names each bit of a byte once, so the bits of an encoded byte can
be read one by one.
-/

namespace Sudoku

/-- The six bits of a hint. -/
def hintGroup (val : Fin 4) (pos : Fin 16) : Fin 64 := ⟨16 * val + pos, by omega⟩

/-- The hints of a layout can be told from each other and from its padding. -/
structure ByteLayout.Sound (layout : ByteLayout) : Prop where
  decode_encode : ∀ group, layout.decodeGroup (layout.encodeGroup group) = UInt8.ofNat group
  hint_group : ∀ val pos, layout.encodeHint val pos = layout.encodeGroup (hintGroup val pos)
  decode_padding : ∀ b ∈ layout.paddingPool, 64 ≤ layout.decodeGroup b
  marker : layout.padMarker ∈ layout.paddingPool
  spare : ∃ b ∈ layout.paddingPool, b ≠ layout.padMarker
  pool_length : layout.paddingPool.length ≤ 128
  indexed : ∃ aliases, layout.hintIdx = indexHints layout.encodeHint aliases ∧
    ∀ b ∈ aliases, b ∉ layout.paddingPool

theorem toNat_ofNat_group (group : Fin 64) : (UInt8.ofNat group).toNat = group :=
  UInt8.toNat_ofNat_of_lt' (Nat.lt_trans group.isLt (by decide))

namespace ByteLayout.Sound

variable {layout : ByteLayout} (h : layout.Sound)
include h

theorem decode_lt (group : Fin 64) : layout.decodeGroup (layout.encodeGroup group) < 64 := by
  rw [h.decode_encode, UInt8.lt_iff_toNat_lt, toNat_ofNat_group]
  exact group.isLt

end ByteLayout.Sound

theorem newASCIILayout_sound : newASCIILayout.Sound where
  decode_encode := by decide
  hint_group := by decide
  decode_padding := by decide +kernel
  marker := by decide
  spare := ⟨0x20, by decide, by decide⟩
  pool_length := by decide
  indexed := by
    refine ⟨_, rfl, ?_⟩
    intro b halias hpadding
    have hclear : ∀ b ∈ newASCIILayout.paddingPool, b &&& 0x40 ≠ 0x40 := by
      decide +kernel
    exact hclear b hpadding (of_decide_eq_true (List.mem_filter.mp halias).2)

theorem newEntropyLayout_sound : newEntropyLayout.Sound where
  decode_encode := by decide
  hint_group := by decide
  decode_padding := by decide +kernel
  marker := by decide
  spare := ⟨0x10, by decide, by decide⟩
  pool_length := by decide
  indexed := ⟨_, rfl, nofun⟩

/-! ## Bits of a byte -/

section Bits

variable {i j : Nat} {a b : UInt8}

theorem toNat_bitMask (h : i < 8) : (bitMask i).toNat = 2 ^ i :=
  (by decide : ∀ i : Fin 8, (bitMask i).toNat = 2 ^ i.val) ⟨i, h⟩

theorem testBit_bitMask (h : i < 8) (j : Nat) : (bitMask i).toNat.testBit j = decide (i = j) := by
  rw [toNat_bitMask h, Nat.testBit_two_pow]

theorem testBit_or (a b : UInt8) (j : Nat) :
    (a ||| b).toNat.testBit j = (a.toNat.testBit j || b.toNat.testBit j) := by
  rw [UInt8.toNat_or, Nat.testBit_or]

theorem testBit_andNot (h : i < 8) (a : UInt8) (j : Nat) :
    (a &&& ~~~bitMask i).toNat.testBit j = (a.toNat.testBit j && decide (i ≠ j)) := by
  have hmask := testBit_bitMask h j
  by_cases hj : j < 8
  · have hnot : (~~~bitMask i).toNat.testBit j = !(bitMask i).toNat.testBit j := by
      show (~~~bitMask i).toBitVec.toNat.testBit j = !(bitMask i).toBitVec.toNat.testBit j
      rw [BitVec.testBit_toNat, BitVec.testBit_toNat, UInt8.toBitVec_not, BitVec.getLsbD_not,
        decide_eq_true hj, Bool.true_and]
    rw [UInt8.toNat_and, Nat.testBit_and, hnot, hmask, decide_not]
  · have hlarge : ∀ c : UInt8, c.toNat.testBit j = false := fun c =>
      Nat.testBit_lt_two_pow (Nat.lt_of_lt_of_le c.toNat_lt
        (Nat.pow_le_pow_right (by decide) (Nat.not_lt.mp hj)))
    rw [hlarge, hlarge, Bool.false_and]

theorem and_bitMask_ne_zero (h : i < 8) : a &&& bitMask i ≠ 0 ↔ a.toNat.testBit i = true := by
  rw [Ne, ← UInt8.toNat_inj, UInt8.toNat_and, toNat_bitMask h, Nat.and_two_pow]
  cases a.toNat.testBit i with
  | false | true => simp

theorem testBit_ite_bitMask (h : i < 8) (c : Prop) [Decidable c] (a : UInt8) (j : Nat) :
    (if c then a ||| bitMask i else a).toNat.testBit j =
      (a.toNat.testBit j || (decide c && decide (i = j))) := by
  split
  next hc => rw [testBit_or, testBit_bitMask h, decide_eq_true hc, Bool.true_and]
  next hc => rw [decide_eq_false hc, Bool.false_and, Bool.or_false]

/-- The masks of the chosen bits are set one after the other. -/
theorem testBit_foldl_bitMask {ι : Type*} {items : List ι} {chosen : ι → Prop}
    [DecidablePred chosen] {bit : ι → Nat} (h : ∀ x ∈ items, bit x < 8) (a : UInt8) (j : Nat) :
    (items.foldl (fun out x => if chosen x then out ||| bitMask (bit x) else out)
        a).toNat.testBit j =
      (a.toNat.testBit j || items.any fun x => decide (chosen x) && decide (bit x = j)) := by
  induction items generalizing a with
  | nil => rw [List.foldl_nil, List.any_nil, Bool.or_false]
  | cons x items ih =>
    rw [List.forall_mem_cons] at h
    rw [List.foldl_cons, ih h.2,
      testBit_ite_bitMask h.1, List.any_cons, Bool.or_assoc]

end Bits

/-! ## Custom layouts are sound -/

/-- The bits of a pattern are the eight bits of a byte, two of them x and two of them p. -/
structure PatternBits.Valid (bits : PatternBits) : Prop where
  positions : (bits.xBits ++ bits.pBits ++ bits.vBits).Perm (List.range 8)
  xLength : bits.xBits.length = 2
  pLength : bits.pBits.length = 2
  vLength : bits.vBits.length = 4

theorem exists_of_map_eq_ok {ε α β : Type*} {f : α → β} {e : Except ε α} {b : β}
    (h : e.map f = .ok b) : ∃ a, e = .ok a ∧ f a = b := by
  cases e with
  | error _ => cases h
  | ok a => exact ⟨a, rfl, Except.ok.inj h⟩

variable {bits : PatternBits}

theorem patternBits_spec {runes : List Char} {i : Nat}
    (h : patternBits i runes = .ok bits) :
    (∀ c ∈ runes, c.toNat < 128) ∧
      (bits.xBits ++ bits.pBits ++ bits.vBits).Perm
        ((List.range' i runes.length).map (7 - ·)) := by
  fun_induction patternBits i runes generalizing bits with
  | case1 =>
    cases h
    exact ⟨nofun, .nil⟩
  | case2 i rest ih =>
    obtain ⟨bits', hrest, rfl⟩ := exists_of_map_eq_ok h
    obtain ⟨hascii, hpositions⟩ := ih hrest
    exact ⟨List.forall_mem_cons.mpr ⟨by decide, hascii⟩, hpositions.cons _⟩
  | case3 i rest _ ih =>
    obtain ⟨bits', hrest, rfl⟩ := exists_of_map_eq_ok h
    obtain ⟨hascii, hpositions⟩ := ih hrest
    exact ⟨List.forall_mem_cons.mpr ⟨by decide, hascii⟩,
      (List.perm_middle.append_right _).trans (hpositions.cons _)⟩
  | case4 i rest _ _ ih =>
    obtain ⟨bits', hrest, rfl⟩ := exists_of_map_eq_ok h
    obtain ⟨hascii, hpositions⟩ := ih hrest
    exact ⟨List.forall_mem_cons.mpr ⟨by decide, hascii⟩,
      List.perm_middle.trans (hpositions.cons _)⟩
  | case5 => cases h

namespace PatternBits

variable {x₀ x₁ p₀ p₁ v₀ v₁ v₂ v₃ : Nat} {b : UInt8}

theorem Valid.exists_bits (h : bits.Valid) :
    ∃ x₀ x₁ p₀ p₁ v₀ v₁ v₂ v₃, bits = ⟨[x₀, x₁], [p₀, p₁], [v₀, v₁, v₂, v₃]⟩ ∧
      [x₀, x₁, p₀, p₁, v₀, v₁, v₂, v₃].Perm (List.range 8) := by
  obtain ⟨xBits, pBits, vBits⟩ := bits
  obtain ⟨hpositions, hx, hp, hv⟩ := h
  match xBits, pBits, vBits, hpositions, hx, hp, hv with
  | [x₀, x₁], [p₀, p₁], [v₀, v₁, v₂, v₃], hpositions, _, _, _ =>
    exact ⟨x₀, x₁, p₀, p₁, v₀, v₁, v₂, v₃, rfl, hpositions⟩

theorem testBit_xMask (hx₀ : x₀ < 8) (hx₁ : x₁ < 8) (pBits vBits : List Nat) (j : Nat) :
    (xMask ⟨[x₀, x₁], pBits, vBits⟩).toNat.testBit j = decide (x₀ = j ∨ x₁ = j) := by
  rw [xMask, List.foldl_cons, List.foldl_cons, List.foldl_nil, testBit_or, testBit_or,
    testBit_bitMask hx₀, testBit_bitMask hx₁]
  simp

/-- Every bit is set by one part of the pattern. -/
theorem testBit_encodeBits (hlt : ∀ b ∈ [x₀, x₁, p₀, p₁, v₀, v₁, v₂, v₃], b < 8)
    (val pos : UInt8) (dropX : Option Nat) (hdrop : ∀ x ∈ dropX, x < 8) (j : Nat) :
    (encodeBits ⟨[x₀, x₁], [p₀, p₁], [v₀, v₁, v₂, v₃]⟩ val pos dropX).toNat.testBit j =
      ((decide (x₀ = j ∨ x₁ = j) && decide (dropX ≠ some j)) ||
        (decide (val &&& 2 ≠ 0) && decide (p₀ = j)) ||
        (decide (val &&& 1 ≠ 0) && decide (p₁ = j)) ||
        ((decide (pos >>> 3 &&& 1 = 1) && decide (v₀ = j)) ||
          (decide (pos >>> 2 &&& 1 = 1) && decide (v₁ = j)) ||
          (decide (pos >>> 1 &&& 1 = 1) && decide (v₂ = j)) ||
          (decide (pos >>> 0 &&& 1 = 1) && decide (v₃ = j)))) := by
  simp only [List.forall_mem_cons] at hlt
  obtain ⟨hx₀, hx₁, hp₀, hp₁, hv₀, hv₁, hv₂, hv₃, -⟩ := hlt
  have hx : (xMaskWithout ⟨[x₀, x₁], [p₀, p₁], [v₀, v₁, v₂, v₃]⟩ dropX).toNat.testBit j =
      (decide (x₀ = j ∨ x₁ = j) && decide (dropX ≠ some j)) := by
    cases dropX with
    | none =>
      rw [xMaskWithout, testBit_xMask hx₀ hx₁]
      simp
    | some x =>
      rw [xMaskWithout, testBit_andNot (hdrop x rfl), testBit_xMask hx₀ hx₁]
      simp
  rw [encodeBits, testBit_foldl_bitMask]
  · simp only [List.getD_cons_zero, List.getD_cons_succ, testBit_ite_bitMask hp₀,
      testBit_ite_bitMask hp₁, hx]
    simp [Bool.or_assoc]
  · simp [hv₀, hv₁, hv₂, hv₃]

/-- What the bits of an encoded byte are. -/
structure Reads (x₀ x₁ p₀ p₁ v₀ v₁ v₂ v₃ : Nat) (val pos : UInt8) (dropX : Option Nat)
    (b : UInt8) : Prop where
  x₀ : b.toNat.testBit x₀ = decide (dropX ≠ some x₀)
  x₁ : b.toNat.testBit x₁ = decide (dropX ≠ some x₁)
  p₀ : b.toNat.testBit p₀ = decide (val &&& 2 ≠ 0)
  p₁ : b.toNat.testBit p₁ = decide (val &&& 1 ≠ 0)
  v₀ : b.toNat.testBit v₀ = decide (pos >>> 3 &&& 1 = 1)
  v₁ : b.toNat.testBit v₁ = decide (pos >>> 2 &&& 1 = 1)
  v₂ : b.toNat.testBit v₂ = decide (pos >>> 1 &&& 1 = 1)
  v₃ : b.toNat.testBit v₃ = decide (pos >>> 0 &&& 1 = 1)

theorem reads_encodeBits (hbits : [x₀, x₁, p₀, p₁, v₀, v₁, v₂, v₃].Perm (List.range 8))
    (val pos : UInt8) (dropX : Option Nat) (hdrop : ∀ x ∈ dropX, x < 8) :
    Reads x₀ x₁ p₀ p₁ v₀ v₁ v₂ v₃ val pos dropX
      (encodeBits ⟨[x₀, x₁], [p₀, p₁], [v₀, v₁, v₂, v₃]⟩ val pos dropX) := by
  have hlt : ∀ b ∈ [x₀, x₁, p₀, p₁, v₀, v₁, v₂, v₃], b < 8 :=
    fun b hb => List.mem_range.mp (hbits.subset hb)
  have hbit := testBit_encodeBits hlt val pos dropX hdrop
  have hnodup := hbits.nodup_iff.mpr List.nodup_range
  simp only [List.nodup_cons, List.mem_cons, List.not_mem_nil, or_false, not_or] at hnodup
  constructor
  all_goals
    rw [hbit]
    simp [hnodup, eq_comm]

/-- A byte without one of the x bits is padding. -/
theorem decodeBits_of_testBit (h : bits.Valid) {x : Nat} (hx : x ∈ bits.xBits)
    (hb : b.toNat.testBit x = false) : bits.decodeBits b = 0xff := by
  obtain ⟨x₀, x₁, p₀, p₁, v₀, v₁, v₂, v₃, rfl, hbits⟩ := h.exists_bits
  have hx₀ : x₀ < 8 := List.mem_range.mp (hbits.subset (by simp))
  have hx₁ : x₁ < 8 := List.mem_range.mp (hbits.subset (by simp))
  have hmask : (xMask ⟨[x₀, x₁], [p₀, p₁], [v₀, v₁, v₂, v₃]⟩).toNat.testBit x = true := by
    rw [testBit_xMask hx₀ hx₁, decide_eq_true_eq]
    simpa [eq_comm] using hx
  rw [decodeBits, if_pos]
  intro heq
  have hbit := congrArg (fun c : UInt8 => c.toNat.testBit x) heq
  rw [UInt8.toNat_and, Nat.testBit_and, hb, hmask] at hbit
  cases hbit

theorem and_xMask_of_reads (hx₀ : x₀ < 8) (hx₁ : x₁ < 8) {val pos : UInt8}
    (h : Reads x₀ x₁ p₀ p₁ v₀ v₁ v₂ v₃ val pos none b) :
    b &&& xMask ⟨[x₀, x₁], [p₀, p₁], [v₀, v₁, v₂, v₃]⟩ =
      xMask ⟨[x₀, x₁], [p₀, p₁], [v₀, v₁, v₂, v₃]⟩ := by
  apply UInt8.toNat_inj.mp
  apply Nat.eq_of_testBit_eq
  intro j
  rw [UInt8.toNat_and, Nat.testBit_and, testBit_xMask hx₀ hx₁]
  by_cases hj : x₀ = j ∨ x₁ = j
  · obtain rfl | rfl := hj
    · rw [h.x₀, decide_eq_true nofun, Bool.true_and]
    · rw [h.x₁, decide_eq_true nofun, Bool.true_and]
  · rw [decide_eq_false hj, Bool.and_false]

/-- A byte with both x bits is a hint, whose six bits are those of the pattern. -/
theorem decodeBits_encodeBits (h : bits.Valid) (val : Fin 4) (pos : Fin 16) :
    bits.decodeBits (bits.encodeBits (UInt8.ofNat val) (UInt8.ofNat pos) none) =
      UInt8.ofNat (hintGroup val pos) := by
  obtain ⟨x₀, x₁, p₀, p₁, v₀, v₁, v₂, v₃, rfl, hbits⟩ := h.exists_bits
  have hreads := reads_encodeBits hbits (UInt8.ofNat val) (UInt8.ofNat pos) none nofun
  have hlt : ∀ b ∈ [x₀, x₁, p₀, p₁, v₀, v₁, v₂, v₃], b < 8 :=
    fun b hb => List.mem_range.mp (hbits.subset hb)
  simp only [List.forall_mem_cons] at hlt
  obtain ⟨hx₀, hx₁, hp₀, hp₁, hv₀, hv₁, hv₂, hv₃, -⟩ := hlt
  rw [decodeBits, if_neg (not_not_intro (and_xMask_of_reads hx₀ hx₁ hreads))]
  simp only [List.getD_cons_zero, List.getD_cons_succ, List.zipIdx_cons, List.zipIdx_nil,
    List.foldl_cons, List.foldl_nil, and_bitMask_ne_zero hp₀, and_bitMask_ne_zero hp₁,
    and_bitMask_ne_zero hv₀, and_bitMask_ne_zero hv₁, and_bitMask_ne_zero hv₂,
    and_bitMask_ne_zero hv₃, hreads.p₀, hreads.p₁, hreads.v₀, hreads.v₁, hreads.v₂, hreads.v₃,
    decide_eq_true_eq]
  clear hreads
  revert val pos
  decide

theorem mem_dedupFirst {bytes : List UInt8} : b ∈ dedupFirst bytes ↔ b ∈ bytes := by
  have hfold : ∀ (bytes seen : List UInt8),
      b ∈ bytes.foldl (fun seen b => if b ∈ seen then seen else seen ++ [b]) seen ↔
        b ∈ seen ∨ b ∈ bytes := by
    intro bytes
    induction bytes with
    | nil => simp
    | cons a bytes ih =>
      intro seen
      rw [List.foldl_cons, ih, List.mem_cons]
      split
      next ha =>
        have hself : b = a → b ∈ seen := fun heq => heq ▸ ha
        tauto
      next => rw [List.mem_append, List.mem_singleton, or_assoc]
  rw [dedupFirst, hfold]
  simp

theorem length_dedupFirst_le (bytes : List UInt8) : (dedupFirst bytes).length ≤ bytes.length := by
  have hfold : ∀ (bytes seen : List UInt8),
      (bytes.foldl (fun seen b => if b ∈ seen then seen else seen ++ [b]) seen).length ≤
        seen.length + bytes.length := by
    intro bytes
    induction bytes with
    | nil => exact fun seen => Nat.le_refl _
    | cons a bytes ih =>
      intro seen
      rw [List.foldl_cons, List.length_cons]
      refine Nat.le_trans (ih _) ?_
      split
      · omega
      · rw [List.length_append, List.length_singleton]
        omega
  have hlength := hfold bytes []
  rwa [List.length_nil, Nat.zero_add] at hlength

theorem length_padding_le (h : bits.Valid) : bits.padding.length ≤ 128 := by
  rw [padding, List.length_insertionSort]
  refine Nat.le_trans (length_dedupFirst_le _) (Nat.le_trans (List.length_filter_le _ _) ?_)
  simp [h.xLength]

theorem mem_padding : b ∈ bits.padding ↔ ∃ drop ∈ bits.xBits, ∃ val < 4, ∃ pos < 16,
      bits.encodeBits (UInt8.ofNat val) (UInt8.ofNat pos) (some drop) = b ∧ 5 ≤ onesCount8 b := by
  rw [padding, List.mem_insertionSort, mem_dedupFirst, List.mem_filter]
  simp only [List.mem_flatMap, List.mem_map, List.mem_range, decide_eq_true_eq,
    ← exists_and_right, and_assoc]

theorem Valid.lt_of_mem_xBits (h : bits.Valid) {x : Nat}
    (hx : x ∈ bits.xBits) : x < 8 := by
  apply List.mem_range.mp
  apply h.positions.subset
  rw [List.append_assoc]
  exact List.mem_append_left _ hx

theorem decodeBits_padding (h : bits.Valid) (hb : b ∈ bits.padding) : bits.decodeBits b = 0xff := by
  obtain ⟨drop, hdrop, val, -, pos, -, rfl, -⟩ := mem_padding.mp hb
  apply decodeBits_of_testBit h hdrop
  have hlt : drop < 8 := h.lt_of_mem_xBits hdrop
  obtain ⟨x₀, x₁, p₀, p₁, v₀, v₁, v₂, v₃, rfl, hbits⟩ := h.exists_bits
  have hreads := reads_encodeBits hbits (UInt8.ofNat val) (UInt8.ofNat pos) (some drop)
    fun x hx => Option.mem_some.mp hx ▸ hlt
  obtain rfl | hdrop := List.mem_cons.mp hdrop
  · rw [hreads.x₀]
    simp
  · cases List.mem_singleton.mp hdrop
    rw [hreads.x₁]
    simp

theorem five_le_onesCount8 (hbits : [x₀, x₁, p₀, p₁, v₀, v₁, v₂, v₃].Perm (List.range 8))
    {dropX : Option Nat} (h : Reads x₀ x₁ p₀ p₁ v₀ v₁ v₂ v₃ 3 15 dropX b) : 5 ≤ onesCount8 b := by
  have hset : ∀ i ∈ [p₀, p₁, v₀, v₁, v₂, v₃], b.toNat.testBit i = true := by
    simp only [List.forall_mem_cons]
    exact ⟨h.p₀, h.p₁, h.v₀, h.v₁, h.v₂, h.v₃, nofun⟩
  have hcount : [p₀, p₁, v₀, v₁, v₂, v₃].countP (fun i => b.toNat.testBit i) = 6 :=
    List.countP_eq_length.mpr hset
  rw [onesCount8, ← hbits.countP_eq, List.countP_cons, List.countP_cons]
  omega

/-- The bytes with all bits but one x bit are padding. -/
theorem exists_padding (h : bits.Valid) :
    ∃ b ∈ bits.padding, ∃ b' ∈ bits.padding, b ≠ b' := by
  obtain ⟨x₀, x₁, p₀, p₁, v₀, v₁, v₂, v₃, rfl, hbits⟩ := h.exists_bits
  have hx₀ : x₀ < 8 := List.mem_range.mp (hbits.subset (by simp))
  have hx₁ : x₁ < 8 := List.mem_range.mp (hbits.subset (by simp))
  have hone := reads_encodeBits hbits 3 15 (some x₀) fun x hx => Option.mem_some.mp hx ▸ hx₀
  have htwo := reads_encodeBits hbits 3 15 (some x₁) fun x hx => Option.mem_some.mp hx ▸ hx₁
  refine ⟨_, mem_padding.mpr ⟨x₀, by simp, 3, by decide, 15, by decide, rfl,
      five_le_onesCount8 hbits hone⟩,
    _, mem_padding.mpr ⟨x₁, by simp, 3, by decide, 15, by decide, rfl,
      five_le_onesCount8 hbits htwo⟩, ?_⟩
  intro heq
  have hbit := hone.x₀.symm.trans
    ((congrArg (fun b : UInt8 => b.toNat.testBit x₀) heq).trans htwo.x₀)
  have hne : x₁ ≠ x₀ := by
    rintro rfl
    simpa using hbits.nodup_iff.mpr List.nodup_range
  simp [hne] at hbit

theorem layout_sound (h : bits.Valid) {first : UInt8}
    (hfirst : first ∈ bits.padding) : (bits.layout first).Sound where
  decode_encode := by
    intro group
    have hsplit : ∀ group : Fin 64, ∃ (val : Fin 4) (pos : Fin 16), hintGroup val pos = group ∧
        (UInt8.ofNat group >>> 4) &&& 3 = UInt8.ofNat val ∧
        UInt8.ofNat group &&& 0x0F = UInt8.ofNat pos := by decide
    obtain ⟨val, pos, rfl, hval, hpos⟩ := hsplit group
    simp only [layout, hval, hpos]
    exact decodeBits_encodeBits h val pos
  hint_group := by
    intro val pos
    have hparts : ∀ (val : Fin 4) (pos : Fin 16),
        (UInt8.ofNat (hintGroup val pos) >>> 4) &&& 3 = UInt8.ofNat val ∧
        UInt8.ofNat (hintGroup val pos) &&& 0x0F = UInt8.ofNat pos := by decide
    simp only [layout, hparts val pos]
  decode_padding := by
    intro b hb
    rw [show (bits.layout first).decodeGroup b = 0xff from decodeBits_padding h hb]
    decide
  marker := hfirst
  spare := by
    obtain ⟨b, hb, b', hb', hne⟩ := exists_padding h
    by_cases heq : b = first
    · exact ⟨b', hb', heq ▸ hne.symm⟩
    · exact ⟨b, hb, heq⟩
  pool_length := length_padding_le h
  indexed := ⟨_, rfl, nofun⟩

end PatternBits

theorem newCustomLayout_sound {pattern : List UInt8} {layout : ByteLayout}
    (h : newCustomLayout pattern = .ok layout) : layout.Sound := by
  revert h
  fun_cases newCustomLayout pattern with
  | case5 cleaned hlength bits hbits hcounts first =>
    rename_i hpadding
    rintro ⟨⟩
    simp only [not_or, not_not, cleaned] at hlength hcounts hbits
    rw [Strings.decode_toLower] at hbits
    obtain ⟨hascii, hpositions⟩ := patternBits_spec hbits
    rw [Strings.toLower, Utf8.length_encode_of_ascii hascii] at hlength
    rw [hlength] at hpositions
    refine PatternBits.layout_sound ⟨?_, hcounts.1, hcounts.2.1, hcounts.2.2⟩ ?_
    · exact hpositions.trans (by decide)
    · rw [hpadding]
      exact List.mem_cons_self
  | _ => rintro ⟨⟩

theorem resolveLayout_sound {mode customPattern : List UInt8} {layout : ByteLayout}
    (h : resolveLayout mode customPattern = .ok layout) : layout.Sound := by
  rw [resolveLayout] at h
  split at h
  · cases h
    exact newASCIILayout_sound
  · split at h
    · split at h
      · exact newCustomLayout_sound h
      · cases h
        exact newEntropyLayout_sound
    · cases h

end Sudoku
