import Mathlib.Algebra.Order.Ring.Int
import Mathlib.Data.List.Basic

/-!
# Strings of bytes and their runes

A string is a list of bytes and need not be well-formed UTF-8. `decode` reads its runes
the way a loop over a string does: a byte at which no encoded rune begins counts as the
replacement character. `encode` writes runes back. Decoding undoes encoding, and an ASCII
byte is always a rune of its own, so decoding goes through a string piece by piece
between such bytes.
-/

namespace Utf8

variable {s rest : List UInt8} {c : Char} {runes : List Char} {x : UInt8}

def encode (runes : List Char) : List UInt8 := runes.flatMap String.utf8EncodeChar

/-- The encoded rune at the beginning of a string. -/
def decodeRune (s : List UInt8) : Option Char := s.toByteArray.utf8DecodeChar? 0

/-- What stands for a byte that begins no rune. -/
def runeError : Char := '�'

/-- The runes of a string of at most `length` bytes. -/
def decodeFrom : Nat → List UInt8 → List Char
  | _, [] => []
  | 0, _ => []
  | length + 1, b :: rest =>
    match decodeRune (b :: rest) with
    | some c => c :: decodeFrom length ((b :: rest).drop c.utf8Size)
    | none => runeError :: decodeFrom length rest

def decode (s : List UInt8) : List Char := decodeFrom s.length s

/-! ## One rune -/

theorem decodeRune_encode_append (c : Char) (rest : List UInt8) :
    decodeRune (String.utf8EncodeChar c ++ rest) = some c := by
  unfold decodeRune
  rw [List.toByteArray_append]
  exact ByteArray.utf8DecodeChar?_utf8EncodeChar_append

theorem decodeRune_eq_some_iff :
    decodeRune s = some c ↔ ∃ rest, s = String.utf8EncodeChar c ++ rest := by
  constructor
  · intro h
    obtain ⟨l, hl⟩ := ByteArray.exists_of_utf8DecodeChar?_eq_some h
    refine ⟨l.data.toList, ?_⟩
    have hbytes := congrArg (fun b : ByteArray => b.data.toList) hl
    simpa using hbytes
  · rintro ⟨rest, rfl⟩
    exact decodeRune_encode_append c rest

theorem length_drop_utf8Size_le (c : Char) (b : UInt8) (rest : List UInt8) :
    ((b :: rest).drop c.utf8Size).length ≤ rest.length := by
  have hpos := c.utf8Size_pos
  rw [List.length_drop, List.length_cons]
  omega

/-- Enough room gives the same runes. -/
theorem decodeFrom_eq {n m : Nat} (hn : s.length ≤ n) (hm : s.length ≤ m) :
    decodeFrom n s = decodeFrom m s := by
  induction n generalizing s m with
  | zero =>
    obtain rfl : s = [] := List.eq_nil_of_length_eq_zero (Nat.le_zero.mp hn)
    cases m <;> rfl
  | succ n ih =>
    cases s with
    | nil => cases m <;> rfl
    | cons b rest =>
      cases m with
      | zero => cases hm
      | succ m =>
        have hn : rest.length ≤ n := Nat.le_of_succ_le_succ hn
        have hm : rest.length ≤ m := Nat.le_of_succ_le_succ hm
        rw [decodeFrom, decodeFrom]
        split
        · next c _ =>
          have hle := length_drop_utf8Size_le c b rest
          rw [ih (Nat.le_trans hle hn) (Nat.le_trans hle hm)]
        · rw [ih hn hm]

@[simp] theorem decode_nil : decode [] = [] := rfl

theorem decode_encode_append (c : Char) (rest : List UInt8) :
    decode (String.utf8EncodeChar c ++ rest) = c :: decode rest := by
  have hlength : (String.utf8EncodeChar c).length = c.utf8Size := String.length_utf8EncodeChar c
  have hrune := decodeRune_encode_append c rest
  have hdrop : (String.utf8EncodeChar c ++ rest).drop c.utf8Size = rest := by
    rw [← hlength, List.drop_left]
  cases hs : String.utf8EncodeChar c ++ rest with
  | nil =>
    have hpos := c.utf8Size_pos
    have hzero := congrArg List.length hs
    rw [List.length_append, List.length_nil] at hzero
    omega
  | cons b tail =>
    have hle := length_drop_utf8Size_le c b tail
    rw [hs] at hrune hdrop
    rw [hdrop] at hle
    rw [decode, List.length_cons, decodeFrom, hrune]
    simp only
    rw [hdrop, decodeFrom_eq hle (Nat.le_refl _)]
    rfl

theorem decode_cons_of_none (h : decodeRune (x :: rest) = none) :
    decode (x :: rest) = runeError :: decode rest := by
  rw [decode, List.length_cons, decodeFrom, h]
  rfl

/-- A string is empty, begins with an encoded rune, or with a byte that begins none. -/
theorem decode_cases (s : List UInt8) :
    s = [] ∨ (∃ c rest, s = String.utf8EncodeChar c ++ rest) ∨
      ∃ x rest, s = x :: rest ∧ decodeRune s = none := by
  cases s with
  | nil => exact .inl rfl
  | cons x rest =>
    cases h : decodeRune (x :: rest) with
    | none => exact .inr (.inr ⟨x, rest, rfl, rfl⟩)
    | some c =>
      obtain ⟨tail, htail⟩ := decodeRune_eq_some_iff.mp h
      exact .inr (.inl ⟨c, tail, htail⟩)

/-! ## Decoding undoes encoding -/

theorem encode_cons (c : Char) (runes : List Char) :
    encode (c :: runes) = String.utf8EncodeChar c ++ encode runes := List.flatMap_cons

theorem decode_encode (runes : List Char) : decode (encode runes) = runes := by
  induction runes with
  | nil => rfl
  | cons c rest ih => rw [encode_cons, decode_encode_append, ih]

/-! ## ASCII -/

/-- The rune of an ASCII byte. -/
def rune (x : UInt8) : Char := Char.ofNat x.toNat

theorem toNat_ofNat {n : Nat} (h : n.isValidChar) : (Char.ofNat n).toNat = n := by
  rw [Char.ofNat, dif_pos h]
  rfl

theorem toNat_rune (x : UInt8) : (rune x).toNat = x.toNat := by
  have hx := x.toNat_lt
  exact toNat_ofNat (.inl (by omega))

theorem utf8EncodeChar_of_ascii (h : c.toNat < 128) :
    String.utf8EncodeChar c = [UInt8.ofNat c.toNat] := by
  have hle : c.val.toNat ≤ 0x7f := Nat.le_of_lt_succ h
  simp only [String.utf8EncodeChar, hle, if_true]
  rfl

theorem utf8EncodeChar_rune (h : x < 128) : String.utf8EncodeChar (rune x) = [x] := by
  have hx : x.toNat < 128 := UInt8.lt_iff_toNat_lt.mp h
  rw [utf8EncodeChar_of_ascii (by rw [toNat_rune]; exact hx), toNat_rune, UInt8.ofNat_toNat]

/-- Only an ASCII rune has an ASCII byte in its encoding. -/
theorem not_ascii_of_mem (h : 128 ≤ c.toNat) (hx : x ∈ String.utf8EncodeChar c) :
    128 ≤ x.toNat := by
  have hgt : ¬ c.val.toNat ≤ 0x7f := Nat.not_le_of_lt h
  simp only [String.utf8EncodeChar, hgt, if_false] at hx
  split at hx
  · simp only [List.mem_cons, List.not_mem_nil, or_false] at hx
    rcases hx with rfl | rfl
    all_goals
      rw [UInt8.toNat_ofNat']
      omega
  · split at hx
    · simp only [List.mem_cons, List.not_mem_nil, or_false] at hx
      rcases hx with rfl | rfl | rfl
      all_goals
        rw [UInt8.toNat_ofNat']
        omega
    · simp only [List.mem_cons, List.not_mem_nil, or_false] at hx
      rcases hx with rfl | rfl | rfl | rfl
      all_goals
        rw [UInt8.toNat_ofNat']
        omega

theorem eq_rune_of_mem (hx : x ∈ String.utf8EncodeChar c) (h : x < 128) :
    c = rune x ∧ String.utf8EncodeChar c = [x] := by
  have hlt : x.toNat < 128 := UInt8.lt_iff_toNat_lt.mp h
  have hc : c.toNat < 128 := by
    rcases Nat.lt_or_ge c.toNat 128 with hc | hc
    · exact hc
    · have hhigh := not_ascii_of_mem hc hx
      omega
  rw [utf8EncodeChar_of_ascii hc] at hx ⊢
  have hxc := List.mem_singleton.mp hx
  refine ⟨Char.toNat_inj.mp ?_, by rw [hxc]⟩
  rw [toNat_rune, hxc, UInt8.toNat_ofNat']
  omega

/-- A rune that begins before an ASCII byte ends before it. -/
theorem decodeRune_append_ascii (hnone : decodeRune s = none) (hs : s ≠ []) (h : x < 128)
    (rest : List UInt8) : decodeRune (s ++ x :: rest) = none := by
  cases hrune : decodeRune (s ++ x :: rest) with
  | none => rfl
  | some c =>
    obtain ⟨tail, htail⟩ := decodeRune_eq_some_iff.mp hrune
    rcases List.append_eq_append_iff.mp htail with ⟨more, henc, hrest⟩ | ⟨more, hbefore, -⟩
    · cases more with
      | nil =>
        have hbefore : s = String.utf8EncodeChar c ++ [] := by
          rw [henc, List.append_nil, List.append_nil]
        have hsome := decodeRune_eq_some_iff.mpr ⟨[], hbefore⟩
        rw [hnone] at hsome
        cases hsome
      | cons y more =>
        obtain rfl : x = y := (List.cons.inj hrest).1
        have hmem : x ∈ String.utf8EncodeChar c := by
          rw [henc]
          exact List.mem_append_right _ List.mem_cons_self
        have hone := (eq_rune_of_mem hmem h).2
        rw [henc] at hone
        have hlength := congrArg List.length hone
        have hpos := List.length_pos_of_ne_nil hs
        simp only [List.length_append, List.length_cons, List.length_nil] at hlength
        omega
    · have hsome := decodeRune_eq_some_iff.mpr ⟨more, hbefore⟩
      rw [hnone] at hsome
      cases hsome

/-- An ASCII byte is a rune of its own, whatever stands before and after it. -/
theorem decode_append_ascii (first second : List UInt8) (h : x < 128) :
    decode (first ++ x :: second) = decode first ++ rune x :: decode second := by
  induction hn : first.length using Nat.strongRecOn generalizing first with
  | ind n ih =>
    subst hn
    rcases decode_cases first with rfl | ⟨c, rest, rfl⟩ | ⟨y, rest, rfl, hnone⟩
    · have henc := decode_encode_append (rune x) second
      rw [utf8EncodeChar_rune h] at henc
      exact henc
    · have hlt : rest.length < (String.utf8EncodeChar c ++ rest).length := by
        have hpos := c.utf8Size_pos
        rw [List.length_append, String.length_utf8EncodeChar]
        omega
      rw [List.append_assoc, decode_encode_append, decode_encode_append, ih _ hlt rest rfl]
      rfl
    · have hwhole := decodeRune_append_ascii hnone nofun h second
      rw [List.cons_append] at hwhole ⊢
      rw [decode_cons_of_none hwhole, decode_cons_of_none hnone, ih _ (Nat.lt_succ_self _) rest rfl]
      rfl

/-- In an ASCII string the runes are the bytes. -/
theorem decode_of_ascii (h : ∀ x ∈ s, x < 128) : decode s = s.map rune := by
  induction s with
  | nil => rfl
  | cons x rest ih =>
    rw [List.forall_mem_cons] at h
    have hx := decode_append_ascii [] rest h.1
    rw [List.nil_append, decode_nil, List.nil_append] at hx
    rw [hx, ih h.2, List.map_cons]

theorem encode_map_rune (h : ∀ x ∈ s, x < 128) : encode (s.map rune) = s := by
  induction s with
  | nil => rfl
  | cons x rest ih =>
    rw [List.forall_mem_cons] at h
    rw [List.map_cons, encode_cons, utf8EncodeChar_rune h.1,
      ih h.2]
    rfl

theorem length_encode_of_ascii {runes : List Char} (h : ∀ c ∈ runes, c.toNat < 128) :
    (encode runes).length = runes.length := by
  induction runes with
  | nil => rfl
  | cons c runes ih =>
    obtain ⟨hc, hrunes⟩ := List.forall_mem_cons.mp h
    rw [encode_cons, List.length_append, utf8EncodeChar_of_ascii hc, ih hrunes,
      List.length_singleton, List.length_cons, Nat.add_comm]

end Utf8
