import Mathlib.Data.List.Lex
import CheezyCore.Foundation.Unicode

/-!
# Operations on strings of bytes

The functions of Go's `strings` package that the development uses, on lists of bytes.
Strings are compared byte by byte.
-/

instance instLinearOrderUInt8 : LinearOrder UInt8 where
  le_refl x := UInt8.le_refl x
  le_trans _ _ _ := UInt8.le_trans
  le_antisymm _ _ := UInt8.le_antisymm
  le_total := UInt8.le_total
  lt_iff_le_not_ge x y := by
    simp only [UInt8.lt_iff_toNat_lt, UInt8.le_iff_toNat_le]
    omega
  toDecidableLE := inferInstance

namespace Strings

open Utf8

/-- The bytes of a string literal. -/
def bytes (s : String) : List UInt8 := s.toUTF8.data.toList

/-- `strings.ToLower`. Its fast paths for ASCII give the same. -/
def toLower (s : List UInt8) : List UInt8 := encode ((decode s).map Unicode.toLower)

/-- The encodings of the white-space runes. -/
def whiteSpace : List (List UInt8) := Unicode.spaces.map fun n => encode [Char.ofNat n]

/-- Drop one of the given strings from the front, as long as there is one of them. -/
def trimLeftOf (cutset : List (List UInt8)) : Nat → List UInt8 → List UInt8
  | 0, s => s
  | fuel + 1, s =>
    match cutset.find? (·.isPrefixOf s) with
    | some rune => trimLeftOf cutset fuel (s.drop rune.length)
    | none => s

/-- `strings.TrimSpace`. A rune is the first, or the last, one of a string exactly when
its encoding is at that end. -/
def trimSpace (s : List UInt8) : List UInt8 :=
  let t := trimLeftOf whiteSpace s.length s
  (trimLeftOf (whiteSpace.map List.reverse) t.length t.reverse).reverse

/-- `strings.Split` at a single byte. -/
def split (s : List UInt8) (sep : UInt8) : List (List UInt8) := s.splitOn sep

/-- `strings.Cut` at a single byte: what is before its first occurrence and, if there
is one, what is after it. -/
def cut (s : List UInt8) (sep : UInt8) : List UInt8 × Option (List UInt8) :=
  (s.takeWhile (· != sep), match s.dropWhile (· != sep) with | [] => none | _ :: rest => some rest)

/-- `strconv.ParseUint` with base 10. -/
def parseUint (s : List UInt8) (bitSize : Nat) : Option Nat :=
  if s ≠ [] ∧ s.all (fun x => 48 ≤ x && x ≤ 57) then
    let value := s.foldl (fun n x => n * 10 + (x.toNat - 48)) 0
    if value < 2 ^ bitSize then some value else none
  else none

/-- `strconv.ParseInt` with base 10. `strconv.Atoi` is the same for 64 bits. -/
def parseInt (s : List UInt8) (bitSize : Nat) : Option Int :=
  let nonneg (digits : List UInt8) :=
    (parseUint digits bitSize).bind fun n => if n < 2 ^ (bitSize - 1) then some (n : Int) else none
  match s with
  | 45 :: digits =>
    (parseUint digits bitSize).bind fun n => if n ≤ 2 ^ (bitSize - 1) then some (-n) else none
  | 43 :: digits => nonneg digits
  | digits => nonneg digits

/-- `strconv.Itoa` of a number that is not negative. -/
def itoa (n : Nat) : List UInt8 := (Nat.toDigits 10 n).map fun c => UInt8.ofNat c.toNat

section

variable (s : List UInt8) (sep : UInt8)
include s sep

theorem split_cons (x : UInt8) : split (x :: s) sep =
      if x == sep then [] :: split s sep else (split s sep).modifyHead (x :: ·) :=
  List.splitOn_cons_eq_if_modifyHead x s

theorem split_ne_nil : split s sep ≠ [] := List.splitOn_ne_nil sep s

/-- The parts and the separators make up the string. -/
theorem sum_length_split : ((split s sep).map (·.length + 1)).sum = s.length + 1 := by
  induction s with
  | nil => rfl
  | cons x rest ih =>
    rw [split_cons]
    obtain ⟨first, others, hsplit⟩ := List.exists_cons_of_ne_nil (split_ne_nil rest sep)
    rw [hsplit] at ih ⊢
    simp only [List.map_cons, List.sum_cons] at ih
    split
    · simp only [List.map_cons, List.sum_cons, List.length_nil, List.length_cons]
      omega
    · simp only [List.modifyHead_cons, List.map_cons, List.sum_cons, List.length_cons]
      omega

end

theorem decode_toLower (s : List UInt8) : decode (toLower s) = (decode s).map Unicode.toLower :=
  decode_encode _

/-- An ASCII string without upper-case letters is its own lower-case form. -/
theorem toLower_of_lower {s : List UInt8}
    (h : ∀ x ∈ s, x < 128 ∧ ¬ (65 ≤ x.toNat ∧ x.toNat ≤ 90)) : toLower s = s := by
  have hascii : ∀ x ∈ s, x < 128 := fun x hx => (h x hx).1
  have hlower : (s.map rune).map Unicode.toLower = s.map rune := by
    rw [List.map_map]
    apply List.map_congr_left
    intro x hx
    have hx128 : (rune x).toNat < 128 := by
      rw [toNat_rune]
      exact UInt8.lt_iff_toNat_lt.mp (h x hx).1
    rw [Function.comp_apply, Unicode.toLower_of_ascii hx128, toNat_rune, if_neg (h x hx).2]
  rw [toLower, decode_of_ascii hascii, hlower, encode_map_rune hascii]

end Strings
