import Mathlib.Data.List.FinRange
import Mathlib.Data.List.ProdSigma
import Mathlib.Data.List.Sort
import CheezyCore.Foundation.Strings

/-!
# Byte layouts of the Sudoku codecs

A layout splits the wire bytes into hints, which carry six bits each, and padding. It comes
from a mode and, in the entropy mode, possibly from a custom pattern that says which bits of
a byte mark a hint. The fields `name`, `hintMask` and `hintValue` are read by no codec.
-/

namespace Sudoku

/-- A hint-class byte that no encoder emits. -/
def poisonHint : UInt8 := 64

def notHint : UInt8 := 0x80

structure ByteLayout where
  padMarker : UInt8
  paddingPool : List UInt8
  hintIdx : UInt8 → UInt8
  encodeHint : Fin 4 → Fin 16 → UInt8
  encodeGroup : Fin 64 → UInt8
  decodeGroup : UInt8 → UInt8

/-- `pos << 2 | val`. -/
def hintIndex (val : Fin 4) (pos : Fin 16) : UInt8 := UInt8.ofNat (pos.val <<< 2 ||| val.val)

def indexHints (encodeHint : Fin 4 → Fin 16 → UInt8) (aliases : List UInt8) : UInt8 → UInt8 :=
  let marked := aliases.foldl (fun table b => Function.update table b poisonHint) fun _ => notHint
  ((List.finRange 4).product (List.finRange 16)).foldl
    (fun table hint =>
      Function.update table (encodeHint hint.1 hint.2) (hintIndex hint.1 hint.2)) marked

/-! ## The two fixed layouts -/

/-- The byte `0x7F` is not printable, a newline stands for it. -/
def printable (b : UInt8) : UInt8 := if b = 0x7F then 0x0A else b

def newASCIILayout : ByteLayout :=
  let encodeHint := fun (val : Fin 4) (pos : Fin 16) =>
    printable ((0x40 : UInt8) ||| (UInt8.ofNat val <<< 4) ||| UInt8.ofNat pos)
  let aliases := ((List.range 256).map UInt8.ofNat).filter fun wire => wire &&& 0x40 = 0x40
  { padMarker := 0x3F
    paddingPool := (List.range 32).map fun i => UInt8.ofNat (0x20 + i)
    hintIdx := indexHints encodeHint aliases
    encodeHint := encodeHint
    encodeGroup := fun group => printable ((0x40 : UInt8) ||| UInt8.ofNat group)
    decodeGroup := Function.update
      (fun wire => if wire &&& 0x40 = 0x40 then wire &&& 0x3F else 0xff) 0x0A 0x3F }

def newEntropyLayout : ByteLayout :=
  let encodeHint := fun (val : Fin 4) (pos : Fin 16) => (UInt8.ofNat val <<< 5) ||| UInt8.ofNat pos
  { padMarker := 0x80
    paddingPool := (List.range 8).flatMap fun i => [UInt8.ofNat (0x80 + i), UInt8.ofNat (0x10 + i)]
    hintIdx := indexHints encodeHint []
    encodeHint := encodeHint
    encodeGroup := fun group =>
      ((UInt8.ofNat group &&& 0x30) <<< 1) ||| (UInt8.ofNat group &&& 0x0F)
    decodeGroup := fun wire =>
      if wire &&& 0x90 ≠ 0 then 0xff else ((wire >>> 1) &&& 0x30) ||| (wire &&& 0x0F) }

/-! ## Custom layouts -/

inductive LayoutError where
  | symbols (got : Nat)
  | invalidChar (c : Char)
  | counts
  | emptyPool
  | invalidMode (mode : List UInt8)
  deriving DecidableEq, Repr

/-- `quote` is the verb `%q`, and a mode is given by its text. -/
def LayoutError.text (quote : Char → String) (modeText : List UInt8 → String) :
    LayoutError → String
  | symbols got => s!"custom table must have 8 symbols, got {got}"
  | invalidChar c => s!"invalid char {quote c} in custom table"
  | counts => "custom table must contain exactly 2 x, 2 p, 4 v"
  | emptyPool => "custom table produced empty padding pool"
  | invalidMode mode => s!"invalid ascii mode: {modeText mode}"

/-- The bits of each kind, in the order of the pattern. -/
structure PatternBits where
  xBits : List Nat
  pBits : List Nat
  vBits : List Nat
  deriving DecidableEq, Repr

/-- The loop over the runes of a pattern, the next of which is at the offset `i`. -/
def patternBits : Nat → List Char → Except LayoutError PatternBits
  | _, [] => .ok ⟨[], [], []⟩
  | i, c :: rest =>
    if c = 'x' then
      (patternBits (i + c.utf8Size) rest).map fun bits =>
        { bits with xBits := (7 - i) :: bits.xBits }
    else if c = 'p' then
      (patternBits (i + c.utf8Size) rest).map fun bits =>
        { bits with pBits := (7 - i) :: bits.pBits }
    else if c = 'v' then
      (patternBits (i + c.utf8Size) rest).map fun bits =>
        { bits with vBits := (7 - i) :: bits.vBits }
    else .error (.invalidChar c)

/-- `1 << i`. -/
def bitMask (i : Nat) : UInt8 := 1 <<< UInt8.ofNat i

/-- `bits.OnesCount8`. -/
def onesCount8 (b : UInt8) : Nat := (List.range 8).countP fun i => b.toNat.testBit i

/-- A map with the bytes seen so far. -/
def dedupFirst (bytes : List UInt8) : List UInt8 :=
  bytes.foldl (fun seen b => if b ∈ seen then seen else seen ++ [b]) []

namespace PatternBits

variable (bits : PatternBits)

def xMask : UInt8 := bits.xBits.foldl (fun mask b => mask ||| bitMask b) 0

/-- The x bits, without the one that is dropped. -/
def xMaskWithout : Option Nat → UInt8
  | none => bits.xMask
  | some x => bits.xMask &&& ~~~bitMask x

def encodeBits (val pos : UInt8) (dropX : Option Nat) : UInt8 :=
  let out := bits.xMaskWithout dropX
  let out := if val &&& 2 ≠ 0 then out ||| bitMask (bits.pBits.getD 0 0) else out
  let out := if val &&& 1 ≠ 0 then out ||| bitMask (bits.pBits.getD 1 0) else out
  bits.vBits.zipIdx.foldl
    (fun out bit =>
      if (pos >>> UInt8.ofNat (3 - bit.2)) &&& 1 = 1 then out ||| bitMask bit.1 else out) out

/-- The bytes that miss one x bit and have at least five bits set. -/
def padding : List UInt8 :=
  let candidates := bits.xBits.flatMap fun drop =>
    (List.range 4).flatMap fun val =>
      (List.range 16).map fun pos => bits.encodeBits (UInt8.ofNat val) (UInt8.ofNat pos) (some drop)
  (dedupFirst (candidates.filter fun b => 5 ≤ onesCount8 b)).insertionSort (· ≤ ·)

def decodeBits (wire : UInt8) : UInt8 :=
  if wire &&& bits.xMask ≠ bits.xMask then 0xff
  else
    let val : UInt8 := if wire &&& bitMask (bits.pBits.getD 0 0) ≠ 0 then 2 else 0
    let val := if wire &&& bitMask (bits.pBits.getD 1 0) ≠ 0 then val ||| 1 else val
    let pos := bits.vBits.zipIdx.foldl
      (fun pos bit =>
        if wire &&& bitMask bit.1 ≠ 0 then pos ||| bitMask (3 - bit.2) else pos) (0 : UInt8)
    (val <<< 4) ||| pos

def layout (padMarker : UInt8) : ByteLayout :=
  let encodeHint := fun (val : Fin 4) (pos : Fin 16) =>
    bits.encodeBits (UInt8.ofNat val) (UInt8.ofNat pos) none
  { padMarker := padMarker
    paddingPool := bits.padding
    hintIdx := indexHints encodeHint []
    encodeHint := encodeHint
    encodeGroup := fun group =>
      bits.encodeBits ((UInt8.ofNat group >>> 4) &&& 3) (UInt8.ofNat group &&& 0x0F) none
    decodeGroup := bits.decodeBits }

end PatternBits

def newCustomLayout (pattern : List UInt8) : Except LayoutError ByteLayout :=
  let cleaned := Strings.toLower ((Strings.trimSpace pattern).filter (· ≠ 0x20))
  if cleaned.length ≠ 8 then .error (.symbols cleaned.length)
  else
    match patternBits 0 (Utf8.decode cleaned) with
    | .error e => .error e
    | .ok bits =>
      if bits.xBits.length ≠ 2 ∨ bits.pBits.length ≠ 2 ∨ bits.vBits.length ≠ 4 then .error .counts
      else
        match bits.padding with
        | [] => .error .emptyPool
        | first :: _ => .ok (bits.layout first)

/-- The layout of one direction. A custom pattern is ignored when ASCII is preferred. -/
def resolveLayout (mode customPattern : List UInt8) : Except LayoutError ByteLayout :=
  let lower := Strings.toLower mode
  if lower = Strings.bytes "ascii" ∨ lower = Strings.bytes "prefer_ascii" then .ok newASCIILayout
  else if lower = Strings.bytes "entropy" ∨ lower = Strings.bytes "prefer_entropy" ∨ lower = [] then
    if Strings.trimSpace customPattern ≠ [] then newCustomLayout customPattern
    else .ok newEntropyLayout
  else .error (.invalidMode mode)

end Sudoku
