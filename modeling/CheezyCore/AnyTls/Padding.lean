import CheezyCore.AnyTls.Frame
import CheezyCore.Foundation.Strings

/-!
# Padding schemes

A padding scheme is a text of lines `key=value`. The value of `stop` is the number of the
first packet that is not padded any more; the value of a packet number lists the sizes of the
records the packet is sent in, each drawn from a range, and check marks after which a packet
without payload left is not padded further. An `int` has 64 bits, as on most of the platforms
of the builds: with the 32 bits of the others a bound that `ParseInt` accepts can change its value.
-/

namespace AnyTls

open Strings

/-- `util.StringMap`, in the order of the lines. -/
abbrev StringMap := List (Bytes × Bytes)

/-- A later line replaces an earlier one with the same key. -/
def StringMap.get? (m : StringMap) (key : Bytes) : Option Bytes :=
  (m.reverse.find? (·.1 == key)).map (·.2)

/-- `StringMapFromBytes`: lines without `=` are left out. -/
def stringMapFromBytes (b : Bytes) : StringMap :=
  (split b 10).filterMap fun line => (cut line 61).2.map fun value => ((cut line 61).1, value)

/-- `padding.CheckMark`. -/
def checkMark : Int := -1

structure PaddingFactory where
  scheme : StringMap
  stop : UInt32
  deriving DecidableEq, Repr

def newPaddingFactory (rawScheme : Bytes) : Option PaddingFactory :=
  let scheme := stringMapFromBytes rawScheme
  if scheme = [] then none
  else (parseInt ((scheme.get? (bytes "stop")).getD []) 64).map fun stop =>
    { scheme, stop := UInt32.ofInt stop }

/-- A size from `min` up to `max`; `rand.Int` draws below their difference. -/
def sizeFrom (draw : Nat) (min max : Int) : Option Int :=
  if min ≤ 0 ∨ max ≤ 0 then none
  else if min = max then some min
  else some (draw % (max - min) + min)

/-- The bounds may stand in either order. -/
def sizeBetween (draw : Nat) (low high : Int) : Option Int :=
  if low > high then sizeFrom draw high low else sizeFrom draw low high

/-- The element of `pktSizes` for one part of a packet's value, if it has one. -/
def payloadSize (draw : Nat) (sRange : Bytes) : Option Int :=
  match split sRange 45 with
  | [low, high] =>
    (parseInt low 64).bind fun low => (parseInt high 64).bind fun high =>
      sizeBetween draw low high
  | _ => if sRange = bytes "c" then some checkMark else none

/-- `draw i` is the random number for the `i`-th part. -/
def PaddingFactory.generateRecordPayloadSizes (p : PaddingFactory) (pkt : UInt32)
    (draw : Nat → Nat) : List Int :=
  match p.scheme.get? (itoa pkt.toNat) with
  | some s => (split s 44).zipIdx.filterMap fun part => payloadSize (draw part.2) part.1
  | none => []

end AnyTls
