import CheezyCore.Foundation.Transition
import CheezyCore.Fragment.ServerName

/-!
# A fragmenting connection

`transport/fragment/conn.go`. The connection cuts up its first writes and then passes
everything on. The writes to the inner connection succeed. A write has no result when
it would panic or not return; for an accepted configuration there always is one. What
happens between two pieces, and when, does not matter here.

The peer has to receive the bytes that were written. With `tlshello` the first
handshake record reaches it as several records with the same payload.
-/

namespace Fragment

open Chunks Transition

/-- A value from `lower` up to, but not including, `upper`, or `lower` when the range is
empty. `draw` is the outcome of the random choice. -/
def randBetween (draw lower upper : Nat) : Nat :=
  if upper ≤ lower + 1 then lower else lower + draw % (upper - lower)

/-- The loop of `lengthCuts`, which has no result when the fuel runs out. -/
def lengthCutsFrom (cfg : Config) (rand : Nat → Nat) (maxSplit n : Nat) :
    Nat → Nat → Nat → Option (List Nat)
  | 0, _, _ => none
  | fuel + 1, start, pieces =>
    let stop := start + randBetween (rand (pieces + 1)) cfg.lengthMin cfg.lengthMax
    if n ≤ stop ∨ 0 < maxSplit ∧ maxSplit ≤ pieces + 1 then some []
    else (lengthCutsFrom cfg rand maxSplit n fuel stop (pieces + 1)).map (stop :: ·)

/-- Cut `n` bytes into pieces of random lengths, at most `maxSplit` pieces. The sum of a position
and a length fits an `int`, which on a platform with 32 bits is an assumption on `lengthMax`. -/
def lengthCuts (cfg : Config) (rand : Nat → Nat) (n : Nat) : Option (List Nat) :=
  lengthCutsFrom cfg rand (randBetween (rand 0) cfg.maxSplitMin cfg.maxSplitMax) n (n + 1) 0 0

/-- Where to cut in the segmentation modes. -/
def Config.cuts (cfg : Config) (rand : Nat → Nat) (b : List UInt8) : Option (List Nat) :=
  if cfg.splitSNI then sniCuts b rand else lengthCuts cfg rand b.length

/-- Where to cut the payload of the first record. -/
def Config.payloadCuts (cfg : Config) (rand : Nat → Nat) (b payload : List UInt8) :
    Option (List Nat) :=
  if cfg.splitSNI then (sniCuts b rand).map fun cuts => cuts.map (· - recordHeaderLen)
  else lengthCuts cfg rand payload.length

/-- The bytes may be the first ones of a handshake record that is not complete. -/
def incomplete (b : List UInt8) : Bool :=
  b.length < handshakeRecordLen b || handshakeRecordLen b == 0 && recordStart b

/-- A record with the given type and version. -/
def record (header payload : List UInt8) : List UInt8 :=
  header ++ [UInt8.ofNat (payload.length >>> 8), UInt8.ofNat payload.length] ++ payload

structure Conn where
  cfg : Config
  count : Nat
  pending : Option (List UInt8)
  done : Bool
  /-- The writes to the inner connection. -/
  sent : List (List UInt8)
  deriving DecidableEq, Repr

namespace Conn

def new (cfg : Config) : Conn where
  cfg := cfg
  count := 0
  pending := none
  done := false
  sent := []

/-- Write to the inner connection. -/
def send (c : Conn) (pieces : List (List UInt8)) : Conn := { c with sent := c.sent ++ pieces }

/-- Every write in the segmentation modes. -/
def writeNext (c : Conn) (rand : Nat → Nat) (b : List UInt8) : Option Conn :=
  let cfg := c.cfg
  if cfg.packetsFrom ≠ 0 ∧ (c.count < cfg.packetsFrom ∨ cfg.packetsTo < c.count) then
    some ({ c with done := c.done || decide (cfg.packetsTo < c.count) }.send [b])
  else
    let c := { c with done := c.done || decide (cfg.packetsTo ≠ 0 ∧ c.count = cfg.packetsTo) }
    (cfg.cuts rand b).map fun cuts =>
      if cuts = [] then c.send [b] else c.send (cutAt b 0 (cuts ++ [b.length]))

/-- Rewrite the first record into several ones: in one write, or in one for each. -/
def writeHello (c : Conn) (rand : Nat → Nat) (b : List UInt8) : Option Conn :=
  let recordLen := handshakeRecordLen b
  let payload := (b.take recordLen).drop recordHeaderLen
  (c.cfg.payloadCuts rand b payload).map fun cuts =>
    if cuts = [] then c.send [b]
    else
      let records := (cutAt payload 0 (cuts ++ [payload.length])).map (record (b.take 3))
      let rest := b.drop recordLen
      if !c.cfg.separate then c.send [records.flatten ++ rest]
      else if rest = [] then c.send records
      else c.send (records ++ [rest])

def writeFirst (c : Conn) (rand : Nat → Nat) (b : List UInt8) : Option Conn :=
  if c.cfg.tlsHello then
    let c := { c with done := true }
    if handshakeRecordLen b = 0 then some (c.send [b]) else c.writeHello rand b
  else c.writeNext rand b

def write (c : Conn) (rand : Nat → Nat) (b : List UInt8) : Option Conn :=
  if c.done then some (c.send [b])
  else
    match c.pending with
    | some held =>
      let data := held ++ b
      if incomplete data then some { c with pending := some data }
      else { c with pending := none }.writeFirst rand data
    | none =>
      if b = [] then some c
      else
        let c := { c with count := (c.count + 1) % 2 ^ 64 }
        if c.count = 1 then
          if incomplete b then some { c with pending := some b } else c.writeFirst rand b
        else c.writeNext rand b

def writerReplaceable (c : Conn) : Bool := c.done && c.pending.isNone

/-- The bytes that reached the inner connection, and those that are held back. -/
def output (c : Conn) : List UInt8 := c.sent.flatten ++ c.pending.getD []

end Conn

/-- A write, with the outcomes of its random choices. -/
structure Write where
  bytes : List UInt8
  rand : Nat → Nat

def Conn.next (c : Conn) (w : Write) : Option Conn := c.write w.rand w.bytes

def written (writes : List Write) : List UInt8 := writes.flatMap Write.bytes

end Fragment
