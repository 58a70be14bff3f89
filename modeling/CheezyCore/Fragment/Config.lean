import CheezyCore.Foundation.Strings

/-!
# The configuration of a fragmenting connection

`transport/fragment/config.go`. An accepted configuration is in one of three modes:
`tlshello` splits the first TLS ClientHello into records, the empty mode splits every
write into segments, and `N-M` splits the writes `N` to `M` into segments.
-/

namespace Fragment

open Strings

structure Config where
  packetsFrom : Nat
  packetsTo : Nat
  lengthMin : Nat
  lengthMax : Nat
  intervalMin : Nat
  intervalMax : Nat
  maxSplitMin : Nat
  maxSplitMax : Nat
  splitSNI : Bool
  waitAck : Bool
  /-- In milliseconds. -/
  fallbackDelay : Int
  deriving DecidableEq, Repr

structure Settings where
  packets : List UInt8
  length : List UInt8
  interval : List UInt8
  maxSplit : List UInt8
  split : List UInt8
  wait : List UInt8
  fallbackDelay : Int
  deriving DecidableEq, Repr

inductive ConfigError where
  | packets (range : List UInt8)
  | firstPacket
  | split (mode : List UInt8)
  | wait (mode : List UInt8)
  | lengthRequired
  | length (range : List UInt8)
  | lengthZero
  | maxSplit (range : List UInt8)
  | interval (range : List UInt8)
  | fallbackDelay
  deriving DecidableEq, Repr

/-- The text of an error; `quote` is the verb `%q`. -/
def ConfigError.text (quote : List UInt8 → String) : ConfigError → String
  | .packets s => "fragment packets: invalid range " ++ quote s
  | .firstPacket => "fragment packets: the first packet is 1, not 0"
  | .split s => "fragment split: unknown mode " ++ quote s ++ ", want length or sni"
  | .wait s => "fragment wait: unknown mode " ++ quote s ++ ", want interval or ack"
  | .lengthRequired => "fragment length is required with split: length"
  | .length s => "fragment length: invalid range " ++ quote s
  | .lengthZero => "fragment length can't be 0"
  | .maxSplit s => "fragment max-split: invalid range " ++ quote s
  | .interval s => "fragment interval: invalid range " ++ quote s
  | .fallbackDelay => "fragment fallback-delay can't be negative"

namespace Config

def tlsHello (c : Config) : Bool := c.packetsFrom == 0 && c.packetsTo == 1

/-- The pieces go out one by one instead of in one write. -/
def separate (c : Config) : Bool := c.waitAck || 0 < c.intervalMax

end Config

/-- `N` or `N-M`; a reversed range is swapped. The error carries the trimmed text. -/
def parseRange (s : List UInt8) : Except (List UInt8) (Nat × Nat) :=
  let s := trimSpace s
  let (a, b) := cut s 45
  match parseUint (trimSpace a) 32 with
  | none => .error s
  | some lower =>
    match b with
    | none => .ok (lower, lower)
    | some b =>
      match parseUint (trimSpace b) 32 with
      | none => .error s
      | some upper => .ok (min lower upper, max lower upper)

/-- The first and the last packet to split. -/
def parsePackets (s : List UInt8) : Except ConfigError (Nat × Nat) :=
  if toLower (trimSpace s) = bytes "tlshello" then .ok (0, 1)
  else if toLower (trimSpace s) = [] then .ok (0, 0)
  else
    match parseRange s with
    | .error r => .error (.packets r)
    | .ok (first, last) => if first = 0 then .error .firstPacket else .ok (first, last)

def parseSplit (s : List UInt8) : Except ConfigError Bool :=
  if toLower (trimSpace s) = [] ∨ toLower (trimSpace s) = bytes "length" then .ok false
  else if toLower (trimSpace s) = bytes "sni" then .ok true
  else .error (.split s)

def parseWait (s : List UInt8) : Except ConfigError Bool :=
  if toLower (trimSpace s) = [] ∨ toLower (trimSpace s) = bytes "interval" then .ok false
  else if toLower (trimSpace s) = bytes "ack" then .ok true
  else .error (.wait s)

/-- The range of an option that may be left out. -/
def parseOptional (s : List UInt8) (error : List UInt8 → ConfigError) :
    Except ConfigError (Nat × Nat) :=
  if s = [] then .ok (0, 0) else (parseRange s).mapError error

/-- The lengths of the pieces. -/
def parseLength (s : List UInt8) : Except ConfigError (Nat × Nat) :=
  if trimSpace s = [] then .error .lengthRequired
  else
    match parseRange s with
    | .error r => .error (.length r)
    | .ok (lower, upper) => if lower = 0 then .error .lengthZero else .ok (lower, upper)

/-- The options about lengths are not read with `split: sni`. -/
def unlessSNI (splitSNI : Bool) (range : Except ConfigError (Nat × Nat)) :
    Except ConfigError (Nat × Nat) :=
  if splitSNI then .ok (0, 0) else range

def newConfig (o : Settings) : Except ConfigError Config := do
  let packets ← parsePackets o.packets
  let splitSNI ← parseSplit o.split
  let waitAck ← parseWait o.wait
  let length ← unlessSNI splitSNI (parseLength o.length)
  let maxSplit ← unlessSNI splitSNI (parseOptional o.maxSplit .maxSplit)
  let interval ← parseOptional o.interval .interval
  if o.fallbackDelay < 0 then .error .fallbackDelay
  else
    .ok {
      packetsFrom := packets.1
      packetsTo := packets.2
      lengthMin := length.1
      lengthMax := length.2
      intervalMin := interval.1
      intervalMax := interval.2
      maxSplitMin := maxSplit.1
      maxSplitMax := maxSplit.2
      splitSNI
      waitAck
      fallbackDelay := if 0 < o.fallbackDelay then o.fallbackDelay else 500 }

theorem bind_eq_ok {ε α β : Type} {x : Except ε α} {f : α → Except ε β} {b : β} :
    (x >>= f) = .ok b ↔ ∃ a, x = .ok a ∧ f a = .ok b := by
  constructor
  · intro h
    cases x with
    | error e => cases h
    | ok a => exact ⟨a, rfl, h⟩
  · rintro ⟨a, rfl, h⟩
    exact h

theorem parseLength_pos {s : List UInt8} {lower upper : Nat}
    (h : parseLength s = .ok (lower, upper)) : 0 < lower := by
  unfold parseLength at h
  split at h
  · cases h
  · split at h
    · cases h
    · split at h
      · cases h
      next hzero =>
        cases h
        exact Nat.pos_of_ne_zero hzero

/-- Without `split: sni`, an accepted configuration cuts off at least one byte at a time. -/
theorem lengthMin_pos {o : Settings} {c : Config} (h : newConfig o = .ok c)
    (hsplit : c.splitSNI = false) : 0 < c.lengthMin := by
  simp only [newConfig, bind_eq_ok] at h
  obtain ⟨packets, -, splitSNI, -, waitAck, -, length, hlength, maxSplit, -, interval, -, h⟩ := h
  split at h <;> cases h
  rw [show splitSNI = false from hsplit] at hlength
  exact parseLength_pos hlength

end Fragment
