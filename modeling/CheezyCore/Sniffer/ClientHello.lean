import CheezyCore.Foundation.PrefixDecision

/-!
# The server name in a TLS ClientHello

`ReadClientHello` looks for the server name in a prefix of a ClientHello, the four bytes of
the handshake header included. It gives a verdict as soon as no later byte can change it, and
otherwise says how many bytes it needs.

`data` in the source is the prefix, cut off at the end of the ClientHello; `offset` runs
through it. A loop that would not end is a `panic`, as an index out of range is.
-/

namespace Sniffer

open PrefixDecision

abbrev Bytes := List UInt8

inductive SniffError where
  /-- `errNotTLS` -/
  | notTLS
  /-- `errNotClientHello` -/
  | notClientHello
  /-- `ErrNoClue` without a length -/
  | noClue
  deriving DecidableEq, Repr

abbrev Sniff := Decision SniffError

def tlsHandshakeHeaderLen : Nat := 4
def tlsHandshakeTypeClientHello : UInt8 := 0x01

def clientHelloSize : Sniff Nat := do
  expect tlsHandshakeHeaderLen .noClue
  let type ← byteAt 0
  check (type = tlsHandshakeTypeClientHello) .notClientHello
  let high ← byteAt 1
  let low ← wordAt 2
  return tlsHandshakeHeaderLen + (high.toNat * 65536 + low)

/-- The closure `need`: no field ends after the ClientHello. -/
def need (helloSize length : Nat) : Sniff Unit :=
  if helloSize < length then refuse .notClientHello else require length

/-! ## The fields before the extensions

Each of the following returns the offset after its field. -/

def skipSessionID (helloSize offset : Nat) : Sniff Nat := do
  need helloSize (offset + 1)
  let sessionIDLen ← byteAt offset
  check (sessionIDLen.toNat ≤ 32) .notClientHello
  need helloSize (offset + 1 + sessionIDLen.toNat)
  return offset + 1 + sessionIDLen.toNat

/-- Cipher suites are numbers of two bytes. -/
def skipCipherSuites (helloSize offset : Nat) : Sniff Nat := do
  need helloSize (offset + 2)
  let cipherSuiteLen ← wordAt offset
  check (cipherSuiteLen % 2 ≠ 1) .notClientHello
  need helloSize (offset + 2 + cipherSuiteLen)
  return offset + 2 + cipherSuiteLen

def skipCompressionMethods (helloSize offset : Nat) : Sniff Nat := do
  need helloSize (offset + 1)
  let compressionMethodsLen ← byteAt offset
  need helloSize (offset + 1 + compressionMethodsLen.toNat)
  return offset + 1 + compressionMethodsLen.toNat

/-! ## The extensions -/

/-- The loop over the names of a `server_name` extension: the host name, or the offset at which
the loop ends. -/
def findName (helloSize namesEnd : Nat) : Nat → Nat → Sniff (Bytes ⊕ Nat)
  | 0, _ => diverge
  | fuel + 1, offset =>
    if offset < namesEnd then do
      need helloSize (offset + 3)
      let nameType ← byteAt offset
      let nameLen ← wordAt (offset + 1)
      check (offset + 3 + nameLen ≤ namesEnd) .notClientHello
      need helloSize (offset + 3 + nameLen)
      if nameType = 0 then do
        let serverName ← bytesAt (offset + 3) (offset + 3 + nameLen)
        -- a host name has no dot at its end
        check (serverName.getLast? ≠ some 46) .notClientHello
        return .inl serverName
      else findName helloSize namesEnd fuel (offset + 3 + nameLen)
    else return .inr offset

/-- The contents of a `server_name` extension of the given length. -/
def readServerName (helloSize offset length : Nat) : Sniff (Bytes ⊕ Nat) := do
  check (2 ≤ length) .notClientHello
  need helloSize (offset + 2)
  let namesLen ← wordAt offset
  check (offset + 2 + namesLen = offset + length) .notClientHello
  findName helloSize (offset + 2 + namesLen) (namesLen + 1) (offset + 2)

/-- The loop over the extensions. -/
def findServerName (helloSize extensionsEnd : Nat) : Nat → Nat → Sniff Bytes
  | 0, _ => diverge
  | fuel + 1, offset =>
    if offset < extensionsEnd then do
      need helloSize (offset + 4)
      let extension ← wordAt offset
      let length ← wordAt (offset + 2)
      check (offset + 4 + length ≤ extensionsEnd) .notClientHello
      if extension = 0 then do
        let found ← readServerName helloSize (offset + 4) length
        match found with
        | .inl serverName => return serverName
        | .inr offset => findServerName helloSize extensionsEnd fuel offset
      else do
        -- no later extension can hold the name
        check (offset + 4 + length ≠ extensionsEnd) .notTLS
        need helloSize (offset + 4 + length)
        findServerName helloSize extensionsEnd fuel (offset + 4 + length)
    else refuse .notTLS

/-- The ClientHello after its header: version and random, and the fields that follow. -/
def readHello (helloSize : Nat) : Sniff Bytes := do
  let offset ← skipSessionID helloSize (tlsHandshakeHeaderLen + 2 + 32)
  let offset ← skipCipherSuites helloSize offset
  let offset ← skipCompressionMethods helloSize offset
  check (offset ≠ helloSize) .notClientHello
  need helloSize (offset + 2)
  let extensionsLength ← wordAt offset
  check (offset + 2 + extensionsLength = helloSize) .notClientHello
  findServerName helloSize (offset + 2 + extensionsLength) (extensionsLength + 1) (offset + 2)

def readClientHello : Sniff Bytes := do
  require 1
  let type ← byteAt 0
  check (type = tlsHandshakeTypeClientHello) .notClientHello
  require tlsHandshakeHeaderLen
  let helloSize ← clientHelloSize
  within helloSize (readHello helloSize)

/-! ## Stability -/

section Stability

variable {α : Type} {helloSize n : Nat}

/-- After `need` the bytes it asks for are there. -/
theorem stableFrom_need {f : Unit → Sniff α} {length : Nat}
    (h : StableFrom (· ≤ helloSize) length (f ())) :
    StableFrom (· ≤ helloSize) n (need helloSize length >>= f) := by
  by_cases hsize : helloSize < length
  · rw [need, if_pos hsize]
    refine (stableFrom_refuse _).bind ?_
    rintro _ _ ⟨⟩
  · rw [need, if_neg hsize]
    exact .require (Nat.not_lt.mp hsize) h

theorem stableFrom_skipSessionID (offset : Nat) :
    StableFrom (· ≤ helloSize) n (skipSessionID helloSize offset) := by
  refine stableFrom_need ((stableFrom_byteAt (Nat.lt_succ_self offset)).bind fun _ _ _ => ?_)
  exact .check fun _ => stableFrom_need (stableFrom_pure _)

theorem stableFrom_skipCipherSuites (offset : Nat) :
    StableFrom (· ≤ helloSize) n (skipCipherSuites helloSize offset) := by
  refine stableFrom_need ((stableFrom_wordAt (Nat.lt_succ_self (offset + 1))).bind fun _ _ _ => ?_)
  exact .check fun _ => stableFrom_need (stableFrom_pure _)

theorem stableFrom_skipCompressionMethods (offset : Nat) :
    StableFrom (· ≤ helloSize) n (skipCompressionMethods helloSize offset) := by
  refine stableFrom_need ((stableFrom_byteAt (Nat.lt_succ_self offset)).bind fun _ _ _ => ?_)
  exact stableFrom_need (stableFrom_pure _)

theorem stableFrom_findName (namesEnd fuel offset : Nat) (hfuel : namesEnd - offset < fuel) :
    StableFrom (· ≤ helloSize) n (findName helloSize namesEnd fuel offset) := by
  induction fuel generalizing n offset with
  | zero => exact absurd hfuel (Nat.not_lt_zero _)
  | succ fuel ih =>
    rw [findName]
    split
    · refine stableFrom_need ((stableFrom_byteAt (by omega)).bind fun nameType _ _ => ?_)
      refine (stableFrom_wordAt (by omega)).bind fun nameLen _ _ => ?_
      refine .check fun _ => stableFrom_need ?_
      split
      · refine (stableFrom_bytesAt (Nat.le_refl _)).bind fun _ _ _ => ?_
        exact .check fun _ => stableFrom_pure _
      · exact ih _ (by omega)
    · exact stableFrom_pure _

/-- The loop over the names ends no earlier than it starts. -/
theorem le_of_findName {namesEnd fuel offset last : Nat} {data : Bytes}
    (h : findName helloSize namesEnd fuel offset data = .ok (.inr last)) : offset ≤ last := by
  induction fuel generalizing offset with
  | zero => cases h
  | succ fuel ih =>
    rw [findName] at h
    split at h
    · simp only [bind_eq_ok] at h
      obtain ⟨_, -, nameType, -, nameLen, -, _, -, _, -, h⟩ := h
      split at h
      · simp only [bind_eq_ok] at h
        obtain ⟨serverName, -, _, -, ⟨⟩⟩ := h
      · have hle := ih h
        omega
    · cases h
      exact Nat.le_refl _

theorem le_of_readServerName {offset length last : Nat} {data : Bytes}
    (h : readServerName helloSize offset length data = .ok (.inr last)) : offset ≤ last := by
  simp only [readServerName, bind_eq_ok] at h
  obtain ⟨_, -, _, -, namesLen, -, _, -, h⟩ := h
  have hle := le_of_findName h
  omega

theorem stableFrom_readServerName (offset length : Nat) :
    StableFrom (· ≤ helloSize) n (readServerName helloSize offset length) := by
  refine .check fun _ => stableFrom_need ?_
  refine (stableFrom_wordAt (Nat.lt_succ_self (offset + 1))).bind fun namesLen _ _ => ?_
  exact .check fun _ => stableFrom_findName _ _ _ (by omega)

theorem stableFrom_findServerName (extensionsEnd fuel offset : Nat)
    (hfuel : extensionsEnd - offset < fuel) :
    StableFrom (· ≤ helloSize) n (findServerName helloSize extensionsEnd fuel offset) := by
  induction fuel generalizing n offset with
  | zero => exact absurd hfuel (Nat.not_lt_zero _)
  | succ fuel ih =>
    rw [findServerName]
    split
    · refine stableFrom_need ((stableFrom_wordAt (by omega)).bind fun extension _ _ => ?_)
      refine (stableFrom_wordAt (by omega)).bind fun length _ _ => .check fun _ => ?_
      split
      · refine (stableFrom_readServerName _ _).bind fun found data hfound => ?_
        cases found with
        | inl serverName => exact stableFrom_pure _
        | inr last =>
          have hle := le_of_readServerName hfound
          exact ih last (by omega)
      · exact .check fun _ => stableFrom_need (ih _ (by omega))
    · exact stableFrom_refuse _

theorem stableFrom_readHello : StableFrom (· ≤ helloSize) n (readHello helloSize) := by
  refine (stableFrom_skipSessionID _).bind fun _ _ _ => ?_
  refine (stableFrom_skipCipherSuites _).bind fun _ _ _ => ?_
  refine (stableFrom_skipCompressionMethods _).bind fun offset _ _ => ?_
  refine .check fun _ => stableFrom_need ?_
  refine (stableFrom_wordAt (Nat.lt_succ_self (offset + 1))).bind fun extensionsLength _ _ => ?_
  exact .check fun _ => stableFrom_findServerName _ _ _ (by omega)

theorem stableFrom_clientHelloSize {ok : Nat → Prop} : StableFrom ok 4 clientHelloSize := by
  refine (stableFrom_expect (Nat.le_refl 4)).bind fun _ _ _ => ?_
  refine (stableFrom_byteAt (by decide)).bind fun _ _ _ => ?_
  refine .check fun _ => (stableFrom_byteAt (by decide)).bind fun _ _ _ => ?_
  exact (stableFrom_wordAt (by decide)).bind fun _ _ _ => stableFrom_pure _

theorem readClientHello_stable : Stable readClientHello := by
  refine .require trivial ((stableFrom_byteAt Nat.one_pos).bind fun _ _ _ => ?_)
  refine .check fun _ => .require trivial ?_
  exact stableFrom_clientHelloSize.bind fun _ _ _ => stableFrom_readHello.within

end Stability

end Sniffer
