import Mathlib.Algebra.Order.Ring.Int
import Mathlib.Data.List.Basic

/-!
# Opcodes of OpenVPN packets

The first byte of a packet has the opcode and the key id. An opcode that the client does not
know keeps its number.
-/

namespace OpenVPN

inductive Opcode where
  | controlHardResetClientV1
  | controlHardResetServerV1
  | controlSoftResetV1
  | controlV1
  | ackV1
  | dataV1
  | controlHardResetClientV2
  | controlHardResetServerV2
  | dataV2
  | controlHardResetClientV3
  | controlWKCV1
  | unknown (code : UInt8)
  deriving DecidableEq, Repr

variable {opcode : Opcode}

namespace Opcode

def code : Opcode → UInt8
  | controlHardResetClientV1 => 1
  | controlHardResetServerV1 => 2
  | controlSoftResetV1 => 3
  | controlV1 => 4
  | ackV1 => 5
  | dataV1 => 6
  | controlHardResetClientV2 => 7
  | controlHardResetServerV2 => 8
  | dataV2 => 9
  | controlHardResetClientV3 => 10
  | controlWKCV1 => 11
  | unknown code => code

def ofCode (code : UInt8) : Opcode :=
  if code = 1 then controlHardResetClientV1
  else if code = 2 then controlHardResetServerV1
  else if code = 3 then controlSoftResetV1
  else if code = 4 then controlV1
  else if code = 5 then ackV1
  else if code = 6 then dataV1
  else if code = 7 then controlHardResetClientV2
  else if code = 8 then controlHardResetServerV2
  else if code = 9 then dataV2
  else if code = 10 then controlHardResetClientV3
  else if code = 11 then controlWKCV1
  else unknown code

/-- `Opcode.String`. -/
def string : Opcode → String
  | controlHardResetClientV1 => "P_CONTROL_HARD_RESET_CLIENT_V1"
  | controlHardResetServerV1 => "P_CONTROL_HARD_RESET_SERVER_V1"
  | controlSoftResetV1 => "P_CONTROL_SOFT_RESET_V1"
  | controlV1 => "P_CONTROL_V1"
  | ackV1 => "P_ACK_V1"
  | dataV1 => "P_DATA_V1"
  | controlHardResetClientV2 => "P_CONTROL_HARD_RESET_CLIENT_V2"
  | controlHardResetServerV2 => "P_CONTROL_HARD_RESET_SERVER_V2"
  | dataV2 => "P_DATA_V2"
  | controlHardResetClientV3 => "P_CONTROL_HARD_RESET_CLIENT_V3"
  | controlWKCV1 => "P_CONTROL_WKC_V1"
  | unknown _ => "P_UNKNOWN"

def isControl : Opcode → Bool
  | dataV1 | dataV2 | unknown _ => false
  | _ => true

def hasMessageID (opcode : Opcode) : Bool := opcode.isControl && opcode != ackV1

theorem ofCode_code (known : ∀ code, opcode ≠ unknown code) : ofCode opcode.code = opcode := by
  cases opcode with
  | unknown code => exact absurd rfl (known code)
  | _ => rfl

end Opcode

def keyIDMask : UInt8 := 7

def opcodeKeyID (opcode : Opcode) (keyID : UInt8) : UInt8 :=
  opcode.code <<< 3 ||| (keyID &&& keyIDMask)

def parseOpcodeKeyID (b : UInt8) : Opcode × UInt8 := (Opcode.ofCode (b >>> 3), b &&& keyIDMask)

theorem toNat_keyID (keyID : UInt8) : (keyID &&& keyIDMask).toNat = keyID.toNat % 8 := by
  exact Nat.and_two_pow_sub_one_eq_mod keyID.toNat 3

theorem toNat_opcodeKeyID (small : opcode.code.toNat < 32) (keyID : UInt8) :
    (opcodeKeyID opcode keyID).toNat = opcode.code.toNat * 8 + keyID.toNat % 8 := by
  have hfit : opcode.code.toNat <<< 3 % 256 = opcode.code.toNat <<< 3 := by
    omega
  have hlow : keyID.toNat % 8 < 2 ^ 3 := Nat.mod_lt _ (by decide)
  rw [opcodeKeyID, UInt8.toNat_or, toNat_keyID]
  change opcode.code.toNat <<< 3 % 256 ||| _ = _
  rw [hfit, ← Nat.shiftLeft_add_eq_or_of_lt hlow, Nat.shiftLeft_eq]

/-- The opcode and the key id are read back from their byte. -/
theorem parseOpcodeKeyID_opcodeKeyID (known : ∀ code, opcode ≠ .unknown code) (keyID : UInt8) :
    parseOpcodeKeyID (opcodeKeyID opcode keyID) = (opcode, keyID &&& keyIDMask) := by
  have hsmall : opcode.code.toNat < 32 := by
    cases opcode with
    | unknown code => exact absurd rfl (known code)
    | _ => decide
  have hbyte := toNat_opcodeKeyID hsmall keyID
  have hcode : opcodeKeyID opcode keyID >>> 3 = opcode.code := by
    apply UInt8.toNat_inj.mp
    rw [UInt8.toNat_shiftRight]
    change _ >>> 3 = _
    omega
  have hkey : opcodeKeyID opcode keyID &&& keyIDMask = keyID &&& keyIDMask := by
    apply UInt8.toNat_inj.mp
    rw [toNat_keyID, toNat_keyID]
    omega
  rw [parseOpcodeKeyID, hcode, hkey, Opcode.ofCode_code known]

end OpenVPN
