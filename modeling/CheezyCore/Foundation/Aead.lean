import Mathlib.Algebra.Order.Ring.Int
import Mathlib.Data.List.Basic

/-!
# Authenticated encryption with additional data

A cipher under one key, with the two laws that a protocol's correctness rests on: what was
sealed is opened under the same nonce and additional data, and a sealed text is longer by a
fixed overhead. Security is not stated here: a protocol that only opens what was sealed does
not need it.
-/

/-- `overhead` is the number of bytes by which sealing lengthens a text. -/
structure Aead (overhead : Nat) where
  /-- `Seal`. -/
  sealed : (nonce plaintext additional : List UInt8) → List UInt8
  /-- `Open`. -/
  opened : (nonce ciphertext additional : List UInt8) → Option (List UInt8)
  length_sealed : ∀ nonce plaintext additional,
    (sealed nonce plaintext additional).length = plaintext.length + overhead
  opened_sealed : ∀ nonce plaintext additional,
    opened nonce (sealed nonce plaintext additional) additional = some plaintext

/-- The laws can be met: a cipher that adds an empty tag. -/
def Aead.untagged (overhead : Nat) : Aead overhead where
  sealed _ plaintext _ := plaintext ++ List.replicate overhead 0
  opened _ ciphertext _ := some (ciphertext.take (ciphertext.length - overhead))
  length_sealed _ plaintext _ := by rw [List.length_append, List.length_replicate]
  opened_sealed _ plaintext _ := by
    rw [List.length_append, List.length_replicate, Nat.add_sub_cancel, List.take_left]
