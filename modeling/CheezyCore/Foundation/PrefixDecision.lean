import Mathlib.Algebra.Order.Ring.Int
import Mathlib.Data.List.Basic

/-!
# Decisions on a prefix of a byte string

A decision looks at the bytes that have arrived so far. It succeeds, refuses them, or says how
many bytes it needs. It is stable if more bytes change neither a success nor a refusal, and if
the number of bytes it needs is one it cannot do without.

Stability is a matter of order: a byte may be looked at only after enough bytes were required.
`StableFrom n` says that a decision keeps to that order once `n` bytes are known to be there,
and it is closed under the ways of composing decisions.
-/

namespace PrefixDecision

variable {E α β : Type}

/-- Why a decision is not a success. An access out of range is a `panic`. -/
inductive Stop (E : Type) where
  | need (length : Nat)
  | verdict (e : E)
  | panic
  deriving DecidableEq, Repr

abbrev Decision (E α : Type) := ReaderT (List UInt8) (Except (Stop E)) α

def refuse (e : E) : Decision E α := fun _ => .error (.verdict e)

/-- The branch of a loop that would not end. -/
def diverge : Decision E α := fun _ => .error .panic

def require (length : Nat) : Decision E Unit := fun data =>
  if data.length < length then .error (.need length) else .ok ()

/-- Refuse what is shorter than `length`. -/
def expect (length : Nat) (e : E) : Decision E Unit := fun data =>
  if data.length < length then .error (.verdict e) else .ok ()

def check (p : Prop) [Decidable p] (e : E) : Decision E Unit := if p then pure () else refuse e

def byteAt (i : Nat) : Decision E UInt8 := fun data =>
  match data[i]? with
  | some byte => .ok byte
  | none => .error .panic

def wordAt (i : Nat) : Decision E Nat := do
  let hi ← byteAt i
  let lo ← byteAt (i + 1)
  return hi.toNat * 256 + lo.toNat

def bytesAt (start stop : Nat) : Decision E (List UInt8) := fun data =>
  if stop ≤ data.length then .ok ((data.drop start).take (stop - start)) else .error .panic

/-- A decision on the first `size` bytes at most. -/
def within (size : Nat) (c : Decision E α) : Decision E α := fun data => c (data.take size)

/-! ## Stability -/

/-- The outcome `later` for `after` bytes agrees with the outcome for the first `before` of them,
which asks for lengths in `ok` only. -/
def Agrees (ok : Nat → Prop) (before after : Nat) (later : Except (Stop E) α) :
    Except (Stop E) α → Prop
  | .ok a => later = .ok a
  | .error (.verdict e) => later = .error (.verdict e)
  | .error (.need length) => ok length ∧ before < length ∧
      (after < length → ∃ length', later = .error (.need length'))
  | .error .panic => False

/-- The decision on `data` is not changed by `more`. -/
def AgreesAt (ok : Nat → Prop) (c : Decision E α) (data more : List UInt8) : Prop :=
  Agrees ok data.length (data ++ more).length (c (data ++ more)) (c data)

def StableFrom (ok : Nat → Prop) (n : Nat) (c : Decision E α) : Prop :=
  ∀ data more, n ≤ data.length → AgreesAt ok c data more

/-- A decision that is stable whatever has arrived. -/
def Stable (c : Decision E α) : Prop := StableFrom (fun _ => True) 0 c

variable {ok : Nat → Prop} {n : Nat} {c : Decision E α} {f : α → Decision E β} {data : List UInt8}
variable {length : Nat}

theorem stableFrom_pure (a : α) : StableFrom ok n (pure a : Decision E α) := fun _ _ _ => rfl

theorem stableFrom_refuse (e : E) : StableFrom ok n (refuse e : Decision E α) := fun _ _ _ => rfl

theorem bind_apply_of_error {stop : Stop E} (h : c data = .error stop) :
    (c >>= f) data = .error stop := by
  change (c data >>= fun a => f a data) = _
  rw [h]
  rfl

theorem bind_apply_of_ok {a : α} (h : c data = .ok a) : (c >>= f) data = f a data := by
  change (c data >>= fun a => f a data) = _
  rw [h]
  rfl

theorem bind_eq_ok {b : β} :
    (c >>= f) data = .ok b ↔ ∃ a, c data = .ok a ∧ f a data = .ok b := by
  cases hc : c data with
  | error stop => simp [bind_apply_of_error hc]
  | ok a => simp [bind_apply_of_ok hc]

theorem AgreesAt.bind {more : List UInt8} (first : AgreesAt ok c data more)
    (second : ∀ a, c data = .ok a → AgreesAt ok (f a) data more) :
    AgreesAt ok (c >>= f) data more := by
  unfold AgreesAt at first ⊢
  cases hc : c data with
  | ok a =>
    rw [hc] at first
    have hlater : c (data ++ more) = .ok a := first
    rw [bind_apply_of_ok hc, bind_apply_of_ok hlater]
    exact second a hc
  | error stop =>
    rw [hc] at first
    rw [bind_apply_of_error hc]
    cases stop with
    | need length =>
      refine ⟨first.1, first.2.1, fun hshort => ?_⟩
      obtain ⟨length', hlater⟩ := first.2.2 hshort
      exact ⟨length', bind_apply_of_error hlater⟩
    | verdict e => exact bind_apply_of_error first
    | panic => exact first

/-- What follows may rely on what the first decision found. -/
theorem StableFrom.bind (first : StableFrom ok n c)
    (second : ∀ a data, c data = .ok a → StableFrom ok n (f a)) : StableFrom ok n (c >>= f) :=
  fun data more hn => (first data more hn).bind fun a hc => second a data hc data more hn

theorem le_of_require (h : (require length : Decision E Unit) data = .ok ()) :
    length ≤ data.length := by
  unfold require at h
  split at h
  · cases h
  · next hshort => exact Nat.not_lt.mp hshort

theorem agreesAt_require (hok : ok length) (data more : List UInt8) :
    AgreesAt ok (require length : Decision E Unit) data more := by
  unfold AgreesAt require
  by_cases hshort : data.length < length
  · rw [if_pos hshort]
    exact ⟨hok, hshort, fun hlater => ⟨length, if_pos hlater⟩⟩
  · rw [if_neg hshort]
    refine if_neg ?_
    rw [List.length_append]
    omega

/-- What follows may look at the bytes that were required. -/
theorem StableFrom.require {f : Unit → Decision E β} (hok : ok length)
    (h : StableFrom ok length (f ())) : StableFrom ok n (PrefixDecision.require length >>= f) :=
  fun data more _ => (agreesAt_require hok data more).bind fun _ henough =>
    h data more (le_of_require henough)

theorem stableFrom_expect {e : E} (hn : length ≤ n) : StableFrom ok n (expect length e) := by
  intro data more hdata
  have hnow : ¬data.length < length := by omega
  have hlater : ¬(data ++ more).length < length := by
    rw [List.length_append]
    omega
  unfold AgreesAt expect
  rw [if_neg hnow, if_neg hlater]
  rfl

theorem StableFrom.check {f : Unit → Decision E β} {p : Prop} [Decidable p] {e : E}
    (h : p → StableFrom ok n (f ())) : StableFrom ok n (PrefixDecision.check p e >>= f) := by
  by_cases hp : p
  · rw [PrefixDecision.check, if_pos hp]
    exact (stableFrom_pure ()).bind fun _ _ _ => h hp
  · rw [PrefixDecision.check, if_neg hp]
    refine (stableFrom_refuse e).bind ?_
    rintro _ _ ⟨⟩

theorem stableFrom_byteAt {i : Nat} (hi : i < n) :
    StableFrom ok n (byteAt i : Decision E UInt8) := by
  intro data more hn
  have hdata : i < data.length := Nat.lt_of_lt_of_le hi hn
  unfold AgreesAt byteAt
  rw [List.getElem?_append_left hdata, List.getElem?_eq_getElem hdata]
  rfl

theorem stableFrom_wordAt {i : Nat} (hi : i + 1 < n) :
    StableFrom ok n (wordAt i : Decision E Nat) :=
  (stableFrom_byteAt (Nat.lt_of_succ_lt hi)).bind fun _ _ _ =>
    (stableFrom_byteAt hi).bind fun _ _ _ => stableFrom_pure _

theorem stableFrom_bytesAt {start stop : Nat} (hstop : stop ≤ n) :
    StableFrom ok n (bytesAt start stop : Decision E (List UInt8)) := by
  intro data more hn
  have hdata : stop ≤ data.length := Nat.le_trans hstop hn
  have hlater : stop ≤ (data ++ more).length := by
    rw [List.length_append]
    omega
  unfold AgreesAt bytesAt
  rw [if_pos hdata, if_pos hlater]
  change _ = Except.ok _
  rcases Nat.le_total start data.length with hle | hle
  · rw [List.drop_append_of_le_length hle, List.take_append_of_le_length]
    rw [List.length_drop]
    omega
  · rw [Nat.sub_eq_zero_of_le (Nat.le_trans hdata hle), List.take_zero, List.take_zero]

/-- A decision that never asks for more than `size` bytes may ignore what comes after them. -/
theorem StableFrom.within {size : Nat} (h : StableFrom (· ≤ size) 0 c) :
    StableFrom (fun _ => True) n (PrefixDecision.within size c) := by
  intro data more _
  have hagrees := h (data.take size) (more.take (size - data.length)) (Nat.zero_le _)
  unfold AgreesAt at hagrees ⊢
  unfold PrefixDecision.within
  rw [List.take_append]
  cases hc : c (data.take size) with
  | ok a =>
    rw [hc] at hagrees
    exact hagrees
  | error stop =>
    rw [hc] at hagrees
    cases stop with
    | need length =>
      obtain ⟨hsize, hbefore, hafter⟩ := hagrees
      simp only [List.length_take, List.length_append] at hbefore hafter
      refine ⟨trivial, ?_, fun hshort => hafter ?_⟩
      · omega
      · rw [List.length_append] at hshort
        omega
    | verdict e | panic => exact hagrees

end PrefixDecision
