import CheezyCore.Foundation.BigEndian

/-!
# Readers of byte strings

A reader takes a value off the front of a byte string or fails. Readers are composed with
`do`; what a composed reader accepts, and which error it raises where, follows from the
same facts about its parts.
-/

namespace ByteReader

variable {E α β : Type}

/-- Errors among which are those of an input that ends: before a value, and within one. -/
class EndOfInput (E : Type) where
  eof : E
  unexpectedEOF : E

/-- A reader returns a value and the bytes that follow it. -/
abbrev Reader (E α : Type) := StateT (List UInt8) (Except E) α

section Primitive

variable [EndOfInput E]

def readByte : Reader E UInt8
  | [] => .error EndOfInput.eof
  | byte :: rest => .ok (byte, rest)

/-- `io.ReadFull` of `n` bytes. -/
def readFull (n : Nat) : Reader E (List UInt8) := fun input =>
  (BigEndian.readFull n input).mapError fun left =>
    if left = [] then EndOfInput.eof else EndOfInput.unexpectedEOF

def readUint16 : Reader E UInt16 := do
  let bytes ← readFull 2
  return UInt16.ofNat (BigEndian.ofBytes bytes)

def readUint32 : Reader E UInt32 := do
  let bytes ← readFull 4
  return BigEndian.uint32 bytes

end Primitive

/-! ## What a reader accepts -/

/-- Wherever `bytes` come next, the reader takes them for `a` and nothing else. -/
def Reads (r : Reader E α) (bytes : List UInt8) (a : α) : Prop :=
  ∀ rest, r.run (bytes ++ rest) = .ok (a, rest)

variable {f : α → Reader E β} {r : Reader E α} {input bytes : List UInt8} {e : E}

theorem reads_pure (a : α) : Reads (pure a : Reader E α) [] a := fun _ => rfl

theorem Reads.bind {more : List UInt8} {a : α} {b : β} (first : Reads r bytes a)
    (second : Reads (f a) more b) : Reads (r >>= f) (bytes ++ more) b := by
  intro rest
  rw [StateT.run_bind, List.append_assoc, first]
  exact second rest

/-- A value made of what was read. -/
theorem Reads.map {a : α} (h : Reads r bytes a) (f : α → β) :
    Reads (r >>= fun a => pure (f a)) bytes (f a) := by
  have hpure : Reads (pure (f a) : Reader E β) [] (f a) := reads_pure (f a)
  have hbind : Reads (r >>= fun a => pure (f a)) (bytes ++ []) (f a) := h.bind hpure
  rwa [List.append_nil] at hbind

section Primitive

variable [EndOfInput E]

theorem reads_readByte (byte : UInt8) : Reads (E := E) readByte [byte] byte := fun _ => rfl

theorem reads_readFull {n : Nat} (h : bytes.length = n) :
    Reads (E := E) (readFull n) bytes bytes := by
  intro rest
  change (BigEndian.readFull n (bytes ++ rest)).mapError _ = _
  rw [← h, BigEndian.readFull_append]
  rfl

theorem reads_readUint16 (n : UInt16) :
    Reads (E := E) readUint16 (BigEndian.putUint16 n) n := by
  have hread := (reads_readFull (E := E) (BigEndian.putUint16_length n)).map
    fun bytes => UInt16.ofNat (BigEndian.ofBytes bytes)
  rwa [BigEndian.ofBytes_putUint16, UInt16.ofNat_toNat] at hread

theorem reads_readUint32 (n : UInt32) :
    Reads (E := E) readUint32 (BigEndian.putUint32 n) n := by
  have hread := (reads_readFull (E := E) (BigEndian.length_putUint32 n)).map BigEndian.uint32
  rwa [BigEndian.uint32_putUint32] at hread

end Primitive

/-! ## What a run tells -/

theorem run_bind_eq_ok {rest : List UInt8} {b : β} : (r >>= f).run input = .ok (b, rest) ↔
      ∃ a middle, r.run input = .ok (a, middle) ∧ (f a).run middle = .ok (b, rest) := by
  rw [StateT.run_bind]
  cases r.run input with
  | error e => simp [bind, Except.bind]
  | ok result =>
    obtain ⟨a, middle⟩ := result
    simp [bind, Except.bind]

theorem run_bind_eq_error : (r >>= f).run input = .error e ↔ r.run input = .error e ∨
      ∃ a middle, r.run input = .ok (a, middle) ∧ (f a).run middle = .error e := by
  rw [StateT.run_bind]
  cases r.run input with
  | error e => simp [bind, Except.bind]
  | ok result =>
    obtain ⟨a, middle⟩ := result
    simp [bind, Except.bind]

/-- The reader never raises `e`. -/
def Avoids (r : Reader E α) (e : E) : Prop := ∀ input, r.run input ≠ .error e

theorem avoids_pure (a : α) (e : E) : Avoids (pure a : Reader E α) e := fun _ => nofun

theorem Avoids.bind (first : Avoids r e) (second : ∀ a, Avoids (f a) e) : Avoids (r >>= f) e := by
  intro input h
  rcases run_bind_eq_error.mp h with hr | ⟨a, middle, -, hf⟩
  · exact first input hr
  · exact second a middle hf

/-- An error the first reader never raises is raised by what follows it. -/
theorem Avoids.run_bind_eq_error (h : Avoids r e) : (r >>= f).run input = .error e ↔
      ∃ a middle, r.run input = .ok (a, middle) ∧ (f a).run middle = .error e := by
  rw [ByteReader.run_bind_eq_error]
  exact ⟨fun hor => hor.resolve_left (h input), .inr⟩

/-- An error that what follows never raises is raised by the first reader. -/
theorem run_bind_eq_error_of_avoids (h : ∀ a, Avoids (f a) e) :
    (r >>= f).run input = .error e ↔ r.run input = .error e := by
  rw [ByteReader.run_bind_eq_error]
  exact ⟨fun hor => hor.resolve_right fun ⟨a, middle, _, hf⟩ => h a middle hf, .inl⟩

section Primitive

variable [EndOfInput E] {input rest : List UInt8}

theorem readByte_eq_ok {byte : UInt8} :
    (readByte (E := E)).run input = .ok (byte, rest) ↔ input = byte :: rest := by
  constructor
  · intro h
    cases input with
    | nil => cases h
    | cons first others =>
      cases h
      rfl
  · rintro rfl
    rfl

theorem readFull_eq_ok {n : Nat} : (readFull (E := E) n).run input = .ok (bytes, rest) ↔
      input = bytes ++ rest ∧ bytes.length = n := by
  rw [← BigEndian.readFull_ok_iff]
  change (BigEndian.readFull n input).mapError _ = _ ↔ _
  cases BigEndian.readFull n input <;> simp [Except.mapError]

theorem readUint16_eq_ok {n : UInt16} :
    (readUint16 (E := E)).run input = .ok (n, rest) ↔ input = BigEndian.putUint16 n ++ rest := by
  constructor
  · intro h
    obtain ⟨bytes, middle, hread, hpure⟩ := run_bind_eq_ok.mp h
    obtain ⟨rfl, hlength⟩ := readFull_eq_ok.mp hread
    obtain ⟨hi, lo, rfl⟩ := List.length_eq_two.mp hlength
    cases hpure
    rw [← BigEndian.putUint16_uint16 hi lo, BigEndian.ofBytes_putUint16, UInt16.ofNat_toNat]
  · rintro rfl
    exact reads_readUint16 n rest

theorem readUint32_eq_ok {n : UInt32} :
    (readUint32 (E := E)).run input = .ok (n, rest) ↔ input = BigEndian.putUint32 n ++ rest := by
  constructor
  · intro h
    obtain ⟨bytes, middle, hread, hpure⟩ := run_bind_eq_ok.mp h
    obtain ⟨rfl, hlength⟩ := readFull_eq_ok.mp hread
    cases hpure
    rw [BigEndian.putUint32_uint32 hlength]
  · rintro rfl
    exact reads_readUint32 n rest

theorem avoids_readByte (h : EndOfInput.eof ≠ e) : Avoids (readByte (E := E)) e := by
  intro input hrun
  cases input with
  | nil => exact h (Except.error.inj hrun)
  | cons => cases hrun

section

variable (heof : EndOfInput.eof ≠ e) (hshort : EndOfInput.unexpectedEOF ≠ e)
include heof hshort

theorem avoids_readFull (n : Nat) : Avoids (readFull (E := E) n) e := by
  intro input hrun
  change (BigEndian.readFull n input).mapError _ = _ at hrun
  cases hread : BigEndian.readFull n input with
  | ok result =>
    rw [hread] at hrun
    cases hrun
  | error left =>
    rw [hread] at hrun
    have hvalue : (if left = [] then EndOfInput.eof else EndOfInput.unexpectedEOF) = e :=
      Except.error.inj hrun
    split at hvalue
    · exact heof hvalue
    · exact hshort hvalue

theorem avoids_readUint16 : Avoids (readUint16 (E := E)) e :=
  (avoids_readFull heof hshort 2).bind fun _ => avoids_pure _ e

end

end Primitive

end ByteReader
