import Mathlib.Algebra.Order.Ring.Int

/-!
# Masked record headers

`XorConn` of `transport/vless/encryption` masks the five header bytes of every
record with a keystream and passes the record bodies. `Write` looks at a header
before it is masked and `Read` after it is unmasked, and a header may end in a
later call than it began. A `cipher.Stream` is its keystream and the number of
bytes already taken from it.
-/

namespace Vless

/-- The error is an `ErrInvalidHeader` with these bytes. -/
def decodeHeader (h : List UInt8) (five : 5 ≤ h.length) : Nat × Option (List UInt8) :=
  let l := if h[0] ≠ 23 ∨ h[1] ≠ 3 ∨ h[2] ≠ 3 then 0 else h[3].toNat <<< 8 ||| h[4].toNat
  (l, if l < 17 ∨ 17000 < l then some (h.take 5) else none)

/-- `OutSkip`, `OutHeader` and the position in `CTR`, or their counterparts of `Read`. -/
structure Half where
  skip : Nat
  header : List UInt8
  used : Nat
  short : header.length < 5

inductive Direction where
  | write
  | read
deriving DecidableEq

namespace Direction

variable (ctr : Nat → UInt8) (d : Direction)

@[simp]
def xorKeyStream (used : Nat) : List UInt8 → List UInt8
  | [] => []
  | b :: p => (b ^^^ ctr used) :: xorKeyStream (used + 1) p

@[simp] theorem length_xorKeyStream (used : Nat) (p : List UInt8) :
    (xorKeyStream ctr used p).length = p.length := by
  induction p generalizing used with
  | nil => rfl
  | cons b p ih => simp [ih]

/-- The bytes that `d` adds to the header. -/
def shown (used : Nat) (p : List UInt8) : List UInt8 :=
  match d with
  | .write => p
  | .read => xorKeyStream ctr used p

@[simp] theorem length_shown (used : Nat) (p : List UInt8) :
    (shown ctr d used p).length = p.length := by
  cases d <;> simp [shown]

/-- The loop of `Write` and of `Read` over the bytes of one call. -/
def loop (c : Half) (p : List UInt8) : Half × List UInt8 :=
  if p.length ≤ c.skip then ({ c with skip := c.skip - p.length }, p)
  else
    let q := p.drop c.skip
    let need := 5 - c.header.length
    if hq : q.length < need then
      (⟨0, c.header ++ shown ctr d c.used q, c.used + q.length, by simp; omega⟩,
        p.take c.skip ++ xorKeyStream ctr c.used q)
    else
      let header := c.header ++ shown ctr d c.used (q.take need)
      let rest := loop ⟨(decodeHeader header (by simp [header]; omega)).1, [], c.used + need,
        by decide⟩ (q.drop need)
      (rest.1, p.take c.skip ++ xorKeyStream ctr c.used (q.take need) ++ rest.2)
termination_by p.length
decreasing_by
  have hshort := c.short
  simp only [List.length_drop]
  omega

/-- What both loops do with one byte. -/
def byte (c : Half) (b : UInt8) : Half × UInt8 :=
  match c.skip with
  | k + 1 => ({ c with skip := k }, b)
  | 0 =>
    let header := c.header ++ shown ctr d c.used [b]
    (if h : header.length < 5 then ⟨0, header, c.used + 1, h⟩
      else ⟨(decodeHeader header (not_lt.mp h)).1, [], c.used + 1, by decide⟩, b ^^^ ctr c.used)

theorem shown_cons (used : Nat) (b b' : UInt8) (p : List UInt8) : shown ctr d used (b :: b' :: p) =
    shown ctr d used [b] ++ shown ctr d (used + 1) (b' :: p) := by
  cases d <;> rfl

theorem loop_nil (c : Half) : loop ctr d c [] = (c, []) := by
  rw [loop]
  rfl

theorem loop_cons (c : Half) (b : UInt8) (p : List UInt8) :
    loop ctr d c (b :: p) = ((loop ctr d (byte ctr d c b).1 p).1,
      (byte ctr d c b).2 :: (loop ctr d (byte ctr d c b).1 p).2) := by
  obtain ⟨skip, header, used, short⟩ := c
  cases skip with
  | succ k =>
    rw [byte, loop, loop.eq_def ctr d _ p]
    simp only [List.length_cons, Nat.add_le_add_iff_right, Nat.reduceSubDiff, List.drop_succ_cons,
      List.take_succ_cons, List.cons_append]
    split
    · rfl
    · split
      · rfl
      · rfl
  | zero =>
    by_cases full : header.length = 4
    · rw [loop]
      simp [byte, full]
    · have hlt : header.length + 1 < 5 := by omega
      obtain ⟨m, hm⟩ : ∃ m, 5 - header.length = m + 1 + 1 := ⟨3 - header.length, by omega⟩
      have hm' : 4 - header.length = m + 1 := by omega
      cases p with
      | nil =>
        rw [loop]
        simp [byte, hlt, loop_nil, hm]
      | cons b' p =>
        rw [loop, loop.eq_def ctr d _ (b' :: p)]
        by_cases hp : p.length < m
        · simp [byte, hlt, hm, hm', shown_cons, hp, Nat.add_assoc, Nat.add_comm 1]
        · simp [byte, hlt, hm, hm', shown_cons, hp, Nat.add_assoc, Nat.add_comm 1]

/-- Two calls do what one call with the bytes of both does. -/
theorem loop_append (c : Half) (p q : List UInt8) :
    loop ctr d c (p ++ q) = ((loop ctr d (loop ctr d c p).1 q).1,
      (loop ctr d c p).2 ++ (loop ctr d (loop ctr d c p).1 q).2) := by
  induction p generalizing c with
  | nil => simp [loop_nil]
  | cons b p ih => simp [loop_cons, ih]

theorem byte_read (c : Half) (b : UInt8) :
    byte ctr .read c (byte ctr .write c b).2 = ((byte ctr .write c b).1, b) := by
  have hself : b ^^^ ctr c.used ^^^ ctr c.used = b := by
    rw [UInt8.xor_assoc, UInt8.xor_self, UInt8.xor_zero]
  have hb : shown ctr .read c.used [b ^^^ ctr c.used] = shown ctr .write c.used [b] :=
    congrArg ([·]) hself
  unfold byte
  cases c.skip with
  | zero => simp only [hb, hself]
  | succ k => rfl

theorem loop_read (c : Half) (p : List UInt8) :
    loop ctr .read c (loop ctr .write c p).2 = ((loop ctr .write c p).1, p) := by
  induction p generalizing c with
  | nil => simp [loop_nil]
  | cons b p ih => simp [loop_cons, byte_read, ih]

end Direction

/-- `CTR` and `PeerCTR`, and the state of the two directions. -/
structure XorConn where
  stream : Direction → Nat → UInt8
  half : Direction → Half

def newXorConn (ctr peerCTR : Nat → UInt8) (outSkip inSkip : Nat) : XorConn where
  stream
    | .write => ctr
    | .read => peerCTR
  half
    | .write => ⟨outSkip, [], 0, by decide⟩
    | .read => ⟨inSkip, [], 0, by decide⟩

namespace XorConn

/-- A call with the bytes `b`, and the bytes it passes on. -/
def call (d : Direction) (x : XorConn) (b : List UInt8) : XorConn × List UInt8 :=
  if b = [] then (x, [])
  else
    let r := d.loop (x.stream d) (x.half d) b
    ({ x with half := Function.update x.half d r.1 }, r.2)

/-- With what goes to the connection below. -/
def write (x : XorConn) (b : List UInt8) : XorConn × List UInt8 := x.call .write b

/-- A `Read` that gets the bytes `b` from the connection below, with what it returns. -/
def read (x : XorConn) (b : List UInt8) : XorConn × List UInt8 := x.call .read b

def calls (d : Direction) : XorConn → List (List UInt8) → List (List UInt8)
  | _, [] => []
  | x, b :: rest => (x.call d b).2 :: calls d (x.call d b).1 rest

theorem flatten_calls (d : Direction) (x : XorConn) (chunks : List (List UInt8)) :
    (calls d x chunks).flatten = (d.loop (x.stream d) (x.half d) chunks.flatten).2 := by
  induction chunks generalizing x with
  | nil => simp [calls, Direction.loop_nil]
  | cons b rest ih =>
    by_cases hb : b = []
    · simp [calls, call, hb, ih]
    · simp [calls, call, hb, ih, Direction.loop_append]

/-- However the bytes are written and however the wire is read, the reader gets what was written. -/
theorem calls_read_calls_write (ctr peerCTR ctr' : Nat → UInt8) (skip inSkip outSkip : Nat)
    (chunks reads : List (List UInt8))
    (wire : reads.flatten = (calls .write (newXorConn ctr peerCTR skip inSkip) chunks).flatten) :
    (calls .read (newXorConn ctr' ctr outSkip skip) reads).flatten = chunks.flatten := by
  rw [flatten_calls, wire, flatten_calls]
  exact congrArg Prod.snd (Direction.loop_read ctr _ _)

theorem calls_read_calls_write_two :
    (calls .read (newXorConn (fun _ => 0) UInt8.ofNat 0 1)
      [(calls .write (newXorConn UInt8.ofNat (fun _ => 0) 1 0) [[9, 23, 3], [3, 0, 1, 8]]).flatten]
      ).flatten = [9, 23, 3, 3, 0, 1, 8] :=
  calls_read_calls_write _ (fun _ => 0) _ 1 0 0 [[9, 23, 3], [3, 0, 1, 8]] _ List.flatten_singleton

end XorConn
end Vless
