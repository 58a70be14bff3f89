import CheezyCore.Foundation.BigEndian
import CheezyCore.Foundation.Stream
import CheezyCore.Fragment.Config

/-!
# The TLS record at the start of a stream and the server name in it

`transport/fragment/sni.go`. The walk to the server name ends in one of three ways:
with the place of the name, with no name, or with a read outside of the record, which
would be a panic. The last one does not happen.
-/

namespace Fragment

open Chunks
open BigEndian (Fixed putNat length_putNat)

def recordHeaderLen : Nat := 5

def recordHandshake : UInt8 := 22

def maxRecordPayload : Nat := 2 ^ 14 + 2048

/-- The length of the TLS handshake record the bytes start with, header included, or 0
if they do not start with one. -/
def handshakeRecordLen : List UInt8 → Nat
  | kind :: major :: _ :: hi :: lo :: _ =>
    let l := hi.toNat * 256 + lo.toNat
    if kind ≠ recordHandshake ∨ major ≠ 3 then 0
    else if l = 0 ∨ maxRecordPayload < l then 0
    else recordHeaderLen + l
  | _ => 0

/-- Bytes too short for a header that may be the start of a handshake record. -/
def recordStart (b : List UInt8) : Bool :=
  b.length < recordHeaderLen &&
    match b with
    | [] => false
    | [kind] => kind == recordHandshake
    | kind :: major :: _ => kind == recordHandshake && major == 3

/-! ### The walk to the server name -/

inductive Stop where
  | absent
  | panic
  deriving DecidableEq, Repr

/-- Give up unless the condition holds. -/
def require (condition : Bool) : Except Stop Unit := if condition then .ok () else .error .absent

def byteAt (s : List UInt8) (i : Nat) : Except Stop Nat :=
  match s[i]? with
  | some x => .ok x.toNat
  | none => .error .panic

def uint16At (s : List UInt8) (i : Nat) : Except Stop Nat := do
  let hi ← byteAt s i
  let lo ← byteAt s (i + 1)
  return hi * 256 + lo

/-- The name in a server_name extension that starts at `i` and has `l` bytes. -/
def serverNameExtension (hs : List UInt8) (i l : Nat) : Except Stop (Nat × Nat) := do
  let ext := (hs.take (i + l)).drop i
  require (5 ≤ ext.length)
  require ((← byteAt ext 2) == 0)
  let n ← uint16At ext 3
  require (5 + n ≤ ext.length && n != 0)
  return (recordHeaderLen + i + 5, n)

/-- Walk through the extensions between `i` and `stop`. -/
def extensions (hs : List UInt8) (stop i : Nat) : Except Stop (Nat × Nat) :=
  if i + 4 ≤ stop then do
    let typ ← uint16At hs i
    let l ← uint16At hs (i + 2)
    require (i + 4 + l ≤ stop)
    if typ = 0 then serverNameExtension hs (i + 4) l else extensions hs stop (i + 4 + l)
  else .error .absent
termination_by stop - i

/-- Skip a field with a length of one byte. -/
def skip8 (hs : List UInt8) (i : Nat) : Except Stop Nat := do
  require (i + 1 ≤ hs.length)
  return i + 1 + (← byteAt hs i)

/-- Skip a field with a length of two bytes. -/
def skip16 (hs : List UInt8) (i : Nat) : Except Stop Nat := do
  require (i + 2 ≤ hs.length)
  return i + 2 + (← uint16At hs i)

/-- The offset and the length of the host name in a complete ClientHello record. -/
def serverNameIndex (b : List UInt8) : Except Stop (Nat × Nat) := do
  let recordLen := handshakeRecordLen b
  require (recordLen != 0 && recordLen ≤ b.length)
  let hs := (b.take recordLen).drop recordHeaderLen
  -- handshake header (4), client version (2), random (32), session id length (1)
  require (39 ≤ hs.length)
  require ((← byteAt hs 0) == 1)
  let length := (← byteAt hs 1) * 65536 + (← uint16At hs 2)
  require (length == hs.length - 4)
  let i ← skip8 hs 38
  let i ← skip16 hs i
  let i ← skip8 hs i
  let stop ← skip16 hs i
  require (stop ≤ hs.length)
  extensions hs stop (i + 2)

/-- One random point inside every label, or the start of a label of one character.
`rand k` is the outcome of the `k`-th random choice. -/
def labelCuts (start : Nat) (rand : Nat → Nat) (k pos : Nat) : List (List UInt8) → List Nat
  | [] => []
  | label :: rest =>
    if 1 < label.length then
      (pos + 1 + rand k % (label.length - 1)) ::
        labelCuts start rand (k + 1) (pos + label.length + 1) rest
    else if label.length = 1 ∧ start < pos then
      pos :: labelCuts start rand (k + 1) (pos + label.length + 1) rest
    else labelCuts start rand (k + 1) (pos + label.length + 1) rest

/-- The offsets to cut at: inside every label of the server name but the top-level domain.
There is no result when the walk panics. -/
def sniCuts (b : List UInt8) (rand : Nat → Nat) : Option (List Nat) :=
  match serverNameIndex b with
  | .error .absent => some []
  | .error .panic => none
  | .ok (start, n) =>
    let labels := Strings.split ((b.take (start + n)).drop start) 46
    let labels := if 1 < labels.length then labels.dropLast else labels
    some (labelCuts start rand 0 start labels)

/-! ### Every read is inside -/

/-- The walk does not panic, and what it finds satisfies `P`. -/
def Post {α : Type} (x : Except Stop α) (P : α → Prop) : Prop :=
  match x with
  | .ok a => P a
  | .error .absent => True
  | .error .panic => False

namespace Post

variable {α β : Type} {x : Except Stop α} {f : α → Except Stop β} {P : α → Prop} {Q : β → Prop}
  {s hs : List UInt8} {i : Nat}

theorem bind (first : Post x P) (second : ∀ a, P a → Post (f a) Q) : Post (x >>= f) Q := by
  cases x with
  | ok a => exact second a first
  | error stop =>
    cases stop with
    | absent => exact True.intro
    | panic => exact first

theorem mono {P' : α → Prop} (h : Post x P) (hP : ∀ a, P a → P' a) : Post x P' := by
  cases x with
  | ok a => exact hP a h
  | error stop =>
    cases stop with
    | absent => exact True.intro
    | panic => exact h

theorem require {condition : Bool} : Post (require condition) fun _ => condition = true := by
  cases condition <;> trivial

theorem byteAt (h : i < s.length) : Post (byteAt s i) fun _ => True := by
  rw [Fragment.byteAt, List.getElem?_eq_getElem h]
  trivial

theorem uint16At (h : i + 1 < s.length) : Post (uint16At s i) fun _ => True := by
  apply bind (byteAt (Nat.lt_of_succ_lt h))
  intro hi _
  apply bind (byteAt h)
  intro lo _
  trivial

theorem skip8 : Post (skip8 hs i) fun j => i < j := by
  apply bind require
  intro _ hlength
  apply bind (byteAt (of_decide_eq_true hlength))
  intro l _
  change i < i + 1 + l
  omega

theorem skip16 : Post (skip16 hs i) fun j => i + 2 ≤ j := by
  apply bind require
  intro _ hlength
  apply bind (uint16At (of_decide_eq_true hlength))
  intro l _
  change i + 2 ≤ i + 2 + l
  omega

/-- A name that was found lies behind the start of its extension and inside of it. -/
theorem serverNameExtension {l : Nat} (h : i + l ≤ hs.length) :
    Post (serverNameExtension hs i l) fun r =>
      recordHeaderLen + i + 5 ≤ r.1 ∧ r.1 + r.2 ≤ recordHeaderLen + (i + l) ∧ 0 < r.2 := by
  have hlength : ((hs.take (i + l)).drop i).length = l := by
    rw [List.length_drop, List.length_take]
    omega
  apply bind require
  intro _ hfive
  simp only [hlength, decide_eq_true_eq] at hfive
  apply bind (byteAt (by omega))
  intro kind _
  apply bind require
  intro _ _
  apply bind (uint16At (by omega))
  intro n _
  apply bind require
  intro _ hn
  simp only [hlength, Bool.and_eq_true, decide_eq_true_eq, bne_iff_ne] at hn
  change recordHeaderLen + i + 5 ≤ recordHeaderLen + i + 5 ∧
    recordHeaderLen + i + 5 + n ≤ recordHeaderLen + (i + l) ∧ 0 < n
  omega

theorem extensions {stop : Nat} (h : stop ≤ hs.length) :
    Post (extensions hs stop i) fun r =>
      recordHeaderLen + 5 ≤ r.1 ∧ r.1 + r.2 ≤ recordHeaderLen + stop ∧ 0 < r.2 := by
  fun_induction Fragment.extensions hs stop i with
  | case1 i hroom ih =>
    apply bind (uint16At (by omega))
    intro typ _
    apply bind (uint16At (by omega))
    intro l _
    apply bind require
    intro _ hl
    simp only [decide_eq_true_eq] at hl
    split
    · apply mono (serverNameExtension (by omega))
      intro r hr
      omega
    · exact ih l
  | case2 i hroom => trivial

/-- The name lies in the first record. -/
theorem serverNameIndex (b : List UInt8) :
    Post (serverNameIndex b) fun r =>
      recordHeaderLen + 5 ≤ r.1 ∧ r.1 + r.2 ≤ handshakeRecordLen b ∧
        handshakeRecordLen b ≤ b.length ∧ 0 < r.2 := by
  apply bind require
  intro _ hrecord
  simp only [Bool.and_eq_true, bne_iff_ne, decide_eq_true_eq] at hrecord
  have hlength : ((b.take (handshakeRecordLen b)).drop recordHeaderLen).length
      = handshakeRecordLen b - recordHeaderLen := by
    rw [List.length_drop, List.length_take]
    omega
  apply bind require
  intro _ hhello
  have hhello := of_decide_eq_true hhello
  apply bind (byteAt (by omega))
  intro kind _
  apply bind require
  intro _ _
  apply bind (byteAt (by omega))
  intro high _
  apply bind (uint16At (by omega))
  intro low _
  apply bind require
  intro _ _
  apply bind skip8
  intro session _
  apply bind skip16
  intro suites _
  apply bind skip8
  intro methods _
  apply bind skip16
  intro stop _
  apply bind require
  intro _ hstop
  have hstop := of_decide_eq_true hstop
  apply mono (extensions hstop)
  intro r hr
  omega

end Post

/-! ### The cuts -/

/-- The cuts ascend, from the last one before `pos` up to the end of the last label. -/
theorem cuts_labelCuts (start : Nat) (rand : Nat → Nat) (labels : List (List UInt8)) :
    ∀ {k pos lower upper : Nat}, start ≤ pos → lower ≤ pos → (start < pos → lower < pos) →
      lower < upper → pos + (labels.map (·.length + 1)).sum ≤ upper + 1 →
      Cuts lower upper (labelCuts start rand k pos labels) := by
  induction labels with
  | nil =>
    intro k pos lower upper _ _ _ hlt _
    exact hlt
  | cons label rest ih =>
    intro k pos lower upper hstart hlower hbefore hlt hroom
    rw [List.map_cons, List.sum_cons] at hroom
    unfold labelCuts
    split
    next hlong =>
      have hmod : rand k % (label.length - 1) < label.length - 1 := Nat.mod_lt _ (by omega)
      refine ⟨by omega, ih (by omega) (by omega) (fun _ => by omega) (by omega) (by omega)⟩
    · split
      next hone =>
        have hlast := hbefore hone.2
        refine ⟨hlast, ih (by omega) (by omega) (fun _ => by omega) (by omega) (by omega)⟩
      · exact ih (by omega) (by omega) (fun _ => by omega) hlt (by omega)

theorem sum_dropLast_le (labels : List (List UInt8)) :
    (labels.dropLast.map (·.length + 1)).sum ≤ (labels.map (·.length + 1)).sum := by
  rcases List.eq_nil_or_concat labels with rfl | ⟨init, last, rfl⟩
  · exact Nat.le_refl _
  · simp

/-- The labels that are cut: all but the top-level domain. -/
def hostLabels (name : List UInt8) : List (List UInt8) :=
  let labels := Strings.split name 46
  if 1 < labels.length then labels.dropLast else labels

/-- The cuts ascend inside of the name. -/
theorem cuts_hostLabels {b : List UInt8} {start n : Nat} (rand : Nat → Nat) (hn : 0 < n)
    (hlength : start + n ≤ b.length) :
    Cuts start (start + n) (labelCuts start rand 0 start
      (hostLabels ((b.take (start + n)).drop start))) := by
  have hname : ((b.take (start + n)).drop start).length = n := by
    rw [List.length_drop, List.length_take]
    omega
  have hsum := Strings.sum_length_split ((b.take (start + n)).drop start) 46
  apply cuts_labelCuts
  · exact Nat.le_refl start
  · exact Nat.le_refl start
  · exact id
  · omega
  · rw [hostLabels]
    split
    · have hle := sum_dropLast_le (Strings.split ((b.take (start + n)).drop start) 46)
      omega
    · omega

/-- The walk never panics, and the cuts ascend inside of the payload of the first record. -/
theorem exists_sniCuts (b : List UInt8) (rand : Nat → Nat) :
    ∃ cuts, sniCuts b rand = some cuts ∧
      (cuts = [] ∨ handshakeRecordLen b ≤ b.length ∧
        Cuts recordHeaderLen (handshakeRecordLen b) cuts) := by
  have hpost := Post.serverNameIndex b
  unfold sniCuts
  split
  · exact ⟨[], rfl, .inl rfl⟩
  next h =>
    rw [h] at hpost
    exact absurd hpost id
  next start n h =>
    rw [h] at hpost
    obtain ⟨hstart, hend, hlength, hn⟩ := hpost
    have hcuts := cuts_hostLabels rand hn (Nat.le_trans hend hlength)
    exact ⟨_, rfl, .inr ⟨hlength, hcuts.mono (by omega) hend⟩⟩

/-! ### What the cuts hide -/

/-- A first label of two characters or more, or another one that is not empty. -/
def Divisible (labels : List (List UInt8)) : Prop :=
  1 < (labels.headD []).length ∨ ∃ label ∈ labels.tail, label ≠ []

/-- No piece between neighbouring offsets has all of the `n` bytes at `start`. -/
def Hides (start n : Nat) (offsets : List Nat) : Prop :=
  offsets.IsChain fun lo hi => ¬(lo ≤ start ∧ start + n ≤ hi)

section

variable {start n k pos : Nat} {rand : Nat → Nat} {labels : List (List UInt8)} {cuts : List Nat}

theorem labelCuts_eq_nil_iff (h : start < pos) :
    labelCuts start rand k pos labels = [] ↔ ∀ label ∈ labels, label = [] := by
  induction labels generalizing k pos with
  | nil => simp [labelCuts]
  | cons label rest ih =>
    have hrest : start < pos + label.length + 1 := by omega
    rw [List.forall_mem_cons, ← List.length_eq_zero_iff (l := label), labelCuts]
    split
    next hlong => exact ⟨nofun, fun h => absurd h.1 (by omega)⟩
    next hshort =>
      split
      next hone => exact ⟨nofun, fun h => absurd h.1 (by omega)⟩
      next hone =>
        rw [ih hrest]
        exact (and_iff_right (by omega)).symm

theorem labelCuts_ne_nil_iff (start : Nat) (rand : Nat → Nat) :
    labelCuts start rand k start labels ≠ [] ↔ Divisible labels := by
  cases labels with
  | nil => simp [labelCuts, Divisible]
  | cons label rest =>
    rw [labelCuts]
    split
    next hlong => exact iff_of_true nofun (.inl hlong)
    next hshort =>
      have hrest : start < start + label.length + 1 := by omega
      simp [labelCuts_eq_nil_iff hrest, Divisible, hshort]

/-- Any cut inside of the name hides it. -/
theorem hides_of_cuts {first last stop : Nat} (h : Cuts last (start + n) cuts) (hne : cuts ≠ [])
    (hlast : start ≤ last) : Hides start n (first :: (cuts ++ [stop])) := by
  induction cuts generalizing first last with
  | nil => exact absurd rfl hne
  | cons cut rest ih =>
    have hcut := h.2.lt
    refine .cons_cons (by omega) ?_
    cases rest with
    | nil =>
      have hafter := h.1
      exact .cons_cons (by omega) (.singleton stop)
    | cons next rest =>
      have hle : start ≤ cut := Nat.le_of_lt (Nat.lt_of_le_of_lt hlast h.1)
      exact ih h.2 (List.cons_ne_nil next rest) hle

end

/-! ### The records that carry a name -/

/-- A field behind its length of `k` bytes. -/
def field (k : Nat) (data : List UInt8) : List UInt8 := putNat k data.length ++ data

def extension (typ : Nat) (data : List UInt8) : List UInt8 := putNat 2 typ ++ field 2 data

/-- A ClientHello whose server_name list starts with a host name. -/
structure ClientHello where
  /-- The last byte of the version in the record's header. -/
  minor : UInt8
  /-- The client's version and its random bytes. -/
  random : Fixed 34
  sessionId : List UInt8
  suites : List UInt8
  methods : List UInt8
  /-- The types and the data of the extensions before the server name. -/
  before : List (Nat × List UInt8)
  name : List UInt8
  /-- The list's other entries, and the extensions after the server name. -/
  others : List UInt8
  after : List UInt8
  sessionId_lt : sessionId.length < 256
  methods_lt : methods.length < 256
  before_typ : ∀ e ∈ before, 0 < e.1 ∧ e.1 < 65536
  name_ne : name ≠ []

namespace ClientHello

variable (hello : ClientHello)

def extensions : List UInt8 :=
  hello.before.flatMap (fun e => extension e.1 e.2) ++
    (extension 0 (field 2 (0 :: (field 2 hello.name ++ hello.others))) ++ hello.after)

def body : List UInt8 :=
  hello.random.toList ++ (field 1 hello.sessionId ++ (field 2 hello.suites ++
    (field 1 hello.methods ++ field 2 hello.extensions)))

def handshake : List UInt8 := 1 :: field 3 hello.body

def record : List UInt8 := 22 :: 3 :: hello.minor :: field 2 hello.handshake

/-- Where the name starts in the record. -/
def start : Nat :=
  hello.record.length - (hello.name.length + hello.others.length + hello.after.length)

end ClientHello

section

variable {hs pre post data : List UInt8}

theorem ok_bind {α β : Type} (a : α) (f : α → Except Stop β) : (Except.ok a >>= f) = f a := rfl

theorem uint16At_append {n : Nat} (h : n < 65536) :
    uint16At (pre ++ (putNat 2 n ++ post)) pre.length = .ok n := by
  have hn : n / 256 % 256 * 256 + n % 256 = n := by omega
  simp [uint16At, byteAt, putNat, ok_bind, pure, Except.pure, hn]

theorem skip8_append (hdata : data.length < 256) (h : hs = pre ++ (field 1 data ++ post)) :
    skip8 hs pre.length = .ok (pre ++ field 1 data).length ∧ hs = pre ++ field 1 data ++ post := by
  have hroom : pre.length + 1 ≤ hs.length := by simp [h, field]
  refine ⟨?_, by rw [h, List.append_assoc]⟩
  rw [skip8, require, if_pos (decide_eq_true hroom), h]
  simp [byteAt, putNat, field, ok_bind, pure, Except.pure, Nat.mod_eq_of_lt hdata]
  omega

theorem skip16_append (hdata : data.length < 65536) (h : hs = pre ++ (field 2 data ++ post)) :
    skip16 hs pre.length = .ok (pre ++ field 2 data).length ∧ hs = pre ++ field 2 data ++ post := by
  have hroom : pre.length + 2 ≤ hs.length := by simp [h, field]
  refine ⟨?_, by rw [h, List.append_assoc]⟩
  rw [skip16, require, if_pos (decide_eq_true hroom), h, field, List.append_assoc,
    uint16At_append hdata]
  simp [ok_bind, pure, Except.pure]
  omega

theorem extensions_append {typ : Nat} (htyp : typ < 65536)
    (hdata : data.length < 65536) (h : hs = pre ++ (extension typ data ++ post)) :
    extensions hs hs.length pre.length =
      if typ = 0 then serverNameExtension hs (pre.length + 4) data.length
      else extensions hs hs.length (pre ++ extension typ data).length := by
  have ht : uint16At hs pre.length = .ok typ := by
    rw [h, extension, List.append_assoc, uint16At_append htyp]
  have hl : uint16At hs (pre.length + 2) = .ok data.length := by
    have hskip := @uint16At_append (pre ++ putNat 2 typ) (data ++ post) _ hdata
    simpa [h, extension, field] using hskip
  have hlength : (pre ++ extension typ data).length = pre.length + 4 + data.length := by
    simp [extension, field]
    omega
  have hroom : pre.length + 4 + data.length ≤ hs.length := by
    rw [h, ← List.append_assoc, List.length_append, hlength]
    omega
  rw [extensions, if_pos (by omega), ht, hlength]
  change (uint16At hs (pre.length + 2) >>= _) = _
  rw [hl]
  change (require (decide (pre.length + 4 + data.length ≤ hs.length)) >>= _) = _
  rw [require, if_pos (decide_eq_true hroom)]
  rfl

theorem serverNameExtension_append {name others : List UInt8} (hname : name ≠ [])
    (hlength : name.length < 65536) (hdata : data = field 2 (0 :: (field 2 name ++ others)))
    (h : hs = pre ++ (data ++ post)) :
    serverNameExtension hs pre.length data.length =
      .ok (recordHeaderLen + pre.length + 5, name.length) := by
  have hext : (hs.take (pre.length + data.length)).drop pre.length = data := by
    simp [h, List.take_append]
  have hkind : byteAt data 2 = .ok 0 := by
    rw [hdata]
    rfl
  have hn : uint16At data 3 = .ok name.length := by
    rw [hdata]
    exact @uint16At_append (putNat 2 _ ++ [0]) _ _ hlength
  have hroom : 5 + name.length ≤ data.length := by
    simp [hdata, field]
    omega
  have hfive : 5 ≤ data.length := by omega
  simp [serverNameExtension, hext, require, hfive, hkind, hn, hroom, hname, ok_bind, pure,
    Except.pure]

/-- The walk passes over the other extensions. -/
theorem extensions_flatMap {name others : List UInt8} {before : List (Nat × List UInt8)}
    (hname : name ≠ []) (hbefore : ∀ e ∈ before, 0 < e.1 ∧ e.1 < 65536)
    (hlength : hs.length < 65536)
    (h : hs = pre ++ (before.flatMap (fun e => extension e.1 e.2) ++
      (extension 0 (field 2 (0 :: (field 2 name ++ others))) ++ post))) :
    extensions hs hs.length pre.length =
      .ok (recordHeaderLen + hs.length - (name.length + others.length + post.length),
        name.length) := by
  induction before generalizing pre with
  | nil =>
    have hsum := congrArg List.length h
    simp [extension, field] at hsum
    rw [extensions_append (by decide) (by simp [field]; omega) h, if_pos rfl]
    have hfound := @serverNameExtension_append hs
      (pre ++ putNat 2 0 ++ putNat 2 (field 2 (0 :: (field 2 name ++ others))).length) post _ name
      others hname (by omega) rfl (by simp [h, extension, field])
    simp only [List.append_assoc, List.length_append, length_putNat] at hfound
    rw [hfound]
    congr 2
    omega
  | cons e rest ih =>
    have hsum := congrArg List.length h
    simp [extension, field] at hsum
    obtain ⟨hpos, htyp⟩ := hbefore e List.mem_cons_self
    rw [List.flatMap_cons, List.append_assoc] at h
    rw [extensions_append htyp (by omega) h, if_neg (by omega)]
    exact ih (fun e he => hbefore e (.tail _ he)) (by rw [h]; simp)

end

namespace ClientHello

variable {hello : ClientHello} (rest : List UInt8)

theorem handshakeRecordLen_record (h : hello.handshake.length ≤ maxRecordPayload) :
    handshakeRecordLen (hello.record ++ rest) = hello.record.length := by
  have hl : hello.handshake.length / 256 % 256 * 256 + hello.handshake.length % 256 =
      hello.handshake.length := by
    rw [maxRecordPayload] at h
    omega
  have hpos : hello.handshake ≠ [] := nofun
  simp [record, field, putNat, handshakeRecordLen, hl, hpos, recordHandshake, Nat.not_lt.mpr h,
    recordHeaderLen]
  omega

theorem start_eq : hello.start = recordHeaderLen + hello.handshake.length -
    (hello.name.length + hello.others.length + hello.after.length) := by
  simp [start, record, field, recordHeaderLen]
  omega

/-- The walk finds the name. -/
theorem serverNameIndex_record (h : hello.handshake.length ≤ maxRecordPayload) :
    serverNameIndex (hello.record ++ rest) = .ok (hello.start, hello.name.length) := by
  have hhs : hello.record.drop recordHeaderLen = hello.handshake := rfl
  have hbody : hello.body.length = hello.handshake.length - 4 := by simp [handshake, field]
  let first := 1 :: (putNat 3 hello.body.length ++ hello.random.toList)
  have hfirst : first.length = 38 := by simp [first]
  have hsplit : hello.handshake = first ++ (field 1 hello.sessionId ++ (field 2 hello.suites ++
      (field 1 hello.methods ++ (field 2 hello.extensions ++ [])))) := by
    simp [handshake, field, first, body]
  rw [maxRecordPayload] at h
  have hsum := congrArg List.length hsplit
  simp [field, hfirst] at hsum
  have hhigh : byteAt hello.handshake 1 = .ok 0 := by
    simp [handshake, byteAt, field, putNat]
    omega
  have hlow : uint16At hello.handshake 2 = .ok hello.body.length :=
    @uint16At_append [1, UInt8.ofNat (hello.body.length / 256 / 256)] _ _ (by omega)
  -- the offset behind each field is the length of what stands before it
  obtain ⟨hsession, hsplit⟩ := skip8_append hello.sessionId_lt hsplit
  obtain ⟨hsuites, hsplit⟩ := skip16_append (by omega) hsplit
  obtain ⟨hmethods, hsplit⟩ := skip8_append hello.methods_lt hsplit
  have hexts := hsplit.trans (List.append_assoc _ (putNat 2 hello.extensions.length)
    (hello.extensions ++ [])).symm
  have hfound := extensions_flatMap hello.name_ne hello.before_typ (by omega)
    (hexts.trans (by rw [List.append_nil]; rfl))
  obtain ⟨hstop, hsplit⟩ := skip16_append (by omega) hsplit
  rw [List.append_nil] at hsplit
  rw [← hsplit] at hstop
  rw [hfirst] at hsession
  have hroom : 39 ≤ hello.handshake.length := by omega
  have hkind : byteAt hello.handshake 0 = .ok 1 := rfl
  have hne : hello.record ≠ [] := List.cons_ne_nil _ _
  have hinside : hello.record.length ≤ (hello.record ++ rest).length := by simp
  rw [List.length_append, length_putNat, ← start_eq] at hfound
  simp [serverNameIndex, handshakeRecordLen_record rest h, hhs, require, hne, hroom, hkind, hhigh,
    hlow, hbody, hstop, hsession, hsuites, hmethods, hfound, hinside, ok_bind,
    -List.length_append, -List.append_assoc]

/-- The name stands where the walk finds it. -/
theorem name_eq :
    ((hello.record ++ rest).take (hello.start + hello.name.length)).drop hello.start =
      hello.name := by
  have hrecord : ∃ pre, hello.record = pre ++ (hello.name ++ (hello.others ++ hello.after)) := by
    refine ⟨?_, ?_⟩
    rotate_left
    · simp only [record, handshake, body, extensions, extension, field, List.append_assoc,
        List.cons_append]
      simp only [← List.append_assoc, ← List.cons_append]
      rfl
  obtain ⟨pre, hpre⟩ := hrecord
  have hstart : hello.start = pre.length := by
    simp [start, hpre]
    omega
  simp [hstart, hpre, List.take_append]

end ClientHello

/-- The walk stays inside of the first record, and so does the name it finds. In a record
that carries a name the cuts lie inside of the name, and hide it exactly if it has a label
to cut. -/
theorem sniCuts_hides_iff (b : List UInt8) (rand : Nat → Nat) :
    (serverNameIndex b ≠ .error .panic ∧ ∀ start n, serverNameIndex b = .ok (start, n) →
      start + n ≤ handshakeRecordLen b ∧ handshakeRecordLen b ≤ b.length) ∧
    ∀ (hello : ClientHello) (rest : List UInt8), hello.handshake.length ≤ maxRecordPayload →
      b = hello.record ++ rest →
      ((∃ cuts, sniCuts b rand = some cuts ∧ Cuts recordHeaderLen hello.record.length cuts ∧
          Hides hello.start hello.name.length (0 :: (cuts ++ [hello.record.length]))) ↔
        Divisible (hostLabels hello.name)) := by
  have hpost := Post.serverNameIndex b
  refine ⟨⟨fun h => ?_, fun start n h => ?_⟩, fun hello rest hfits hb => ?_⟩
  · rw [h] at hpost
    exact hpost
  · rw [h] at hpost
    exact ⟨hpost.2.1, hpost.2.2.1⟩
  · have hindex := hello.serverNameIndex_record rest hfits
    have hname := hello.name_eq rest
    rw [hb, hindex] at hpost
    obtain ⟨hstart, hend, hlength, hn⟩ := hpost
    have hcuts := cuts_hostLabels rand hn (Nat.le_trans hend hlength)
    have hsni : sniCuts b rand = some (labelCuts hello.start rand 0 hello.start
        (hostLabels hello.name)) := by
      rw [sniCuts, hb, hindex]
      change some (labelCuts _ rand 0 _ (hostLabels _)) = _
      rw [hname]
    rw [hname] at hcuts
    rw [hello.handshakeRecordLen_record rest hfits] at hend
    rw [← labelCuts_ne_nil_iff hello.start rand, hsni]
    constructor
    · rintro ⟨cuts, hsome, -, hhides⟩ hnil
      cases hsome
      rw [hnil] at hhides
      exact (List.isChain_cons_cons.mp hhides).1 ⟨Nat.zero_le _, hend⟩
    · intro hne
      exact ⟨_, rfl, hcuts.mono (by omega) hend, hides_of_cuts hcuts hne (Nat.le_refl _)⟩

/-- A ClientHello for `t.co`. -/
def shortHello : ClientHello where
  minor := 1
  random := .zero 34
  sessionId := []
  suites := [19, 1]
  methods := [0]
  before := []
  name := [116, 46, 99, 111]
  others := []
  after := []
  sessionId_lt := by decide
  methods_lt := by decide
  before_typ := by decide
  name_ne := by decide

theorem sniCuts_shortHello : shortHello.handshake.length ≤ maxRecordPayload ∧
    ∀ rand, sniCuts shortHello.record rand = some [] := by
  have hname : serverNameIndex shortHello.record = .ok (61, 4) := by decide +kernel
  refine ⟨by decide, fun rand => ?_⟩
  rw [sniCuts, hname]
  rfl

end Fragment
