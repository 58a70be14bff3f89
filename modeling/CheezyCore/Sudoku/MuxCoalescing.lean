import CheezyCore.Sudoku.MuxSend

/-!
# Coalesced writes lose, repeat and reorder nothing

The frames of the calls form a ledger that only grows at its end: a small frame joins it when
it is appended to the pending batch, a large one when its call takes the batch. The ledger is
what has been written, what the holder of `writeMu` has taken, and what is pending, in this
order. As long as something is pending, a call is on its way to look at it.
-/

namespace Sudoku.Mux

open Transition

namespace Pc

/-- The call holds `writeMu`. -/
def holds : Pc → Bool
  | taking | writing _ | unlocking | directTaking | directHeader _ | directPayload
  | directUnlocking => true
  | _ => false

/-- The frame of the call is in the ledger. -/
def joined : Pc → Bool
  | start | direct | directTaking | returned false => false
  | _ => true

/-- The call will look at the pending batch. -/
def responsible : Pc → Bool
  | start | returned _ => false
  | _ => true

theorem responsible_of_holds {pc : Pc} (h : pc.holds = true) : pc.responsible = true := by
  cases pc <;> first | rfl | cases h

theorem of_isReturned {pc : Pc} (h : pc.isReturned = true) :
    pc.holds = false ∧ pc.responsible = false := by
  cases pc with
  | returned ok => exact ⟨rfl, rfl⟩
  | _ => cases h

theorem responsible_of_waits {pc : Pc} (h : pc.waits = true) : pc.responsible = true := by
  cases pc <;> first | rfl | cases h

end Pc

/-- The frame of a call. -/
structure Entry where
  id : Nat
  caller : Nat
  frame : Frame
  deriving DecidableEq, Repr

def Call.entry (c : Call) (i : Nat) : Entry := ⟨i, c.caller, c.frame⟩

def bytes (es : List Entry) : Bytes := es.flatMap fun e => e.frame.wire

theorem bytes_append (es fs : List Entry) : bytes (es ++ fs) = bytes es ++ bytes fs :=
  List.flatMap_append

theorem bytes_singleton (e : Entry) : bytes [e] = e.frame.wire := List.flatMap_singleton _ _

theorem eq_nil_of_bytes {es : List Entry} (h : bytes es = []) : es = [] := by
  cases es with
  | nil => rfl
  | cons e es => exact absurd (List.append_eq_nil_iff.mp h).1 e.frame.wire_ne_nil

/-! ## One step of a call -/

/-- What the call of `e`, which holds `writeMu`, has taken and not yet written as a whole; `head`
is the part of it that is written. -/
def Carries (e : Entry) : Pc → List Entry → Bytes → Prop
  | .writing batch, taken, head => batch.getD [] = bytes taken ∧ head = []
  | .directHeader batch, taken, head =>
    (∃ front, taken = front ++ [e] ∧ batch.getD [] = bytes front) ∧ head = []
  | .directPayload, taken, head => taken = [e] ∧ head = e.frame.header
  | _, taken, head => taken = [] ∧ head = []

/-- What is written, and what is pending. -/
structure Contents (sh : Shared) (done queued : List Entry) (head : Bytes) : Prop where
  wire : sh.wire = bytes done ++ head
  pending : sh.pending.getD [] = bytes queued

variable {head : Bytes}

/-- How a step of call `i` moves `writeMu`. -/
inductive Turn (i : Nat) (before after : Option Nat) (pc pc' : Pc) : Prop where
  | outside (holds : pc.holds = false) (holds' : pc'.holds = false) (same : after = before)
  | acquire (holds : pc.holds = false) (holds' : pc'.holds = true) (free : before = none)
      (mine : after = some i)
  | inside (holds : pc.holds = true) (holds' : pc'.holds = true) (same : after = before)
  | release (holds : pc.holds = true) (holds' : pc'.holds = false) (free : after = none)

section Turn

variable {i j : Nat} {before after : Option Nat} {pc pc' : Pc}

section

variable (turn : Turn i before after pc pc') (h : pc.holds = true ↔ before = some i)
include turn h

theorem Turn.self : pc'.holds = true ↔ after = some i := by
  cases turn with
  | outside holds holds' same | inside holds holds' same => rw [same, ← h, holds, holds']
  | acquire _ holds' _ mine => exact ⟨fun _ => mine, fun _ => holds'⟩
  | release _ holds' free =>
    rw [holds', free]
    exact ⟨nofun, nofun⟩

theorem Turn.other (hne : i ≠ j) : before = some j ↔ after = some j := by
  cases turn with
  | outside _ _ same | inside _ _ same => rw [same]
  | acquire _ _ free mine =>
    rw [free, mine]
    exact ⟨nofun, fun heq => absurd (Option.some.inj heq) hne⟩
  | release holds _ free =>
    rw [free, h.mp holds]
    exact ⟨fun heq => absurd (Option.some.inj heq) hne, nofun⟩

end

end Turn

section Advance

variable {sh sh' : Shared} {waiting : Bool} {i : Nat} {f : Frame} {e : Entry} {pc pc' : Pc}
variable {taken : List Entry}

theorem Advances.turn (h : Advances sh waiting i f pc pc' sh') :
    Turn i sh.writeMu sh'.writeMu pc pc' := by
  cases h with
  | lock wait free | lockDirect free => exact .acquire rfl rfl free rfl
  | unlock | unlockDirect => exact .release rfl rfl rfl
  | take | write batch | takeDirect | writeHeader batch | writePayload => exact .inside rfl rfl rfl
  | _ => exact .outside rfl rfl rfl

/-- A call that is outside of `writeMu` only appends its frame to the pending batch. -/
theorem Advances.outside {done queued : List Entry} (h : Advances sh waiting i e.frame pc pc' sh')
    (hpc : pc.holds = false) (contents : Contents sh done queued head) :
    (pc'.joined = pc.joined ∧ Contents sh' done queued head) ∨
      (pc.joined = false ∧ pc'.joined = true ∧ Contents sh' done (queued ++ [e]) head) := by
  cases h with
  | enqueue small =>
    refine .inr ⟨rfl, rfl, contents.wire, ?_⟩
    rw [bytes_append, bytes_singleton, ← contents.pending]
    rfl
  | reject large | goDirect large | giveUp busy | finish empty
  | again more => exact .inl ⟨rfl, contents⟩
  | lock wait free | lockDirect free => exact .inl ⟨rfl, contents.wire, contents.pending⟩
  | _ => cases hpc

/-- A write appends to the bytes on the connection. -/
theorem Contents.write {done written queued : List Entry} {head' : Bytes} {more : List Bytes}
    (h : Contents sh done queued head) (hmore : head ++ more.flatten = bytes written ++ head') :
    Contents { sh with written := sh.written ++ more } (done ++ written) queued head' where
  wire := by
    have hwire := h.wire
    rw [Shared.wire] at hwire
    rw [Shared.wire, List.flatten_append, hwire, List.append_assoc, hmore, bytes_append,
      List.append_assoc]
  pending := h.pending

/-- The holder of `writeMu` moves entries from the pending ones to the written ones. -/
theorem Advances.inside {done queued : List Entry} (h : Advances sh waiting i e.frame pc pc' sh')
    (hpc : pc.holds = true) (contents : Contents sh done queued head)
    (carries : Carries e pc taken head) :
    ∃ done' taken' queued' head', Contents sh' done' queued' head' ∧
      Carries e pc' taken' head' ∧ done' ++ (taken' ++ queued') = done ++ (taken ++ queued) ++
        (if pc.joined = pc'.joined then [] else [e]) ∧ (pc.joined = true → pc'.joined = true) := by
  cases h with
  | take =>
    obtain ⟨rfl, rfl⟩ := carries
    exact ⟨done, queued, [], [], ⟨contents.wire, rfl⟩, ⟨contents.pending, rfl⟩,
      by simp [Pc.joined], fun _ => rfl⟩
  | write batch =>
    obtain ⟨hbatch, rfl⟩ := carries
    refine ⟨done ++ taken, [], queued, [], contents.write ?_, ⟨rfl, rfl⟩, by simp [Pc.joined],
      fun _ => rfl⟩
    rw [← hbatch]
    cases batch <;> simp
  | unlock | unlockDirect =>
    exact ⟨done, taken, queued, head, ⟨contents.wire, contents.pending⟩, carries,
      by simp [Pc.joined], fun _ => rfl⟩
  | takeDirect =>
    obtain ⟨rfl, rfl⟩ := carries
    exact ⟨done, queued ++ [e], [], [], ⟨contents.wire, rfl⟩,
      ⟨⟨queued, rfl, contents.pending⟩, rfl⟩, by simp [Pc.joined], fun _ => rfl⟩
  | writeHeader batch =>
    obtain ⟨⟨front, rfl, hbatch⟩, rfl⟩ := carries
    refine ⟨done ++ front, [e], queued, e.frame.header, contents.write ?_, ⟨rfl, rfl⟩,
      by simp [Pc.joined], fun _ => rfl⟩
    rw [← hbatch, List.nil_append, List.flatten_singleton]
  | writePayload =>
    obtain ⟨rfl, rfl⟩ := carries
    refine ⟨done ++ [e], [], queued, [], contents.write ?_, ⟨rfl, rfl⟩, by simp [Pc.joined],
      fun _ => rfl⟩
    rw [bytes_singleton, List.flatten_singleton, List.append_nil]
    rfl
  | _ => cases hpc

/-- A call that does not hold `writeMu` carries nothing. -/
theorem Carries.of_not_holds (h : Carries e pc taken head) (hpc : pc.holds = false) :
    taken = [] ∧ head = [] := by
  cases pc with
  | writing batch | directHeader batch | directPayload => cases hpc
  | _ => exact h

theorem Carries.head_eq_nil (h : Carries e pc taken head) (hpc : pc ≠ .directPayload) :
    head = [] := by
  cases pc with
  | directPayload => exact absurd rfl hpc
  | _ => exact h.2

section

variable (h : Advances sh waiting i f pc pc' sh')
include h

theorem Advances.carries_of_acquire (hpc : pc.holds = false) (hpc' : pc'.holds = true) :
    Carries e pc' [] [] := by
  cases h with
  | lock wait free | lockDirect free => exact ⟨rfl, rfl⟩
  | take | write batch | takeDirect | writeHeader batch | writePayload => cases hpc
  | _ => cases hpc'

/-- A call stops to care for the pending batch when it is empty, or when another call holds
`writeMu` or waits for it. -/
theorem Advances.responsible :
    pc'.responsible = true ∨ sh'.pending = none ∨ (sh' = sh ∧ pc.responsible = false) ∨
      (sh' = sh ∧ pc.holds = false ∧ pc.waits = false ∧ (sh.writeMu ≠ none ∨ waiting = true)) := by
  cases h with
  | reject large => exact .inr (.inr (.inl ⟨rfl, rfl⟩))
  | giveUp busy => exact .inr (.inr (.inr ⟨rfl, rfl, rfl, busy⟩))
  | finish empty => exact .inr (.inl empty)
  | _ => exact .inl rfl

theorem Advances.not_returned : pc.isReturned = false := by
  cases h with
  | _ => rfl

end

end Advance

/-! ## All calls -/

/-- The ledger has the frames of the calls that have joined it, and those of one caller in the
order of its calls. -/
structure Ledger (calls : List Call) (entries : List Entry) : Prop where
  mem_iff : ∀ e, e ∈ entries ↔ ∃ c, calls[e.id]? = some c ∧ c.entry e.id = e ∧ c.pc.joined = true
  order : entries.Pairwise fun e e' => e.caller = e'.caller → e.id < e'.id

/-- A caller starts a call after its earlier ones have returned. -/
def Sequential (calls : List Call) : Prop :=
  ∀ (i j : Nat) (c d : Call), i < j → calls[i]? = some c → calls[j]? = some d →
    c.caller = d.caller → c.pc.isReturned = true

/-- One call at a time holds `writeMu`, and carries what is taken. -/
structure Exclusive (s : Session) (taken : List Entry) (head : Bytes) : Prop where
  holds_iff : ∀ (j : Nat) (c : Call), s.calls[j]? = some c →
    (c.pc.holds = true ↔ s.shared.writeMu = some j)
  owner : ∀ (j : Nat), s.shared.writeMu = some j → ∃ c, s.calls[j]? = some c
  carries : ∀ (j : Nat) (c : Call), s.calls[j]? = some c → c.pc.holds = true →
    Carries (c.entry j) c.pc taken head
  free : s.shared.writeMu = none → taken = [] ∧ head = []

/-- As long as a batch is pending, a call will look at it. -/
def Attended (s : Session) : Prop :=
  s.shared.pending ≠ none → ∃ (j : Nat) (c : Call), s.calls[j]? = some c ∧ c.pc.responsible = true

structure Coherent (s : Session) (done taken queued : List Entry) (head : Bytes) : Prop where
  contents : Contents s.shared done queued head
  ledger : Ledger s.calls (done ++ (taken ++ queued))
  sequential : Sequential s.calls
  exclusive : Exclusive s taken head
  attended : Attended s

section Steps

variable {calls : List Call} {entries : List Entry} {i : Nat} {c : Call} {pc : Pc}

/-! ### The ledger -/

theorem Ledger.concat_call (h : Ledger calls entries) {new : Call} (hnew : new.pc = .start) :
    Ledger (calls ++ [new]) entries where
  mem_iff e := by
    rw [h.mem_iff]
    constructor
    · rintro ⟨c, hc, hentry, hjoined⟩
      exact ⟨c, Table.getElem?_append hc _,
        hentry, hjoined⟩
    · rintro ⟨c, hc, hentry, hjoined⟩
      rcases Table.getElem?_concat_cases hc with hold | ⟨-, rfl⟩
      · exact ⟨c, hold, hentry, hjoined⟩
      · rw [hnew] at hjoined
        cases hjoined
  order := h.order

/-- The entries after a step of call `i`, in terms of the ones before it. -/
theorem mem_iff_set (hc : calls[i]? = some c) (e : Entry) :
    (∃ d, (calls.set i { c with pc })[e.id]? = some d ∧ d.entry e.id = e ∧ d.pc.joined = true) ↔
      (e.id ≠ i ∧ ∃ d, calls[e.id]? = some d ∧ d.entry e.id = e ∧ d.pc.joined = true) ∨
        (e = c.entry i ∧ pc.joined = true) := by
  constructor
  · rintro ⟨d, hd, hentry, hjoined⟩
    rcases Table.getElem?_set_cases hd with ⟨hne, hold⟩ | ⟨rfl, rfl⟩
    · exact .inl ⟨hne.symm, d, hold, hentry, hjoined⟩
    · exact .inr ⟨hentry.symm, hjoined⟩
  · rintro (⟨hne, d, hd, hentry, hjoined⟩ | ⟨rfl, hjoined⟩)
    · exact ⟨d, by rw [List.getElem?_set_ne hne.symm, hd], hentry, hjoined⟩
    · refine ⟨{ c with pc }, ?_, rfl, hjoined⟩
      exact List.getElem?_set_self (Table.lt_length hc)

theorem Ledger.step_same (h : Ledger calls entries) (hc : calls[i]? = some c)
    (hsame : c.pc.joined = pc.joined) : Ledger (calls.set i { c with pc }) entries where
  mem_iff e := by
    rw [mem_iff_set hc, h.mem_iff]
    constructor
    · rintro ⟨d, hd, hentry, hjoined⟩
      by_cases hi : e.id = i
      · subst hi
        cases hc.symm.trans hd
        exact .inr ⟨hentry.symm, by rw [← hsame, hjoined]⟩
      · exact .inl ⟨hi, d, hd, hentry, hjoined⟩
    · rintro (⟨-, hold⟩ | ⟨rfl, hjoined⟩)
      · exact hold
      · exact ⟨c, hc, rfl, by rw [hsame, hjoined]⟩
  order := h.order

theorem Ledger.step_join (h : Ledger calls entries) (sequential : Sequential calls)
    (hc : calls[i]? = some c) (hactive : c.pc.isReturned = false) (hbefore : c.pc.joined = false)
    (hafter : pc.joined = true) :
    Ledger (calls.set i { c with pc }) (entries ++ [c.entry i]) where
  mem_iff e := by
    rw [mem_iff_set hc, List.mem_append, h.mem_iff, List.mem_singleton]
    constructor
    · rintro (⟨d, hd, hentry, hjoined⟩ | rfl)
      · refine .inl ⟨?_, d, hd, hentry, hjoined⟩
        rintro rfl
        cases hc.symm.trans hd
        rw [hbefore] at hjoined
        cases hjoined
      · exact .inr ⟨rfl, hafter⟩
    · rintro (⟨-, hold⟩ | ⟨rfl, -⟩)
      · exact .inl hold
      · exact .inr rfl
  order := by
    refine Table.pairwise_concat h.order fun e he hcaller => ?_
    obtain ⟨d, hd, hentry, hjoined⟩ := (h.mem_iff e).mp he
    have hsame : d.caller = c.caller := by
      rw [← hentry] at hcaller
      exact hcaller
    rcases Nat.lt_trichotomy e.id i with hlt | rfl | hgt
    · exact hlt
    · cases hc.symm.trans hd
      rw [hbefore] at hjoined
      cases hjoined
    · -- a later call of this caller has not begun
      have hreturned := sequential i e.id c d hgt hc hd hsame.symm
      rw [hactive] at hreturned
      cases hreturned

theorem Sequential.concat (h : Sequential calls) {caller : Nat} {frame : Frame}
    (hidle : ∀ c ∈ calls, c.caller = caller → c.pc.isReturned = true) :
    Sequential (calls ++ [({ caller, frame } : Call)]) := by
  intro i j c d hlt hc hd hcaller
  have hi : i < calls.length := by
    have hj := Table.lt_length hd
    rw [List.length_append, List.length_singleton] at hj
    omega
  rw [List.getElem?_append_left hi] at hc
  rcases Table.getElem?_concat_cases hd with hd | ⟨-, rfl⟩
  · exact h i j c d hlt hc hd hcaller
  · exact hidle c (List.mem_of_getElem? hc) hcaller

theorem Sequential.step (h : Sequential calls) (hc : calls[i]? = some c)
    (hactive : c.pc.isReturned = false) : Sequential (calls.set i { c with pc }) := by
  intro j k d e hlt hd he hcaller
  have hold : ∀ (k : Nat) (e : Call), (calls.set i { c with pc })[k]? = some e →
      ∃ e' : Call, calls[k]? = some e' ∧ e'.caller = e.caller := by
    intro k e he
    rcases Table.getElem?_set_cases he with ⟨-, he⟩ | ⟨rfl, rfl⟩
    · exact ⟨e, he, rfl⟩
    · exact ⟨c, hc, rfl⟩
  obtain ⟨e', he', hsame⟩ := hold k e he
  rcases Table.getElem?_set_cases hd with ⟨-, hd⟩ | ⟨rfl, rfl⟩
  · exact h j k d e' hlt hd he' (hcaller.trans hsame.symm)
  · have hreturned := h i k c e' hlt hc he' (hcaller.trans hsame.symm)
    rw [hactive] at hreturned
    cases hreturned

end Steps

/-! ### `writeMu` and the pending batch -/

section Locks

variable {s : Session} {done taken queued : List Entry} {head : Bytes}
variable {i : Nat} {c : Call} {pc : Pc} {shared : Shared}

theorem Exclusive.concat (h : Exclusive s taken head) {new : Call} (hnew : new.pc = .start) :
    Exclusive { s with calls := s.calls ++ [new] } taken head where
  holds_iff j d hd := by
    rcases Table.getElem?_concat_cases hd with hd | ⟨rfl, rfl⟩
    · exact h.holds_iff j d hd
    · rw [hnew]
      refine ⟨nofun, fun howner => ?_⟩
      obtain ⟨c, hc⟩ := h.owner _ howner
      exact absurd (Table.lt_length hc) (Nat.lt_irrefl _)
  owner j hj := by
    obtain ⟨c, hc⟩ := h.owner j hj
    exact ⟨c, Table.getElem?_append hc _⟩
  carries j d hd hholds := by
    rcases Table.getElem?_concat_cases hd with hd | ⟨rfl, rfl⟩
    · exact h.carries j d hd hholds
    · rw [hnew] at hholds
      cases hholds
  free := h.free

/-- After a step of call `i`, other calls hold `writeMu` as before; what is left to know is
what `i` carries and what is taken when nobody holds it. -/
theorem Exclusive.step (h : Exclusive s taken head) (hc : s.calls[i]? = some c)
    (turn : Turn i s.shared.writeMu shared.writeMu c.pc pc) {taken' : List Entry} {head' : Bytes}
    (mine : pc.holds = true → Carries (c.entry i) pc taken' head')
    (outside : c.pc.holds = false → pc.holds = false → taken' = taken ∧ head' = head)
    (release : c.pc.holds = true → pc.holds = false → taken' = [] ∧ head' = []) :
    Exclusive { shared, calls := s.calls.set i { c with pc } } taken' head' := by
  have hmine := h.holds_iff i c hc
  refine ⟨?_, ?_, ?_, ?_⟩
  · intro j d hd
    rcases Table.getElem?_set_cases hd with ⟨hne, hd⟩ | ⟨rfl, rfl⟩
    · exact (h.holds_iff j d hd).trans (turn.other hmine hne)
    · exact turn.self hmine
  · intro j hj
    by_cases hij : i = j
    · subst hij
      exact ⟨_, List.getElem?_set_self (Table.lt_length hc)⟩
    · obtain ⟨d, hd⟩ := h.owner j ((turn.other hmine hij).mpr hj)
      exact ⟨d, by rw [List.getElem?_set_ne hij, hd]⟩
  · intro j d hd hholds
    rcases Table.getElem?_set_cases hd with ⟨hne, hd⟩ | ⟨rfl, rfl⟩
    · -- the mutex is with `j` before and after the step, so `i` is outside
      have howner := (h.holds_iff j d hd).mp hholds
      have hbefore : c.pc.holds = false := by
        rw [← Bool.not_eq_true, hmine, howner]
        exact fun heq => hne (Option.some.inj heq).symm
      have hafter : pc.holds = false := by
        rw [← Bool.not_eq_true, turn.self hmine, (turn.other hmine hne).mp howner]
        exact fun heq => hne (Option.some.inj heq).symm
      obtain ⟨rfl, rfl⟩ := outside hbefore hafter
      exact h.carries j d hd hholds
    · exact mine hholds
  · intro hfree
    cases turn with
    | outside holds holds' same =>
      obtain ⟨rfl, rfl⟩ := outside holds holds'
      exact h.free (same ▸ hfree)
    | acquire _ _ _ mine => cases mine.symm.trans hfree
    | inside holds _ same => cases (hmine.mp holds).symm.trans (same.symm.trans hfree)
    | release holds holds' _ => exact release holds holds'

theorem Attended.concat (h : Attended s) (new : Call) :
    Attended { s with calls := s.calls ++ [new] } := by
  intro hpending
  obtain ⟨j, c, hc, hresponsible⟩ := h hpending
  exact ⟨j, c, Table.getElem?_append hc _,
    hresponsible⟩

theorem Attended.step (h : Attended s) (exclusive : Exclusive s taken head)
    (hc : s.calls[i]? = some c)
    (hadvance : Advances s.shared (s.calls.any (·.pc.waits)) i c.frame c.pc pc shared) :
    Attended { shared, calls := s.calls.set i { c with pc } } := by
  intro hpending
  -- another call that cared before the step still does
  have hother {f : Pc → Bool} {j : Nat} {d : Call} (hmine : f c.pc = false)
      (hd : s.calls[j]? = some d) (htheirs : f d.pc = true)
      (hresponsible : d.pc.responsible = true) : ∃ (j : Nat) (d : Call),
      (s.calls.set i { c with pc })[j]? = some d ∧ d.pc.responsible = true := by
    refine ⟨j, d, ?_, hresponsible⟩
    rw [List.getElem?_set_ne, hd]
    rintro rfl
    cases hc.symm.trans hd
    exact Bool.noConfusion (hmine.symm.trans htheirs)
  rcases hadvance.responsible with hmine | hnone | ⟨rfl, hidle⟩ |
    ⟨rfl, hholds, hwaits, hbusy | hwaiting⟩
  · exact ⟨i, _, List.getElem?_set_self (Table.lt_length hc), hmine⟩
  · exact absurd hnone hpending
  · obtain ⟨j, d, hd, hresponsible⟩ := h hpending
    exact hother hidle hd hresponsible hresponsible
  · obtain ⟨j, hj⟩ := Option.ne_none_iff_exists'.mp hbusy
    obtain ⟨d, hd⟩ := exclusive.owner j hj
    have hdholds := (exclusive.holds_iff j d hd).mpr hj
    exact hother hholds hd hdholds (Pc.responsible_of_holds hdholds)
  · obtain ⟨d, hmem, hdwaits⟩ := List.any_eq_true.mp hwaiting
    obtain ⟨j, hd⟩ := List.getElem?_of_mem hmem
    exact hother hwaits hd hdwaits (Pc.responsible_of_waits hdwaits)

/-! ### Runs -/

theorem Coherent.call (h : Coherent s done taken queued head) {caller : Nat} {frame : Frame}
    (hidle : ∀ c ∈ s.calls, c.caller = caller → c.pc.isReturned = true) :
    Coherent { s with calls := s.calls ++ [{ caller, frame }] } done taken queued head where
  contents := h.contents
  ledger := h.ledger.concat_call rfl
  sequential := h.sequential.concat hidle
  exclusive := h.exclusive.concat rfl
  attended := h.attended.concat _

theorem Coherent.step (h : Coherent s done taken queued head) (hc : s.calls[i]? = some c)
    (hadvance : Advances s.shared (s.calls.any (·.pc.waits)) i c.frame c.pc pc shared) :
    ∃ done taken queued head,
      Coherent { shared, calls := s.calls.set i { c with pc } } done taken queued head := by
  have hactive := hadvance.not_returned
  have turn := hadvance.turn
  have sequential : Sequential (s.calls.set i { c with pc }) := h.sequential.step hc hactive
  have attended := h.attended.step h.exclusive hc hadvance
  cases hholds : c.pc.holds with
  | false =>
    have hmine : pc.holds = true → Carries (c.entry i) pc taken head := by
      intro hpc
      cases turn with
      | outside _ holds' _ => exact Bool.noConfusion (holds'.symm.trans hpc)
      | acquire _ _ free _ =>
        obtain ⟨rfl, rfl⟩ := h.exclusive.free free
        exact hadvance.carries_of_acquire hholds hpc
      | inside holds _ _ | release holds _ _ => exact Bool.noConfusion (hholds.symm.trans holds)
    have exclusive : Exclusive { shared, calls := s.calls.set i { c with pc } } taken head :=
      h.exclusive.step hc turn hmine (fun _ _ => ⟨rfl, rfl⟩)
        fun holds => Bool.noConfusion (hholds.symm.trans holds)
    rcases Advances.outside (e := c.entry i) hadvance hholds h.contents with
      ⟨hsame, contents⟩ | ⟨hbefore, hafter, contents⟩
    · exact ⟨done, taken, queued, head, contents, h.ledger.step_same hc hsame.symm, sequential,
        exclusive, attended⟩
    · refine ⟨done, taken, queued ++ [c.entry i], head, contents, ?_, sequential, exclusive,
        attended⟩
      have hjoin := h.ledger.step_join h.sequential hc hactive hbefore hafter
      simpa only [List.append_assoc] using hjoin
  | true =>
    obtain ⟨done', taken', queued', head', contents, carries, hledger, hjoined⟩ :=
      Advances.inside hadvance hholds h.contents
        (h.exclusive.carries i c hc hholds)
    refine ⟨done', taken', queued', head', contents, ?_, sequential, ?_, attended⟩
    · rw [hledger]
      split
      · next hsame =>
        rw [List.append_nil]
        exact h.ledger.step_same hc hsame
      · next hne =>
        cases hbefore : c.pc.joined with
        | true => exact absurd (hbefore.trans (hjoined hbefore).symm) hne
        | false =>
          refine h.ledger.step_join h.sequential hc hactive hbefore ?_
          rw [hbefore] at hne
          exact (Bool.eq_false_or_eq_true _).resolve_right (Ne.symm hne)
    · refine h.exclusive.step hc turn (fun _ => carries)
        (fun holds => Bool.noConfusion (hholds.symm.trans holds)) fun _ hpc => ?_
      exact Carries.of_not_holds carries hpc

theorem coherent_newSession : Coherent newSession [] [] [] [] where
  contents := ⟨rfl, rfl⟩
  ledger := ⟨fun _ => ⟨nofun, nofun⟩, .nil⟩
  sequential := nofun
  exclusive := ⟨nofun, nofun, nofun, fun _ => ⟨rfl, rfl⟩⟩
  attended := absurd rfl

theorem coherent_of_run {actions : List Action} (h : run Session.next newSession actions = some s) :
    ∃ done taken queued head, Coherent s done taken queued head := by
  refine run_invariant (P := fun s => ∃ done taken queued head, Coherent s done taken queued head)
    ?_ ⟨[], [], [], [], coherent_newSession⟩ h
  rintro s a t ⟨done, taken, queued, head, hs⟩ hstep
  rcases Session.next_cases hstep with ⟨caller, frame, hidle, rfl⟩ |
    ⟨i, c, pc, shared, hc, hadvance, rfl⟩
  · exact ⟨done, taken, queued, head, hs.call hidle⟩
  · exact hs.step hc hadvance

theorem Ledger.nodup {calls : List Call} {entries : List Entry} (h : Ledger calls entries) :
    entries.Nodup := by
  refine h.order.imp ?_
  rintro e e' hlt rfl
  exact Nat.lt_irrefl _ (hlt rfl)

/-- What is written is a part of the frame that is being written, if any, after whole frames. -/
theorem Coherent.head_eq_nil (h : Coherent s done taken queued head)
    (hnone : ∀ c ∈ s.calls, c.pc ≠ .directPayload) : head = [] := by
  cases howner : s.shared.writeMu with
  | none => exact (h.exclusive.free howner).2
  | some j =>
    obtain ⟨c, hc⟩ := h.exclusive.owner j howner
    have hcarries := h.exclusive.carries j c hc ((h.exclusive.holds_iff j c hc).mpr howner)
    exact hcarries.head_eq_nil (hnone c (List.mem_of_getElem? hc))

/-- Without a call in progress everything is written. -/
theorem Coherent.of_quiet (h : Coherent s done taken queued head) (quiet : s.Quiet) :
    taken = [] ∧ queued = [] ∧ s.shared.pending = none := by
  have hpending : s.shared.pending = none := by
    by_contra hsome
    obtain ⟨j, c, hc, hresponsible⟩ := h.attended hsome
    have hreturned := Pc.of_isReturned (quiet c (List.mem_of_getElem? hc))
    exact Bool.noConfusion (hreturned.2.symm.trans hresponsible)
  have hfree : s.shared.writeMu = none := by
    by_contra hsome
    obtain ⟨j, hj⟩ := Option.ne_none_iff_exists'.mp hsome
    obtain ⟨c, hc⟩ := h.exclusive.owner j hj
    have hholds := (h.exclusive.holds_iff j c hc).mpr hj
    have hreturned := Pc.of_isReturned (quiet c (List.mem_of_getElem? hc))
    exact Bool.noConfusion (hreturned.1.symm.trans hholds)
  refine ⟨(h.exclusive.free hfree).1, eq_nil_of_bytes ?_, hpending⟩
  rw [← h.contents.pending, hpending]
  rfl

/-- In every execution the connection has whole frames, followed by the header of a large frame
whose payload comes next; the frame of a call that returned without an error is there once, or
is held for the next write; the frames of a caller are in the order of its calls; and without a
call in progress none is held. -/
theorem sendFrame_coalesces {actions : List Action}
    (h : run Session.next newSession actions = some s) :
    ∃ (done held : List Entry) (head : Bytes), s.shared.wire = bytes done ++ head ∧
      ((∀ c ∈ s.calls, c.pc ≠ .directPayload) → head = []) ∧
      (∀ c ∈ s.calls, c.pc = .directPayload → head = c.frame.header) ∧
      (done ++ held).Nodup ∧
      (∀ (i : Nat) (c : Call), s.calls[i]? = some c → c.pc = .returned true →
        c.entry i ∈ done ++ held) ∧
      (∀ e ∈ done ++ held, ∃ c, s.calls[e.id]? = some c ∧ c.entry e.id = e ∧
        c.pc ≠ .returned false) ∧
      ((done ++ held).Pairwise fun e e' => e.caller = e'.caller → e.id < e'.id) ∧
      (s.Quiet → held = [] ∧ head = [] ∧ s.shared.pending = none) := by
  obtain ⟨done, taken, queued, head, hs⟩ := coherent_of_run h
  refine ⟨done, taken ++ queued, head, hs.contents.wire, hs.head_eq_nil, ?_, hs.ledger.nodup,
    ?_, ?_, hs.ledger.order, ?_⟩
  · intro c hmem hpc
    obtain ⟨j, hc⟩ := List.getElem?_of_mem hmem
    have hcarries := hs.exclusive.carries j c hc (by rw [hpc]; rfl)
    rw [hpc] at hcarries
    exact hcarries.2
  · intro i c hc hpc
    exact (hs.ledger.mem_iff (c.entry i)).mpr ⟨c, hc, rfl, by rw [hpc]; rfl⟩
  · intro e he
    obtain ⟨c, hc, hentry, hjoined⟩ := (hs.ledger.mem_iff e).mp he
    refine ⟨c, hc, hentry, fun hpc => ?_⟩
    rw [hpc] at hjoined
    cases hjoined
  · intro quiet
    obtain ⟨rfl, rfl, hpending⟩ := hs.of_quiet quiet
    refine ⟨rfl, hs.head_eq_nil fun c hc hpc => ?_, hpending⟩
    have hreturned := quiet c hc
    rw [hpc] at hreturned
    cases hreturned

end Locks

/-- The second call leaves its frame to the first one, which holds `writeMu`. -/
theorem sendFrame_coalesces_handover :
    ∃ s, run Session.next newSession [.call 0 ⟨2, 1, [7]⟩, .call 1 ⟨2, 2, [8]⟩, .step 0 false,
      .step 0 false, .step 0 false, .step 1 false, .step 1 true, .step 0 false, .step 0 false,
      .step 0 false, .step 0 false, .step 0 false, .step 0 false, .step 0 false,
      .step 0 false] = some s ∧ s.Quiet ∧ s.shared.pending = none := by
  let s : Session :=
    { shared := { written := [Frame.wire ⟨2, 1, [7]⟩, Frame.wire ⟨2, 2, [8]⟩] }
      calls := [⟨0, ⟨2, 1, [7]⟩, .returned true⟩, ⟨1, ⟨2, 2, [8]⟩, .returned true⟩] }
  have quiet : s.Quiet := by decide +kernel
  refine ⟨s, (and_iff_left_of_imp fun hrun => ⟨quiet, ?_⟩).mpr (by decide +kernel)⟩
  obtain ⟨_, _, _, -, -, -, -, -, -, -, hend⟩ := sendFrame_coalesces hrun
  exact (hend quiet).2.2

end Sudoku.Mux
