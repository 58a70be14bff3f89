import CheezyCore.Foundation.Window
import CheezyCore.XrayMux.Capacity

/-!
# The dial budget of a pool

`MaxDialsPerMinute` limits the physical dials of a pool. A dial path, holding `dialMu`,
drops the time stamps older than a minute, refuses when too many are left and otherwise
records its own; a failed dial takes the last stamp back. `Watched` keeps the dials of a
run beside the system: who made them, with which stamp, when they started, which stamps
were kept, and how they ended.

The stamps of the dials that were not rolled back are always some that are a minute old
and the pool's `dialTimes`. This is kept because `dialMu` lets no other call trim, record
or roll back while a dial is on its way. So the stamps keep the budget, and the dials keep
it as long as each starts at its stamp. `dialWorkerNew` reads the clock before it resolves
the endpoint's name, and a slow answer lets the dial start later.
-/

namespace XrayMux

/-- The dial whose time stamp the call has recorded and not settled yet. -/
def Pc.recorded : Pc → Option Dial
  | .dial d | .undo d _ | .rollBack d _ => some d
  | _ => none

inductive DialOutcome where
  | pending
  | succeeded
  | failed
  | rolledBack
  deriving DecidableEq, Repr

/-- How far the recorded dial of a call is. -/
def Pc.outcome : Pc → DialOutcome
  | .dial _ => .pending
  | _ => .failed

/-- A physical dial of a run. It recorded its time stamp, and `p.dial` was called at its
start; `kept` are the stamps that `dialAllowedLocked` had left before. -/
structure PhysicalDial where
  call : Nat
  stamp : Int
  kept : List Int
  outcome : DialOutcome := .pending
  start : Option Int := none
  deriving DecidableEq, Repr

namespace PhysicalDial

/-- The stamp of the dial may still be rolled back. -/
def unsettled (d : PhysicalDial) : Bool := d.outcome = .pending || d.outcome = .failed

def settle (c : Nat) (outcome : DialOutcome) (d : PhysicalDial) : PhysicalDial :=
  if d.call = c ∧ d.unsettled = true then { d with outcome } else d

/-- The call `c` has recorded its stamp and has not called `p.dial` yet. -/
def waits (c : Nat) (d : PhysicalDial) : Bool :=
  d.call = c && d.outcome = .pending && d.start = none

/-- The call `c` calls `p.dial`. -/
def begin (c : Nat) (now : Int) (d : PhysicalDial) : PhysicalDial :=
  if d.waits c then { d with start := some now } else d

/-- The dials counted by the budget: those that succeeded or are still in progress. -/
def counts (d : PhysicalDial) : Bool := d.outcome = .succeeded || d.outcome = .pending

/-- What a step of the call `c` from one program counter to another tells of the dials
of its pool. -/
def observe (c : Nat) (kept : List Int) (dials : List PhysicalDial) : Pc → Pc → List PhysicalDial
  | .check _, .dial d => dials ++ [{ call := c, stamp := d.now, kept }]
  | .dial _, .install _ _ => dials.map (settle c .succeeded)
  | .dial _, .undo _ _ => dials.map (settle c .failed)
  | .rollBack _ _, _ => dials.map (settle c .rolledBack)
  | _, _ => dials

/-- The stamps of the dials that were not rolled back. -/
def stamps (dials : List PhysicalDial) : List Int :=
  (dials.filter fun d => d.outcome ≠ .rolledBack).map stamp

end PhysicalDial

/-- The pools with the physical dials made so far, for each pool in order. -/
structure Watched where
  system : System
  dials : Nat → List PhysicalDial := fun _ => []

namespace Watched

open PhysicalDial (observe)

/-- What is seen of the pools: their steps, and the calls of `p.dial`. -/
inductive Event where
  | step (a : System.Action)
  | dial (c : Nat)
  deriving DecidableEq, Repr

/-- The dials after a step of the system. -/
def after (w : Watched) (s : System) : System.Action → Nat → List PhysicalDial
  | .advance c _ =>
    match w.system.callers[c]?, s.callers[c]? with
    | some caller, some caller' =>
      match w.system.pools[caller.pool]? with
      | some pool => fun p =>
        if p = caller.pool then
          observe c (pool.recentDials w.system.now) (w.dials p) caller.pc caller'.pc
        else w.dials p
      | none => w.dials
    | _, _ => w.dials
  | _ => w.dials

/-- A call of `p.dial` returns only after it was made. -/
def ready (w : Watched) : System.Action → Bool
  | .advance c _ =>
    match w.system.callers[c]? with
    | some ⟨p, _, _, .dial _⟩ => (w.dials p).all fun d => !d.waits c
    | _ => true
  | _ => true

def next (w : Watched) : Event → Option Watched
  | .step a =>
    if w.ready a then (w.system.next a).map fun s => { system := s, dials := w.after s a }
    else none
  | .dial c =>
    match w.system.callers[c]? with
    | some ⟨p, _, _, .dial _⟩ =>
      let dials := (w.dials p).map (PhysicalDial.begin c w.system.now)
      some { w with dials := fun q => if q = p then dials else w.dials q }
    | _ => none

def start (options : List Options) : Watched := { system := System.start options }

/-- The dial starts at its time stamp. -/
def prompt (w : Watched) : Event → Bool
  | .dial c =>
    match w.system.callers[c]? with
    | some ⟨p, _, _, .dial _⟩ => (w.dials p).all fun d => !d.waits c || d.stamp = w.system.now
    | _ => true
  | .step _ => true

end Watched

/-! ## Time stamps and dials -/

variable {d : Dial}

namespace PhysicalDial

variable {dials : List PhysicalDial} {times : List Int} {limit : Nat} {now : Int} {c : Nat}
variable {outcome : DialOutcome}

theorem stamps_append (dials dials' : List PhysicalDial) :
    stamps (dials ++ dials') = stamps dials ++ stamps dials' := by
  unfold stamps
  rw [List.filter_append, List.map_append]

theorem stamps_singleton {d : PhysicalDial} (h : d.outcome ≠ .rolledBack) :
    stamps [d] = [d.stamp] := by
  simp [stamps, h]

theorem stamps_map_settle (dials : List PhysicalDial) (c : Nat) (h : outcome ≠ .rolledBack) :
    stamps (dials.map (settle c outcome)) = stamps dials := by
  induction dials with
  | nil => rfl
  | cons d rest ih =>
    have hnew := stamps_append [settle c outcome d] (rest.map (settle c outcome))
    have hold := stamps_append [d] rest
    refine hnew.trans (Eq.trans ?_ hold.symm)
    rw [ih]
    unfold settle
    split
    · next hd =>
      have hleft : d.outcome ≠ .rolledBack := by
        intro hgone
        simp [unsettled, hgone] at hd
      rw [stamps_singleton h, stamps_singleton hleft]
    · rfl

theorem map_settle_of_settled (h : ∀ d ∈ dials, d.unsettled = false) (c : Nat)
    (outcome : DialOutcome) : dials.map (settle c outcome) = dials := by
  have hsame : ∀ d ∈ dials, settle c outcome d = id d := by
    intro d hd
    unfold settle
    rw [if_neg]
    · rfl
    · rintro ⟨-, hopen⟩
      rw [h d hd] at hopen
      cases hopen
  rw [List.map_congr_left hsame, List.map_id]

theorem begin_keeps (c : Nat) (now : Int) (d : PhysicalDial) :
    (begin c now d).call = d.call ∧ (begin c now d).stamp = d.stamp ∧
      (begin c now d).kept = d.kept ∧ (begin c now d).outcome = d.outcome := by
  unfold begin
  split <;> exact ⟨rfl, rfl, rfl, rfl⟩

theorem begin_unsettled (c : Nat) (now : Int) (d : PhysicalDial) :
    (begin c now d).unsettled = d.unsettled := by
  unfold unsettled
  rw [(begin_keeps c now d).2.2.2]

theorem stamps_map_begin (dials : List PhysicalDial) (c : Nat) (now : Int) :
    stamps (dials.map (begin c now)) = stamps dials := by
  unfold stamps
  rw [List.filter_map, List.map_map]
  have hsame : stamp ∘ begin c now = stamp := funext fun d => (begin_keeps c now d).2.1
  have hleft : (fun d => decide (outcome d ≠ .rolledBack)) ∘ begin c now =
      fun d => decide (outcome d ≠ .rolledBack) := by
    funext d
    rw [Function.comp_apply, (begin_keeps c now d).2.2.2]
  rw [hsame, hleft]

/-- The stamps of the dials, in order, are some that left the window and those the pool
still has; they keep the budget. -/
structure Stamped (limit : Nat) (now : Int) (dials : List PhysicalDial) (times : List Int) :
    Prop where
  sorted : (stamps dials).Pairwise (· ≤ ·)
  past : ∀ x ∈ stamps dials, x ≤ now
  spread : Window.Spread limit minute (stamps dials)
  window : ∃ old, stamps dials = old ++ times ∧ ∀ x ∈ old, x ≤ now - minute

/-- The last dial is the unsettled one of the call `c`, and its stamp is the pool's last. -/
def Busy (dials : List PhysicalDial) (times : List Int) (c : Nat) (d : Dial)
    (outcome : DialOutcome) : Prop :=
  ∃ earlier last, dials = earlier ++ [last] ∧ (∀ e ∈ earlier, e.unsettled = false) ∧
    last.call = c ∧ last.stamp = d.now ∧ last.outcome = outcome ∧
    times = last.kept ++ [last.stamp]

section

variable (h : Stamped limit now dials times)
include h

theorem Stamped.later {now' : Int} (hle : now ≤ now') : Stamped limit now' dials times where
  __ := h
  past x hx := Int.le_trans (h.past x hx) hle
  window := by
    obtain ⟨old, hold, hfar⟩ := h.window
    refine ⟨old, hold, fun x hx => ?_⟩
    have hle := hfar x hx
    omega

theorem Stamped.trim : Stamped limit now dials (times.filter fun x => x > now - minute) where
  __ := h
  window := by
    obtain ⟨old, hold, hfar⟩ := h.window
    have hsorted := h.sorted
    rw [hold] at hsorted
    obtain ⟨gone, hgone, hout⟩ :=
      Window.filter_eq_suffix (List.pairwise_append.mp hsorted).2.1 (now - minute)
    refine ⟨old ++ gone, ?_, fun x hx => ?_⟩
    · rw [List.append_assoc, ← hgone, hold]
    · rcases List.mem_append.mp hx with hx | hx
      · exact hfar x hx
      · exact hout x hx

theorem Stamped.record (room : times.length < limit) :
    Stamped limit now (dials ++ [{ call := c, stamp := now, kept := times }]) (times ++ [now]) := by
  obtain ⟨old, hold, hfar⟩ := h.window
  have hstamps : stamps (dials ++ [{ call := c, stamp := now, kept := times }]) =
      stamps dials ++ [now] := by
    rw [stamps_append, stamps_singleton (fun h => by cases h)]
  refine ⟨?_, ?_, ?_, ?_⟩
  · rw [hstamps]
    exact Table.pairwise_concat h.sorted h.past
  · rw [hstamps]
    exact Table.forall_concat h.past (Int.le_refl _)
  · rw [hstamps, hold]
    refine Window.Spread.concat ?_ hfar room
    rw [← hold]
    exact h.spread
  · refine ⟨old, ?_, hfar⟩
    rw [hstamps, hold, List.append_assoc]

theorem Stamped.map_settle (left : outcome ≠ .rolledBack) :
    Stamped limit now (dials.map (settle c outcome)) times := by
  have hstamps := stamps_map_settle dials c left
  exact ⟨hstamps ▸ h.sorted, hstamps ▸ h.past, hstamps ▸ h.spread, hstamps ▸ h.window⟩

theorem Stamped.map_begin (i : Nat) (at' : Int) :
    Stamped limit now (dials.map (begin i at')) times := by
  have hstamps := stamps_map_begin dials i at'
  exact ⟨hstamps ▸ h.sorted, hstamps ▸ h.past, hstamps ▸ h.spread, hstamps ▸ h.window⟩

/-- What is left after the roll-back of the last dial. -/
theorem Stamped.rollBack (busy : Busy dials times c d .failed) :
    Stamped limit now (dials.map (settle c .rolledBack)) times.dropLast := by
  obtain ⟨earlier, last, rfl, hsettled, hcall, -, houtcome, rfl⟩ := busy
  have hlast : settle c .rolledBack last = { last with outcome := .rolledBack } := by
    unfold settle
    rw [if_pos ⟨hcall, by simp [unsettled, houtcome]⟩]
  have hafter : stamps ((earlier ++ [last]).map (settle c .rolledBack)) = stamps earlier := by
    rw [List.map_append, map_settle_of_settled hsettled, List.map_singleton, hlast, stamps_append]
    exact List.append_nil _
  have hbefore : stamps (earlier ++ [last]) = stamps earlier ++ [last.stamp] := by
    rw [stamps_append, stamps_singleton (by rw [houtcome]; nofun)]
  have hsorted := h.sorted
  have hspread := h.spread
  rw [hbefore] at hsorted hspread
  rw [List.dropLast_concat]
  refine ⟨?_, ?_, ?_, ?_⟩
  · rw [hafter]
    exact (List.pairwise_append.mp hsorted).1
  · intro x hx
    rw [hafter] at hx
    exact h.past x (by rw [hbefore]; exact List.mem_append_left _ hx)
  · rw [hafter]
    exact hspread.left
  · obtain ⟨old, hold, hfar⟩ := h.window
    refine ⟨old, ?_, hfar⟩
    rw [hbefore, ← List.append_assoc] at hold
    rw [hafter]
    exact (List.append_inj' hold rfl).1

end

theorem Busy.map_settle {outcome' : DialOutcome} (h : Busy dials times c d outcome)
    (hopen : outcome = .pending ∨ outcome = .failed) :
    Busy (dials.map (settle c outcome')) times c d outcome' := by
  obtain ⟨earlier, last, rfl, hsettled, hcall, hstart, houtcome, htimes⟩ := h
  have hlast : settle c outcome' last = { last with outcome := outcome' } := by
    unfold settle
    rw [if_pos ⟨hcall, by rcases hopen with h | h <;> simp [unsettled, houtcome, h]⟩]
  refine ⟨earlier, { last with outcome := outcome' }, ?_, hsettled, hcall, hstart, rfl, htimes⟩
  rw [List.map_append, map_settle_of_settled hsettled, List.map_singleton, hlast]

theorem Busy.map_begin (h : Busy dials times c d outcome) (i : Nat) (now : Int) :
    Busy (dials.map (begin i now)) times c d outcome := by
  obtain ⟨earlier, last, rfl, hsettled, hcall, hstamp, houtcome, htimes⟩ := h
  obtain ⟨hc, hs, hk, ho⟩ := begin_keeps i now last
  refine ⟨earlier.map (begin i now), begin i now last, List.map_append, fun e he => ?_,
    hc.trans hcall, hs.trans hstamp, ho.trans houtcome, ?_⟩
  · obtain ⟨old, hold, rfl⟩ := List.mem_map.mp he
    rw [begin_unsettled, hsettled old hold]
  · rw [hk, hs, htimes]

/-- Once the last dial is settled, all are. -/
theorem Busy.settled (h : Busy dials times c d outcome)
    (hdone : outcome = .succeeded ∨ outcome = .rolledBack) : ∀ e ∈ dials, e.unsettled = false := by
  obtain ⟨earlier, last, rfl, hsettled, -, -, houtcome, -⟩ := h
  refine Table.forall_concat hsettled ?_
  rcases hdone with h | h <;> simp [unsettled, houtcome, h]

end PhysicalDial

namespace System

variable {s s' : System} {c : Nat} {caller : Caller} {pool pool' : Pool} {answer : Answer}
variable {t : Turn} {a : Action} {times : List Int}

/-! ## What a turn does to the time stamps -/

/-- A turn and the stamps of its pool. -/
inductive Budgets (s : System) (pool : Pool) : Pc → Turn → Prop
  | keep {pc t} (times : t.pool.dialTimes = pool.dialTimes) (recorded : t.pc.recorded = pc.recorded)
      (outcome : pc.recorded ≠ none → t.pc.outcome = pc.outcome)
      (quiet : ∀ c kept dials, PhysicalDial.observe c kept dials pc t.pc = dials) :
      Budgets s pool pc t
  | trim {path t} (times : t.pool.dialTimes = pool.recentDials s.now)
      (refused : ∃ result, t.pc = .unlock path result) : Budgets s pool (.check path) t
  | record {path d t} (here : t.pc = .dial d) (now : d.now = s.now)
      (allowed : pool.dialAllowed s.now = true) (times : 0 < pool.maxDialsPerMinute →
        t.pool.dialTimes = pool.recentDials s.now ++ [s.now]) : Budgets s pool (.check path) t
  | settle {d t outcome} (times : t.pool.dialTimes = pool.dialTimes)
      (there : (outcome = .succeeded ∧ t.pc.recorded = none) ∨
        (outcome = .failed ∧ t.pc.recorded = some d ∧ t.pc.outcome = .failed))
      (told : ∀ c kept dials, PhysicalDial.observe c kept dials (.dial d) t.pc =
        dials.map (PhysicalDial.settle c outcome)) : Budgets s pool (.dial d) t
  | rollBack {d err t}
      (times : t.pool.dialTimes = pool.dialTimes.dropLast) (there : t.pc.recorded = none) :
      Budgets s pool (.rollBack d err) t

theorem recorded_of_plain {pc : Pc} (h : pc.plain = true) : pc.recorded = none := by
  cases pc <;> first | rfl | cases h

theorem observe_of_plain {pc : Pc} (h : pc.plain = true) (pc' : Pc) (c : Nat) (kept : List Int)
    (dials : List PhysicalDial) : PhysicalDial.observe c kept dials pc pc' = dials := by
  cases pc <;> first | rfl | cases h

theorem recorded_afterDial (result : Dialed) :
    (afterGrow result).recorded = none ∧ (afterSoftFull result).recorded = none :=
  afterDial (P := (·.recorded = none)) (fun _ _ => rfl) (fun _ => rfl) fun _ _ _ => rfl

/-- What a step of a call does to the stamps of its pool. -/
theorem Turns.budgets {pc : Pc} (h : Turns s c caller pool answer pc t) : Budgets s pool pc t := by
  cases h with
  | wander here there _ _ times =>
    have hnone := recorded_of_plain here
    exact .keep times ((recorded_of_plain there).trans hnone.symm) (absurd hnone)
      (observe_of_plain here _)
  | giveUp here _ _ times =>
    have hnone := recorded_of_plain here
    exact .keep times hnone.symm (absurd hnone) (observe_of_plain here _)
  | refuse _ _ _ times =>
    rcases times with times | times
    · exact .keep times rfl nofun fun _ _ _ => rfl
    · exact .trim times ⟨_, rfl⟩
  | share _ times => exact .keep times rfl nofun fun _ _ _ => rfl
  | acquire _ _ _ _ records
  | uncapped _ _ records => exact .record rfl rfl records.allowed records.times
  | dialed => exact .settle rfl (.inl ⟨rfl, rfl⟩) fun _ _ _ => rfl
  | dialError => exact .settle rfl (.inr ⟨rfl, rfl, rfl⟩) fun _ _ _ => rfl
  | undo | skipUndo => exact .keep rfl rfl (fun _ => rfl) fun _ _ _ => rfl
  | rollBack => exact .rollBack rfl rfl
  | unlock => exact .keep rfl (recorded_afterDial _).1 nofun fun _ _ _ => rfl
  | land | receive => exact .keep rfl (recorded_afterDial _).2 nofun fun _ _ _ => rfl
  | _ =>
    exact .keep rfl rfl nofun fun _ _ _ => rfl

/-! ## The account of a pool -/

open PhysicalDial (Stamped Busy)

/-- The dials and stamps of the pool `p` beside the program counters of its calls. -/
structure Account (limit : Nat) (now : Int) (dials : List PhysicalDial) (times : List Int)
    (callers : List Caller) (p : Nat) : Prop where
  stamped : Stamped limit now dials times
  busy : ∀ (c : Nat) (caller : Caller) (d : Dial), callers[c]? = some caller → caller.pool = p →
    caller.pc.recorded = some d → Busy dials times c d caller.pc.outcome
  idle : (∀ (c : Nat) (caller : Caller), callers[c]? = some caller → caller.pool = p →
    caller.pc.recorded = none) → ∀ e ∈ dials, e.unsettled = false

theorem locks_of_recorded {pc : Pc} (h : pc.recorded = some d) : pc.locks = true := by
  cases pc <;> first | rfl | cases h

/-- While a call is in a dial path, no other call of its pool has a recorded dial. -/
theorem Exclusive.alone (h : Exclusive s) (call : s.callers[c]? = some caller)
    (home : s.pools[caller.pool]? = some pool) (locks : caller.pc.locks = true) {i : Nat}
    {other : Caller} (hother : s.callers[i]? = some other) (hpool : other.pool = caller.pool)
    (hne : c ≠ i) : other.pc.recorded = none := by
  cases hrecorded : other.pc.recorded with
  | none => rfl
  | some d =>
    have hmine := h c caller pool call home locks
    have htheirs := h i other pool hother (hpool ▸ home) (locks_of_recorded hrecorded)
    exact absurd (Option.some.inj (hmine.symm.trans htheirs)) hne

theorem recentDials_eq (h : 0 < pool.maxDialsPerMinute) (now : Int) :
    pool.recentDials now = pool.dialTimes.filter fun x => x > now - minute := by
  unfold Pool.recentDials
  rw [if_neg (by omega)]

section Turn

variable {limit : Nat} {now : Int} {dials : List PhysicalDial}
  {callers : List Caller} (h : Account limit now dials pool.dialTimes callers caller.pool)
  (call : callers[c]? = some caller)

include h call

theorem Account.keep {pc : Pc} (htimes : times = pool.dialTimes)
    (recorded : pc.recorded = caller.pc.recorded)
    (outcome : caller.pc.recorded ≠ none → pc.outcome = caller.pc.outcome) :
    Account limit now dials times (callers.set c { caller with pc }) caller.pool := by
  subst htimes
  refine ⟨h.stamped, fun i caller' d hi hpool hd => ?_,
    fun hidle => h.idle fun i other hi hpool => ?_⟩
  · rcases Table.getElem?_set_cases hi with ⟨-, hold⟩ | ⟨rfl, rfl⟩
    · exact h.busy i caller' d hold hpool hd
    · have hd' : caller.pc.recorded = some d := recorded.symm.trans hd
      have hbusy := h.busy c caller d call rfl hd'
      rw [← outcome (by rw [hd']; nofun)] at hbusy
      exact hbusy
  · by_cases hic : c = i
    · subst hic
      obtain rfl : other = caller := Option.some.inj (hi.symm.trans call)
      rw [← recorded]
      refine hidle c { other with pc } ?_ rfl
      rw [List.getElem?_set_self (Table.lt_length call)]
    · exact hidle i other (by rw [List.getElem?_set_ne hic, hi]) hpool

omit h in
/-- A step of the only call of the pool with a recorded dial, if there is one. -/
theorem account_of_alone {pc : Pc} {dials' : List PhysicalDial}
    (alone : ∀ (i : Nat) (other : Caller), callers[i]? = some other →
      other.pool = caller.pool → c ≠ i → other.pc.recorded = none)
    (stamped : Stamped limit now dials' times)
    (busy : ∀ d, pc.recorded = some d → Busy dials' times c d pc.outcome)
    (idle : pc.recorded = none → ∀ e ∈ dials', e.unsettled = false) :
    Account limit now dials' times (callers.set c { caller with pc }) caller.pool := by
  refine ⟨stamped, fun i caller' d hi hpool hd => ?_, fun hidle => idle ?_⟩
  · rcases Table.getElem?_set_cases hi with ⟨hne, hold⟩ | ⟨rfl, rfl⟩
    · have hnone := alone i caller' hold hpool hne
      rw [hnone] at hd
      cases hd
    · exact busy d hd
  · refine hidle c { caller with pc } ?_ rfl
    rw [List.getElem?_set_self (Table.lt_length call)]

end Turn

/-- A turn of a call keeps the account of its pool. -/
theorem Account.turn {now : Int} {dials : List PhysicalDial} (hnow : now = s.now)
    (hpos : 0 < pool.maxDialsPerMinute)
    (h : Account pool.maxDialsPerMinute.toNat now dials pool.dialTimes s.callers caller.pool)
    (exclusive : Exclusive s) (call : s.callers[c]? = some caller)
    (home : s.pools[caller.pool]? = some pool) (budgets : Budgets s pool caller.pc t) :
    Account pool.maxDialsPerMinute.toNat now
      (PhysicalDial.observe c (pool.recentDials s.now) dials caller.pc t.pc) t.pool.dialTimes
      (s.callers.set c { caller with pc := t.pc }) caller.pool := by
  subst hnow
  have alone : caller.pc.locks = true → ∀ (i : Nat) (other : Caller), s.callers[i]? = some other →
      other.pool = caller.pool → c ≠ i → other.pc.recorded = none :=
    fun hlocks i other hi hpool hne => exclusive.alone call home hlocks hi hpool hne
  have noOther : caller.pc.locks = true → caller.pc.recorded = none →
      ∀ e ∈ dials, e.unsettled = false := by
    intro hlocks hnone
    refine h.idle fun i other hi hpool => ?_
    by_cases hic : c = i
    · subst hic
      obtain rfl : other = caller := Option.some.inj (hi.symm.trans call)
      exact hnone
    · exact alone hlocks i other hi hpool hic
  have hbusy := fun d => h.busy c caller d call rfl
  generalize hpc : caller.pc = pc at budgets alone noOther hbusy
  cases budgets with
  | keep times recorded outcome quiet =>
    rw [quiet]
    exact h.keep call times (by rw [hpc]; exact recorded) (by rw [hpc]; exact outcome)
  | trim times refused =>
    obtain ⟨result, hresult⟩ := refused
    rw [hresult, times, recentDials_eq hpos]
    exact account_of_alone call (alone rfl) h.stamped.trim nofun fun _ => noOther rfl rfl
  | @record path d _ here hnow allowed times =>
    rw [here, times hpos]
    have hstamped := h.stamped.trim
    rw [← recentDials_eq hpos] at hstamped
    refine account_of_alone call (alone rfl) ?_ (fun d' hd' => ?_) nofun
    · change Stamped _ _ (dials ++ [{ call := c, stamp := d.now, kept := _ }]) _
      rw [hnow]
      simp only [Pool.dialAllowed, Bool.or_eq_true, decide_eq_true_eq] at allowed
      exact hstamped.record (by omega)
    · cases hd'
      refine ⟨dials, _, rfl, noOther rfl rfl, rfl, rfl, rfl, ?_⟩
      rw [hnow]
  | @settle d _ outcome times there told =>
    rw [told, times]
    have hold := hbusy d rfl
    rcases there with ⟨rfl, hnone⟩ | ⟨rfl, hsome, hfailed⟩
    · refine account_of_alone call (alone rfl) (h.stamped.map_settle nofun) (fun d' hd' => ?_)
        fun _ => ?_
      · rw [hnone] at hd'
        cases hd'
      · exact (hold.map_settle (.inl rfl)).settled (.inl rfl)
    · refine account_of_alone call (alone rfl) (h.stamped.map_settle nofun) (fun d' hd' => ?_)
        fun hnone => ?_
      · obtain rfl : d = d' := Option.some.inj (hsome.symm.trans hd')
        rw [hfailed]
        exact hold.map_settle (.inl rfl)
      · rw [hsome] at hnone
        cases hnone
  | @rollBack d err _ times there =>
    rw [times]
    have hold := hbusy d rfl
    refine account_of_alone call (alone rfl) (h.stamped.rollBack hold) (fun d' hd' => ?_)
      fun _ => ?_
    · rw [there] at hd'
      cases hd'
    · exact (hold.map_settle (.inr rfl)).settled (.inr rfl)

/-! ## The budget over a run -/

theorem commit_now (s : System) (c : Nat) (caller : Caller) (t : Turn) :
    (s.commit c caller t).now = s.now := by
  unfold commit
  cases t.effect <;> rfl

theorem Moves.now_le (h : Moves s a s') : s.now ≤ s'.now := by
  cases h with
  | turn => exact Int.le_of_eq (commit_now s _ _ _).symm
  | @tick elapsed =>
    change s.now ≤ s.now + (elapsed : Int)
    omega
  | _ => exact Int.le_refl _

theorem Turns.maxDialsPerMinute {pc : Pc} (h : Turns s c caller pool answer pc t) :
    t.pool.maxDialsPerMinute = pool.maxDialsPerMinute := by
  have heq := congrArg Pool.maxDialsPerMinute h.pool_eq
  exact heq

theorem Stirs.dialTimes (h : Stirs pool pool') :
    pool'.dialTimes = pool.dialTimes ∧ pool'.maxDialsPerMinute = pool.maxDialsPerMinute := by
  cases h with
  | signal => exact ⟨rfl, rfl⟩
  | close =>
    unfold Pool.close
    split <;> exact ⟨rfl, rfl⟩

/-- Around the turns a call stays in its pool and at its program counter. -/
theorem Moves.persists (h : Moves s a s') (around : ∀ c answer, a ≠ .advance c answer)
    (call : s.callers[c]? = some caller) :
    ∃ caller', s'.callers[c]? = some caller' ∧ caller'.pool = caller.pool ∧
      caller'.pc = caller.pc := by
  cases h with
  | turn => exact absurd rfl (around _ _)
  | call =>
    refine ⟨caller, ?_, rfl, rfl⟩
    exact Table.getElem?_append call _
  | @cancel i other hother =>
    by_cases hi : i = c
    · subst hi
      obtain rfl : other = caller := Option.some.inj (hother.symm.trans call)
      refine ⟨{ other with done := true }, ?_, rfl, rfl⟩
      exact List.getElem?_set_self (Table.lt_length call)
    · exact ⟨caller, (List.getElem?_set_ne hi).trans call, rfl, rfl⟩
  | _ => exact ⟨caller, call, rfl, rfl⟩

/-- What happens around the calls keeps the account. -/
theorem Account.passes {limit : Nat} {dials : List PhysicalDial} {p : Nat}
    (h : Account limit s.now dials times s.callers p) (hmoves : Moves s a s')
    (hpasses : Passes s s') (around : ∀ c answer, a ≠ .advance c answer) :
    Account limit s'.now dials times s'.callers p where
  stamped := h.stamped.later hmoves.now_le
  busy c caller' d hc hpool hd := by
    rcases hpasses.callers c caller' hc with htop | ⟨caller, hold, hsame, hpc, -⟩
    · rw [htop] at hd
      cases hd
    · rw [hpc] at hd ⊢
      exact h.busy c caller d hold (hsame ▸ hpool) hd
  idle hidle := by
    refine h.idle fun c caller hc hpool => ?_
    obtain ⟨caller', hc', hsame, hpc⟩ := hmoves.persists around hc
    rw [← hpc]
    exact hidle c caller' hc' (hsame.trans hpool)

end System

namespace Watched

open XrayMux.System

variable {w w' : Watched} {a : Action}

/-- Dials exclude each other, and every pool with a budget has its account in order. -/
structure Audited (w : Watched) : Prop where
  exclusive : Exclusive w.system
  account : ∀ (p : Nat) (pool : Pool), w.system.pools[p]? = some pool →
    0 < pool.maxDialsPerMinute →
    Account pool.maxDialsPerMinute.toNat w.system.now (w.dials p) pool.dialTimes
      w.system.callers p

theorem Audited.turn (h : Audited w) {c : Nat} {answer : Answer} {s' : System}
    (hstep : w.system.next (.advance c answer) = some s') :
    Audited ⟨s', w.after s' (.advance c answer)⟩ := by
  obtain ⟨caller, pool, t, hcall, hhome, hturns, rfl⟩ := advance_turns hstep
  have hself : (w.system.callers.set c { caller with pc := t.pc })[c]? =
      some { caller with pc := t.pc } :=
    List.getElem?_set_self (Table.lt_length hcall)
  have hafter : ∀ p, w.after (w.system.commit c caller t) (.advance c answer) p =
      if p = caller.pool then
        PhysicalDial.observe c (pool.recentDials w.system.now) (w.dials p) caller.pc t.pc
      else w.dials p := by
    intro p
    simp only [after, hcall, commit_callers, hself, hhome]
  refine ⟨h.exclusive.next (.turn hcall hhome hturns), fun p pool' hp hpos => ?_⟩
  simp only at hp ⊢
  rw [hafter, commit_now, commit_callers]
  rw [commit_pools] at hp
  rcases Table.getElem?_set_cases hp with ⟨hne, hold⟩ | ⟨rfl, rfl⟩
  · -- Another pool: its dials, stamps and calls are the same.
    have haccount := h.account p pool' hold hpos
    rw [if_neg (Ne.symm hne)]
    refine ⟨haccount.stamped, fun i other d hi hpool hd => ?_, fun hidle => ?_⟩
    · rcases Table.getElem?_set_cases hi with ⟨-, hi⟩ | ⟨rfl, rfl⟩
      · exact haccount.busy i other d hi hpool hd
      · exact absurd hpool hne
    · refine haccount.idle fun i other hi hpool => ?_
      refine hidle i other ?_ hpool
      rw [List.getElem?_set_ne]
      · exact hi
      · rintro rfl
        obtain rfl : other = caller := Option.some.inj (hi.symm.trans hcall)
        exact hne hpool
  · rw [if_pos rfl]
    rw [hturns.maxDialsPerMinute] at hpos ⊢
    exact (h.account _ pool hhome hpos).turn rfl hpos h.exclusive hcall hhome hturns.budgets

theorem Audited.around (h : Audited w) {s' : System} (hstep : w.system.next a = some s')
    (around : ∀ c answer, a ≠ .advance c answer) : Audited ⟨s', w.dials⟩ := by
  have hmoves := next_moves hstep
  refine ⟨h.exclusive.next hmoves, fun p pool' hp hpos => ?_⟩
  rcases hmoves.turn_or_passes with ⟨c, answer, caller, pool, t, hact, -⟩ | hpasses
  · exact absurd hact (around c answer)
  · obtain ⟨pool, hold, rfl | hstirs⟩ := hpasses.pools p pool' hp
    · exact (h.account p _ hold hpos).passes hmoves hpasses around
    · obtain ⟨htimes, hmax⟩ := hstirs.dialTimes
      rw [hmax] at hpos ⊢
      rw [htimes]
      exact (h.account p pool hold hpos).passes hmoves hpasses around

theorem Audited.begin (h : Audited w) (c p : Nat) :
    Audited { w with dials := fun q => if q = p then
      (w.dials p).map (PhysicalDial.begin c w.system.now) else w.dials q } := by
  refine ⟨h.exclusive, fun q pool hq hpos => ?_⟩
  have haccount := h.account q pool hq hpos
  simp only
  split
  · next heq =>
    subst heq
    refine ⟨haccount.stamped.map_begin c _, fun i caller d hi hpool hd => ?_, fun hidle e he => ?_⟩
    · exact (haccount.busy i caller d hi hpool hd).map_begin c _
    · obtain ⟨old, hold, rfl⟩ := List.mem_map.mp he
      rw [PhysicalDial.begin_unsettled, haccount.idle hidle old hold]
  · exact haccount

/-- The dials after a step: those after a step of the pools, or one of them has started. -/
theorem next_cases {e : Event} (hstep : w.next e = some w') :
    (∃ a s', e = .step a ∧ w.system.next a = some s' ∧ w' = ⟨s', w.after s' a⟩) ∨
      ∃ c p entry ctxDone d, e = .dial c ∧
        w.system.callers[c]? = some ⟨p, entry, ctxDone, .dial d⟩ ∧
        w' = { w with dials := fun q => if q = p then
          (w.dials p).map (PhysicalDial.begin c w.system.now) else w.dials q } := by
  cases e with
  | step a =>
    obtain ⟨s', hs', rfl⟩ := Option.map_eq_some_iff.mp (Transition.of_guard_bind hstep).2
    exact .inl ⟨a, s', rfl, hs', rfl⟩
  | dial c =>
    simp only [Watched.next] at hstep
    split at hstep
    · next hcall =>
      cases hstep
      exact .inr ⟨c, _, _, _, _, rfl, hcall, rfl⟩
    · cases hstep

theorem Audited.next {e : Event} (h : Audited w) (hstep : w.next e = some w') : Audited w' := by
  rcases next_cases hstep with ⟨a, s', -, hs', rfl⟩ | ⟨c, p, entry, ctxDone, d, -, -, rfl⟩
  · cases a with
    | advance c answer => exact h.turn hs'
    | _ => exact h.around hs' nofun
  · exact h.begin c p

theorem audited_start (options : List Options) : Audited (start options) where
  exclusive c caller pool h := by simp [start, System.start] at h
  account p pool hp hpos := by
    obtain ⟨opts, -, rfl⟩ := List.mem_map.mp (List.mem_of_getElem? hp)
    refine ⟨⟨List.Pairwise.nil, by simp [start, PhysicalDial.stamps], .nil, [], rfl, by simp⟩,
      fun c caller d hc => ?_, fun _ e he => ?_⟩
    · simp [start, System.start] at hc
    · simp [start] at he

/-- The dials of a pool that succeeded or are in progress. -/
def counted (w : Watched) (p : Nat) : List PhysicalDial :=
  (w.dials p).filter PhysicalDial.counts

/-- No half-open window of a minute, closed on the left or on the right, has more starts
of counted dials than the limit. -/
def WithinBudget (w : Watched) : Prop :=
  ∀ (p : Nat) (pool : Pool), w.system.pools[p]? = some pool → 0 < pool.maxDialsPerMinute →
    ∀ t : Int,
    ((w.counted p).countP fun d => d.start.any fun x => t ≤ x ∧ x < t + minute) ≤
        pool.maxDialsPerMinute.toNat ∧
      ((w.counted p).countP fun d => d.start.any fun x => t < x ∧ x ≤ t + minute) ≤
        pool.maxDialsPerMinute.toNat

/-- A roll-back takes away the stamp of the dial that failed: its pool then has the stamps
it had before that dial. -/
def RollsBack (w : Watched) : Prop :=
  ∀ (c : Nat) (caller : Caller) (pool : Pool) (d : Dial) (err : Err),
    w.system.callers[c]? = some caller → caller.pc = .rollBack d err →
    w.system.pools[caller.pool]? = some pool → 0 < pool.maxDialsPerMinute →
    ∃ earlier failed, w.dials caller.pool = earlier ++ [failed] ∧ failed.call = c ∧
      failed.stamp = d.now ∧ failed.outcome = .failed ∧
      pool.dialTimes = failed.kept ++ [failed.stamp] ∧
      ∀ answer, ∃ s' pool', w.system.next (.advance c answer) = some s' ∧
        s'.pools[caller.pool]? = some pool' ∧ pool'.dialTimes = failed.kept

theorem countP_counted_le (w : Watched) (p : Nat) (inside : Int → Bool) :
    (w.counted p).countP (fun d => inside d.stamp) ≤
      (PhysicalDial.stamps (w.dials p)).countP inside := by
  unfold counted PhysicalDial.stamps
  rw [List.countP_map, List.countP_filter, List.countP_filter]
  refine List.countP_mono_left fun d _ hd => ?_
  simp only [Bool.and_eq_true, PhysicalDial.counts, Bool.or_eq_true, decide_eq_true_eq] at hd
  simp only [Function.comp_apply, Bool.and_eq_true, decide_eq_true_eq]
  refine ⟨hd.1, fun hgone => ?_⟩
  rcases hd.2 with h | h <;> simp [hgone] at h

/-- Every dial that has started did so at its stamp. -/
def Timely (w : Watched) : Prop :=
  ∀ p, ∀ d ∈ w.dials p, ∀ x, d.start = some x → x = d.stamp

theorem Timely.after (h : Timely w) (s' : System) : ∀ a, Timely ⟨s', w.after s' a⟩ := by
  have hobserve : ∀ p c kept pc pc', ∀ d ∈ PhysicalDial.observe c kept (w.dials p) pc pc',
      ∀ x, d.start = some x → x = d.stamp := by
    intro p c kept pc pc' d hd x hx
    have hsettle : ∀ outcome, d ∈ (w.dials p).map (PhysicalDial.settle c outcome) →
        x = d.stamp := by
      intro outcome hd
      obtain ⟨old, hold, rfl⟩ := List.mem_map.mp hd
      unfold PhysicalDial.settle at hx ⊢
      split at hx <;> split <;> exact h p old hold x hx
    unfold PhysicalDial.observe at hd
    split at hd
    · rcases List.mem_append.mp hd with hd | hd
      · exact h p d hd x hx
      · rw [List.mem_singleton.mp hd] at hx
        cases hx
    · exact hsettle _ hd
    · exact hsettle _ hd
    · exact hsettle _ hd
    · exact h p d hd x hx
  intro a p
  unfold Watched.after
  split
  · split
    · split
      · dsimp only
        split
        · exact hobserve p _ _ _ _
        · exact h p
      · exact h p
    · exact h p
  · exact h p

theorem Timely.next {e : Event} (h : Timely w) (hprompt : w.prompt e = true)
    (hstep : w.next e = some w') : Timely w' := by
  rcases next_cases hstep with ⟨a, s', -, -, rfl⟩ | ⟨c, p, entry, ctxDone, d, rfl, hcall, rfl⟩
  · exact h.after s' a
  · intro q e he x hx
    simp only at he
    split at he
    · obtain ⟨old, hold, rfl⟩ := List.mem_map.mp he
      simp only [prompt, hcall, List.all_eq_true, Bool.or_eq_true, Bool.not_eq_true',
        decide_eq_true_eq] at hprompt
      unfold PhysicalDial.begin at hx ⊢
      split at hx
      · next hwaits =>
        cases hx
        rw [if_pos hwaits]
        rcases hprompt old hold with hno | hnow
        · rw [hwaits] at hno
          cases hno
        · exact hnow.symm
      · next hwaits =>
        rw [if_neg hwaits]
        exact h p old hold x hx
    · exact h q e he x hx

theorem Audited.windows (h : Audited w) (timely : Timely w) {p : Nat} {pool : Pool}
    (hp : w.system.pools[p]? = some pool) (hpos : 0 < pool.maxDialsPerMinute)
    (inside : Int → Bool)
    (short : ∀ x y, inside x = true → inside y = true → y < x + minute) :
    (w.counted p).countP (fun d => d.start.any inside) ≤ pool.maxDialsPerMinute.toNat := by
  have hstamped := (h.account p pool hp hpos).stamped
  have hstarts : (w.counted p).countP (fun d => d.start.any inside) ≤
      (w.counted p).countP fun d => inside d.stamp := by
    refine List.countP_mono_left fun d hd hinside => ?_
    obtain ⟨x, hx, hin⟩ := (Option.any_eq_true _ _).mp hinside
    rw [← timely p d (List.mem_of_mem_filter hd) x hx]
    exact hin
  exact hstarts.trans ((w.countP_counted_le p inside).trans
    (hstamped.spread.countP_le hstamped.sorted short))

theorem Audited.withinBudget (h : Audited w) (timely : Timely w) : WithinBudget w := by
  intro p pool hp hpos t
  refine ⟨h.windows timely hp hpos (fun x => t ≤ x ∧ x < t + minute) fun x y hx hy => ?_,
    h.windows timely hp hpos (fun x => t < x ∧ x ≤ t + minute) fun x y hx hy => ?_⟩
  all_goals
    simp only [decide_eq_true_eq] at hx hy
    omega

theorem Audited.rollsBack (h : Audited w) : RollsBack w := by
  intro c caller pool d err hcall hpc hhome hpos
  have hbusy := (h.account _ pool hhome hpos).busy c caller d hcall rfl (by rw [hpc]; rfl)
  rw [hpc] at hbusy
  obtain ⟨earlier, failed, hdials, -, hc, hstamp, houtcome, htimes⟩ := hbusy
  refine ⟨earlier, failed, hdials, hc, hstamp, houtcome, htimes, fun answer => ?_⟩
  have hlt := Table.lt_length hhome
  let t : Turn :=
    { pool := { pool with dialTimes := pool.dialTimes.dropLast }
      pc := .unlock d.path (.error err) }
  refine ⟨w.system.commit c caller t, t.pool, ?_, ?_, ?_⟩
  · simp only [System.next, advance, hcall, hhome, System.turn, hpc]
    rfl
  · exact List.getElem?_set_self hlt
  · change pool.dialTimes.dropLast = failed.kept
    rw [htimes, List.dropLast_concat]

/-- In every run every roll-back takes the right stamp, and a run in which the dials start
at their stamps keeps the budget of every pool. -/
theorem budgeted_of_prompt (options : List Options) (events : List Event)
    (h : Transition.run next (start options) events = some w) :
    RollsBack w ∧
      (Transition.Guarded next (fun w e => w.prompt e = true) (start options) events →
        WithinBudget w) := by
  have haudited : Audited w :=
    Transition.run_invariant (fun _ _ _ h hstep => h.next hstep) (audited_start options) h
  refine ⟨haudited.rollsBack, fun hprompt => haudited.withinBudget ?_⟩
  refine Transition.guarded_invariant (fun _ _ _ h hok hstep => h.next hok hstep) ?_ hprompt h
  intro p d hd
  cases hd

/-- The call `c` takes `n` steps, and its dials succeed. -/
def advances (c n : Nat) : List Event := List.replicate n (.step (.advance c {}))

/-- One dial a minute: the first call's dial fails and is rolled back, so that the second
call may dial ten seconds later; the third call is refused. -/
def oneDialEach : List Event :=
  [.step (.call 0 .dialContext (some .TCP))] ++ advances 0 6 ++
  [.dial 0, .step (.advance 0 { dial := some (.text "connection refused") })] ++ advances 0 4 ++
  [.step (.tick 10000000000), .step (.call 0 .dialContext (some .TCP))] ++ advances 1 6 ++
  [.dial 1] ++ advances 1 5 ++
  [.step (.tick 10000000000), .step (.call 0 .dialContext (some .TCP))] ++ advances 2 8

theorem budgeted_oneDialEach :
    ∃ w, Transition.run next (start [{ concurrency := 1, maxDialsPerMinute := 1 }]) oneDialEach =
        some w ∧
      (w.dials 0).map (fun d => (d.start, d.outcome)) =
        [(some 0, .rolledBack), (some 10000000000, .succeeded)] ∧
      RollsBack w ∧ WithinBudget w := by
  refine Transition.exists_of_map (f := fun w => (w.dials 0).map fun d => (d.start, d.outcome))
    rfl fun w hrun hw => ?_
  obtain ⟨hback, hwithin⟩ := budgeted_of_prompt _ _ hrun
  exact ⟨hw, hback, hwithin (by decide)⟩

/-- One dial a minute over at most two carriers: the name of the first call's endpoint is
resolved ten seconds after the stamp, and the second call dials at sixty seconds. -/
def slowAnswer : List Event :=
  [.step (.call 0 .dialContext (some .TCP))] ++ advances 0 4 ++
  [.step (.tick 10000000000), .dial 0] ++ advances 0 5 ++
  [.step (.tick 50000000000), .step (.call 0 .dialContext (some .TCP))] ++ advances 1 4 ++
  [.dial 1]

/-- The dials start at ten and at sixty seconds: two within a minute. -/
theorem not_withinBudget_slowAnswer :
    ∃ w, Transition.run next
        (start [{ concurrency := 1, maxConnections := 2, maxDialsPerMinute := 1 }]) slowAnswer =
        some w ∧
      (w.dials 0).map (fun d => (d.stamp, d.start)) =
        [(0, some 10000000000), (60000000000, some 60000000000)] ∧ ¬ WithinBudget w := by
  refine Transition.exists_of_map
    (f := fun w => ((w.dials 0).map fun d => (d.stamp, d.start),
      w.system.pools[0]?.map (·.maxDialsPerMinute),
      (w.counted 0).countP fun d =>
        d.start.any fun x => 10000000000 ≤ x ∧ x < 10000000000 + minute))
    (b := ([(0, some 10000000000), (60000000000, some 60000000000)], some 1, 2)) rfl
    fun w _ hw => ?_
  obtain ⟨hdials, hlimit, htwo⟩ : _ ∧ _ ∧ _ := by simpa only [Prod.mk.injEq] using hw
  refine ⟨hdials, fun hwithin => ?_⟩
  obtain ⟨pool, hpool, hone⟩ := Option.map_eq_some_iff.mp hlimit
  have hfew := (hwithin 0 pool hpool (by rw [hone]; decide) 10000000000).1
  rw [htwo, hone] at hfew
  exact absurd hfew (by decide)

end Watched

end XrayMux
