import CheezyCore.Foundation.Transition

/-!
# Health checks in the power-save modes

`processPowerSave` waits for a change of the mode or for a timer, which it sets from the last check
that it scheduled and the last one that ended anywhere. A step of the loop reads each variable that
others write once, so that what happens within it may as well happen before or after.

The module is one of Go 1.20, whose timers put their tick into a channel with a buffer when they
have expired. In between, `Stop` reports that the timer does not run and there is no tick to drain.
Such a tick comes for a timer that was meant to be stopped.
-/

namespace HealthCheck

open Transition

inductive Mode where
  | active
  | background
  | idle
deriving DecidableEq

def backgroundInterval : Int := 30 * 60 * 1000000000

/-- A check that the loop starts: the mode that it read last and `scheduled`. -/
structure Start where
  mode : Mode
  time : Int

/-- The fields of a `HealthCheck`, the variables of the loop and what it shares with others. -/
structure State where
  now : Int
  current : Mode
  changed : Bool := false
  lastTouch : Int
  lastCheck : Int
  first : Bool := true
  scheduled : Int := 0
  /-- When the timer expires, if it runs. -/
  timer : Option Int
  /-- The ticks of expired timers that are not sent yet. -/
  unsent : Nat := 0
  /-- There is a tick in `timer.C`. -/
  tick : Bool := false
  /-- The mode for which the loop waits in its `select`. -/
  waiting : Option Mode := none
  /-- What the loop has started, the last check first. -/
  starts : List Start := []

/-- `time.NewTimer(0)` expires at once. -/
def start (now lastTouch lastCheck : Int) (current : Mode) : State :=
  { now, current, lastTouch, lastCheck, timer := some now }

inductive Event where
  | pass (time : Nat)
  | set (mode : Mode)
  | touch
  /-- A check of the loop or of another caller ends. -/
  | checked
  | expire
  | send
  /-- The mode may be set after `Changed` is called and before `Current` is. -/
  | recalculate (late : Bool)
  | wake
  /-- The clock is read twice. -/
  | receive (between : Nat)

section

variable (interval : Int) (lazy : Bool)

def intervalIn (mode : Mode) : Int :=
  if mode = .background ∧ interval < backgroundInterval then backgroundInterval else interval

/-- When the timer expires after `timer.Reset(delay)`. -/
def deadline (s : State) : Int :=
  let last := if s.scheduled < s.lastCheck then s.lastCheck else s.scheduled
  let delay := last + intervalIn interval s.current - s.now
  s.now + if s.first ∨ delay < 0 then 0 else delay

/-- The loop up to its `select`. The channel is drained if the timer does not run. -/
def recalculate (s : State) (late : Bool) : State := { s with
  changed := late
  waiting := some s.current
  timer := if s.current = .idle then none else some (deadline interval s)
  tick := s.timer.isSome && s.tick }

/-- The loop after a tick, with `scheduledCheck`. -/
def receive (s : State) (mode : Mode) (between : Nat) : State :=
  if s.current ≠ mode then { s with tick := false, waiting := none }
  else { s with
    now := s.now + between
    tick := false
    waiting := none
    scheduled := s.now
    first := false
    starts :=
      if s.first ∨ lazy = false ∨ s.now + between - s.lastTouch < interval then
        ⟨mode, s.now⟩ :: s.starts
      else s.starts }

def next (s : State) : Event → Option State
  | .pass time => some { s with now := s.now + time }
  | .set mode => some { s with current := mode, changed := s.changed || s.current != mode }
  | .touch => some { s with lastTouch := s.now }
  | .checked => some { s with lastCheck := s.now }
  | .expire =>
    match s.timer with
    | some time =>
      if time ≤ s.now then some { s with timer := none, unsent := s.unsent + 1 } else none
    | none => none
  | .send =>
    if 0 < s.unsent then some { s with unsent := s.unsent - 1, tick := true } else none
  | .recalculate late => if s.waiting = none then some (recalculate interval s late) else none
  | .wake => if s.changed then some { s with waiting := none } else none
  | .receive between =>
    match s.waiting with
    | some mode =>
      if mode ≠ .idle ∧ s.tick then some (receive interval lazy s mode between) else none
    | none => none

/-- The distance of two checks that the loop starts. -/
def Spaced (later earlier : Start) : Prop :=
  earlier.time + interval ≤ later.time ∧
    (later.mode = .background → earlier.time + max interval backgroundInterval ≤ later.time)

/-- The timer is stopped with no tick on its way. -/
def prompt (s : State) : Event → Prop
  | .recalculate _ => s.unsent = 0
  | _ => True

/-- The timer is set for the mode for which the loop waits. -/
structure Inv (s : State) : Prop where
  spaced : s.starts.Pairwise (Spaced interval)
  scheduled : ∀ c ∈ s.starts, c.time ≤ s.scheduled ∧ s.scheduled ≤ s.now
  first : s.first = true → s.starts = []
  stopped : s.tick = true ∨ 0 < s.unsent → s.timer = none
  timer : ∀ mode ∈ s.waiting, s.first = false →
    ∀ time ∈ s.timer, s.scheduled + intervalIn interval mode ≤ time
  tick : ∀ mode ∈ s.waiting, s.first = false → s.tick = true ∨ 0 < s.unsent →
    s.scheduled + intervalIn interval mode ≤ s.now

end

variable {interval : Int} {lazy : Bool} {s t : State} {mode : Mode}

theorem le_deadline (h : s.first = false) :
    s.scheduled + intervalIn interval s.current ≤ deadline interval s := by
  simp only [deadline, h, Bool.false_eq_true, false_or]
  split <;> split <;> omega

theorem spaced_of_le {later earlier : Start}
    (h : earlier.time + intervalIn interval later.mode ≤ later.time) :
    Spaced interval later earlier := by
  unfold intervalIn at h
  refine ⟨?_, fun hmode => ?_⟩
  · split at h <;> omega
  · simp only [hmode, true_and] at h
    split at h <;> omega

theorem Inv.recalculate (h : Inv interval s) (hsent : s.unsent = 0) (late : Bool) :
    Inv interval (recalculate interval s late) := by
  have hdrained : ¬ ((s.timer.isSome && s.tick) = true ∨ 0 < s.unsent) := by
    rintro (htick | hunsent)
    · rw [Bool.and_eq_true, Option.isSome_iff_ne_none] at htick
      exact htick.1 (h.stopped (.inl htick.2))
    · omega
  refine { h with stopped := ?_, timer := ?_, tick := ?_ }
  · exact fun htick => absurd htick hdrained
  · rintro _ ⟨⟩ hfirst time htime
    obtain ⟨-, ⟨⟩⟩ := Option.ite_none_left_eq_some.mp htime
    exact le_deadline hfirst
  · exact fun _ _ _ htick => absurd htick hdrained

theorem Inv.receive (h : Inv interval s) (hwaiting : mode ∈ s.waiting)
    (htick : s.tick = true) (between : Nat) :
    Inv interval (receive interval lazy s mode between) := by
  have hspaced : ∀ c ∈ s.starts, Spaced interval ⟨mode, s.now⟩ c := by
    intro c hc
    have hfirst : s.first = false := by
      rw [← Bool.not_eq_true]
      exact fun hfirst => List.ne_nil_of_mem hc (h.first hfirst)
    apply spaced_of_le
    exact (Int.add_le_add_right (h.scheduled c hc).1 _).trans
      (h.tick mode hwaiting hfirst (.inl htick))
  have hstopped : false = true ∨ 0 < s.unsent → s.timer = none :=
    fun hunsent => h.stopped (.inr (hunsent.resolve_left Bool.false_ne_true))
  rw [HealthCheck.receive]
  split
  · exact { h with stopped := hstopped, timer := nofun, tick := nofun }
  · have hle : s.now ≤ s.now + between := Int.le_add_of_nonneg_right (Int.natCast_nonneg between)
    have hpast : ∀ c ∈ s.starts, c.time ≤ s.now ∧ s.now ≤ s.now + between :=
      fun c hc => ⟨(h.scheduled c hc).1.trans (h.scheduled c hc).2, hle⟩
    split
    · refine ⟨List.pairwise_cons.mpr ⟨hspaced, h.spaced⟩, ?_, nofun, hstopped, nofun, nofun⟩
      exact List.forall_mem_cons.mpr ⟨⟨le_rfl, hle⟩, hpast⟩
    · exact ⟨h.spaced, hpast, nofun, hstopped, nofun, nofun⟩

theorem Inv.next {event : Event} (h : Inv interval s) (hprompt : prompt s event) :
    next interval lazy s event = some t → Inv interval t := by
  fun_cases HealthCheck.next interval lazy s event with
  | case1 time =>
    rintro ⟨⟩
    have hle : s.now ≤ s.now + time := Int.le_add_of_nonneg_right (Int.natCast_nonneg time)
    refine { h with scheduled := fun c hc => ?_, tick := fun mode hmode hfirst htick => ?_ }
    · exact ⟨(h.scheduled c hc).1, (h.scheduled c hc).2.trans hle⟩
    · exact (h.tick mode hmode hfirst htick).trans hle
  | case2 | case3 | case4 =>
    rintro ⟨⟩
    exact { h with }
  | case5 time htimer hexpired =>
    rintro ⟨⟩
    refine { h with stopped := fun _ => rfl, timer := nofun, tick := ?_ }
    exact fun mode hmode hfirst _ => (h.timer mode hmode hfirst time htimer).trans hexpired
  | case8 hunsent =>
    rintro ⟨⟩
    have hstopped := h.stopped (.inr hunsent)
    refine { h with stopped := fun _ => hstopped, tick := ?_ }
    exact fun mode hmode hfirst _ => h.tick mode hmode hfirst (.inr hunsent)
  | case10 late =>
    rintro ⟨⟩
    exact h.recalculate hprompt late
  | case12 =>
    rintro ⟨⟩
    exact { h with timer := nofun, tick := nofun }
  | case14 between mode hmode hready =>
    rintro ⟨⟩
    exact h.receive hmode hready.2 between
  | _ => rintro ⟨⟩

/-- A check is not started in the idle mode. -/
theorem awake_next {event : Event} (h : ∀ c ∈ s.starts, c.mode ≠ .idle) :
    next interval lazy s event = some t → ∀ c ∈ t.starts, c.mode ≠ .idle := by
  fun_cases HealthCheck.next interval lazy s event with
  | case14 between mode hmode hready =>
    rintro ⟨⟩
    rw [receive]
    split
    · exact h
    · split
      · exact List.forall_mem_cons.mpr ⟨hready.1, h⟩
      · exact h
  | _ => rintro ⟨⟩ <;> exact h

/-- No check is started when the mode that was read last is idle. If every tick is sent before the
loop stops the timer, all checks that are started keep their distance. -/
theorem checks_spaced {now lastTouch lastCheck : Int} {current : Mode} {events : List Event}
    (h : run (next interval lazy) (start now lastTouch lastCheck current) events = some s) :
    (∀ c ∈ s.starts, c.mode ≠ .idle) ∧
      (Guarded (next interval lazy) prompt (start now lastTouch lastCheck current) events →
        s.starts.Pairwise (Spaced interval)) := by
  refine ⟨run_invariant (P := fun s => ∀ c ∈ s.starts, c.mode ≠ .idle)
    (fun _ _ _ => awake_next) (List.forall_mem_nil _) h, fun hprompt => ?_⟩
  have hinv : Inv interval s := by
    refine guarded_invariant (fun _ _ _ => Inv.next) ?_ hprompt h
    exact ⟨.nil, nofun, fun _ => rfl, nofun, nofun, nofun⟩
  exact hinv.spaced

/-- A second check as soon as it may be. -/
def twoChecks : List Event :=
  [.expire, .send, .recalculate false, .expire, .send, .receive 1, .recalculate true, .wake,
    .recalculate false, .pass 4, .expire, .send, .receive 0]

theorem checks_spaced_two : ∃ s, run (next 5 false) (start 0 0 0 .active) twoChecks = some s ∧
      s.starts = [⟨.active, 5⟩, ⟨.active, 0⟩] ∧ s.starts.Pairwise (Spaced 5) :=
  exists_of_map (f := State.starts) rfl fun _ h hstarts => ⟨hstarts, (checks_spaced h).2 (by
    simp [Guarded, twoChecks, prompt, next, start, recalculate, receive, deadline, intervalIn])⟩

/-- The timer of a check every five minutes has expired when the mode becomes the background one,
and its tick is sent after the timer was set again. The check comes 25 minutes too early. -/
theorem late_tick_checked : ∃ s, run (next 300000000000 false) (start 0 0 0 .active)
      [.recalculate false, .expire, .send, .receive 0, .recalculate false, .pass 300000000000,
        .expire, .set .background, .wake, .recalculate false, .send, .receive 0] = some s ∧
      s.starts = [⟨.background, 300000000000⟩, ⟨.active, 0⟩] ∧
      ¬ s.starts.Pairwise (Spaced 300000000000) := by
  refine exists_of_map (f := State.starts) rfl fun s _ hstarts => ⟨hstarts, fun hspaced => ?_⟩
  rw [hstarts] at hspaced
  have hdistance := (List.rel_of_pairwise_cons hspaced List.mem_cons_self).2 rfl
  exact absurd hdistance (by decide)

end HealthCheck
