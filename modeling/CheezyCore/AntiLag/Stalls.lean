import Mathlib.Algebra.Order.Ring.Int

/-!
# The stall meter of a path

`observe` is called for every datagram sent and received on a path. It learns the typical
distance of the packets received, and accounts for the time in which packets were sent and
none came back. Times are nanoseconds from the zero value of `time.Time`, and no sum or difference
of durations leaves the 64 bits of `time.Duration`.
-/

namespace AntiLag

structure StallDelta where
  active : Int := 0
  excess : Int := 0
  events : Nat := 0
  deriving DecidableEq, Repr

structure StallMeter where
  event : Int := 0
  rx : Int := 0
  tx : Int := 0
  typical : Int := 0
  intervals : Nat := 0
  inEpisode : Bool := false
  pending : StallDelta := {}
  deriving DecidableEq, Repr

namespace StallMeter

def millisecond : Int := 1000000

def threshold (s : StallMeter) : Int := max (4 * s.typical) (150 * millisecond)

/-- What a gap that is open adds up to the time. -/
def account (s : StallMeter) (now : Int) : StallMeter :=
  let active := s.pending.active + (now - s.event)
  if now - s.rx > s.threshold ∧ s.tx > s.rx then
    { s with
      inEpisode := true
      pending := {
        active
        excess := s.pending.excess + (now - max (s.rx + s.threshold) s.event)
        events := if s.inEpisode then s.pending.events else s.pending.events + 1 } }
  else { s with pending := { s.pending with active } }

/-- The time since the last send is no pause. -/
def continuous (s : StallMeter) (now : Int) : Bool :=
  s.tx ≠ 0 && now - s.tx ≤ if s.intervals < 8 then 1000 * millisecond else s.threshold

/-- The meter after a pause. -/
def interrupt (s : StallMeter) : StallMeter :=
  { s with rx := 0, typical := 0, intervals := 0, inEpisode := false }

/-- The first half of `observe`. -/
def measure (s : StallMeter) (now : Int) : StallMeter :=
  if !s.continuous now then s.interrupt
  else if 8 ≤ s.intervals ∧ s.rx ≠ 0 then s.account now
  else s

/-- A packet is received after the gap. -/
def learn (s : StallMeter) (now gap : Int) : StallMeter :=
  let s := if s.intervals < 8 ∧ gap > 250 * millisecond then
    { s with intervals := 0, typical := 0 } else s
  let s := if s.rx ≠ 0 ∧ gap > 0 ∧ gap ≤ 250 * millisecond ∧ !s.inEpisode then
    { s with
      typical := if s.intervals = 0 then gap else s.typical + (gap - s.typical).tdiv 8
      intervals := if s.intervals < 8 then s.intervals + 1 else s.intervals } else s
  { s with rx := now, inEpisode := false }

def observe (s : StallMeter) (now : Int) (receive : Bool) : StallMeter :=
  let now := if now < s.event then s.event else now
  let t := s.measure now
  { (if receive then t.learn now (now - s.rx) else { t with tx := now }) with event := now }

def run (calls : List (Int × Bool)) (s : StallMeter) : StallMeter :=
  calls.foldl (fun s call => s.observe call.1 call.2) s

theorem measure_cases (s : StallMeter) (now : Int) :
    s.measure now = s.interrupt ∨ s.measure now = s ∨
      s.tx ≠ 0 ∧ s.rx ≠ 0 ∧ s.measure now = s.account now := by
  unfold measure
  split_ifs with hpause hwarm
  · exact .inl rfl
  · refine .inr (.inr ⟨?_, hwarm.2, rfl⟩)
    simp only [continuous, Bool.not_eq_true', Bool.not_eq_false, Bool.and_eq_true] at hpause
    exact of_decide_eq_true hpause.1
  · exact .inr (.inl rfl)

variable {s t : StallMeter} {now : Int} {receive : Bool}

/-- A call measures up to its time, or up to the last event if that is later. -/
theorem observe_eq (s : StallMeter) (now : Int) (receive : Bool) :
    s.observe now receive = { (if receive then
        (s.measure (max s.event now)).learn (max s.event now) (max s.event now - s.rx)
      else { s.measure (max s.event now) with tx := max s.event now }) with
      event := max s.event now } := by
  have hnow : (if now < s.event then s.event else now) = max s.event now := by
    split_ifs <;> omega
  rw [observe, hnow]

theorem observe_event : (s.observe now receive).event = max s.event now := by
  rw [observe_eq]

theorem observe_pending :
    (s.observe now receive).pending = (s.measure (max s.event now)).pending := by
  rw [observe_eq]
  cases receive with
  | false => rfl
  | true =>
    dsimp only [learn]
    split_ifs <;> rfl

/-! ## The account of all calls -/

/-- The account of a meter whose first event was at the time. -/
structure Accounted (first : Int) (s : StallMeter) : Prop where
  excess_nonneg : 0 ≤ s.pending.excess
  excess_le : s.pending.excess ≤ s.pending.active
  active_le : s.pending.active ≤ s.event - first

theorem Accounted.observe {first : Int} (h : Accounted first s) :
    Accounted first (s.observe now receive) := by
  obtain ⟨hnonneg, hexcess, hactive⟩ := h
  suffices hm : 0 ≤ (s.measure (max s.event now)).pending.excess ∧
      (s.measure (max s.event now)).pending.excess ≤ (s.measure (max s.event now)).pending.active ∧
      (s.measure (max s.event now)).pending.active ≤ max s.event now - first by
    rw [← @observe_pending s now receive, ← @observe_event s now receive] at hm
    exact ⟨hm.1, hm.2.1, hm.2.2⟩
  rcases s.measure_cases (max s.event now) with hm | hm | ⟨-, -, hm⟩
  · rw [hm]
    dsimp only [interrupt]
    omega
  · rw [hm]
    omega
  · rw [hm, account]
    split <;> dsimp only <;> omega

theorem Accounted.run {first : Int} {calls : List (Int × Bool)} (h : Accounted first s) :
    Accounted first (run calls s) := by
  induction calls generalizing s with
  | nil => exact h
  | cons call calls ih => exact ih h.observe

/-- The first call finds no send before it and adds nothing. -/
theorem accounted_first (now : Int) (receive : Bool) :
    Accounted (max 0 now) (({} : StallMeter).observe now receive) := by
  have hpending : (({} : StallMeter).observe now receive).pending = {} := observe_pending
  refine ⟨?_, ?_, ?_⟩ <;> rw [hpending]
  rw [observe_event]
  exact (Int.sub_self _).ge

/-! ## The account of a gap -/

/-- What is added up to the time in a gap since the meter was `s`. After an event the meter is in
an episode until the gap ends, and the threshold of the gap stays. -/
structure Gap (s : StallMeter) (now : Int) (t : StallMeter) : Prop where
  same : t.rx = 0 ∨ t.rx = s.rx ∧ t.typical = s.typical
  excess_ge : s.pending.excess ≤ t.pending.excess
  excess_le : t.pending.excess - s.pending.excess ≤ max 0 (now - s.rx - s.threshold)
  events : t.pending.events = s.pending.events ∨
    t.pending.events = s.pending.events + 1 ∧ (t.rx = 0 ∨ t.inEpisode = true)

theorem Gap.measure (h : Gap s t.event t) (hnow : t.event ≤ now) : Gap s now (t.measure now) := by
  obtain ⟨hsame, hge, hle, hevents⟩ := h
  rcases t.measure_cases now with hm | hm | ⟨-, hrx, hm⟩
  · rw [hm]
    refine ⟨.inl rfl, hge, ?_, hevents.imp_right fun h => ⟨h.1, .inl rfl⟩⟩
    dsimp only [interrupt]
    omega
  · rw [hm]
    exact ⟨hsame, hge, by omega, hevents⟩
  · have hsame := hsame.resolve_left hrx
    have hthreshold : t.threshold = s.threshold := by rw [threshold, threshold, hsame.2]
    rw [hm, account]
    split
    · refine ⟨.inr hsame, ?_, ?_, ?_⟩ <;> dsimp only
      · omega
      · omega
      · cases hepisode : t.inEpisode with
        | true => exact hevents.imp_right fun h => ⟨h.1, .inr rfl⟩
        | false =>
          refine hevents.elim (fun h => .inr ⟨congrArg (· + 1) h, .inr rfl⟩) fun h => ?_
          exact absurd h.2 (by simp [hrx, hepisode])
    · exact ⟨.inr hsame, hge, by dsimp only; omega, hevents⟩

/-- The sends of a gap. -/
def sends (times : List Int) (s : StallMeter) : StallMeter := run (times.map (·, false)) s

theorem Gap.sends {times : List Int} (h : Gap s t.event t) :
    Gap s (t.sends times).event (t.sends times) := by
  induction times generalizing t with
  | nil => exact h
  | cons now times ih =>
    have hm := h.measure (Int.le_max_left t.event now)
    refine ih (t := t.observe now false) ?_
    rw [observe_eq]
    exact { hm with }

/-- From the first call on, the excess is at most the active time and that at most the time since
the first event. In a gap, with the sends and the call that ends it, at most one event is added,
and no more excess than the gap is longer than the threshold. -/
theorem stalls_accounted (calls : List (Int × Bool)) :
    (∀ now receive rest, calls = (now, receive) :: rest →
      Accounted (max 0 now) (run calls {})) ∧
    ∀ (times : List Int) (now : Int) (receive : Bool),
      let s := run calls {}
      let t := (s.sends times).observe now receive
      t.pending.events ≤ s.pending.events + 1 ∧ s.pending.excess ≤ t.pending.excess ∧
        t.pending.excess - s.pending.excess ≤ max 0 (t.event - s.rx - s.threshold) := by
  refine ⟨?_, fun times now receive => ?_⟩
  · rintro now receive rest rfl
    exact (accounted_first now receive).run
  · intro s t
    have hstart : Gap s s.event s := ⟨.inr ⟨rfl, rfl⟩, Int.le_refl _, by omega, .inl rfl⟩
    have hgap := hstart.sends.measure (Int.le_max_left (s.sends times).event now)
    rw [observe_pending, observe_event]
    exact ⟨by have := hgap.events; omega, hgap.excess_ge, hgap.excess_le⟩

/-- Ten packets are answered, and two more are not. -/
def unanswered : List (Int × Bool) :=
  (10 * millisecond, false) :: ((List.range 10).flatMap fun i : Nat =>
    [((100 * i + 20) * millisecond, true), ((100 * i + 110) * millisecond, false)]) ++
    [(1300 * millisecond, false), (1500 * millisecond, false)]

theorem accounted_unanswered : Accounted (10 * millisecond) (run unanswered {}) ∧
    (run unanswered {}).pending.events = 1 ∧
    (run unanswered {}).pending.excess = 180 * millisecond :=
  ⟨(stalls_accounted unanswered).1 _ false _ rfl, by decide +kernel, by decide +kernel⟩

end StallMeter

end AntiLag
