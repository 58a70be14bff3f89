import CheezyCore.Foundation.Table
import CheezyCore.Foundation.Transition
import Mathlib.Data.List.Sort

/-!
# The winner of a region

`compare` lets a proxy replace the winner of a region when it has beaten it twice, with a new
sample in between. The votes are not reset when a winner without fresh replies is replaced
at once, so that a vote against the old winner counts against the new one. `Settled` excludes
this.
-/

namespace AntiLag

open Transition

structure ProbeSample where
  time : Int
  duration : Int64
  ok : Bool

structure ProbeGrade where
  count : Nat
  total : Nat
  p95 : Int64

/-- The comparisons of the losses `(total - count) / total` in floating point. -/
structure LossTests where
  /-- `y.loss+0.05 < x.loss` -/
  below : ProbeGrade → ProbeGrade → Bool
  /-- `y.loss <= x.loss+0.05` -/
  within : ProbeGrade → ProbeGrade → Bool

/-- The challenger's grade `y` is better by the margin. -/
def LossTests.beats (loss : LossTests) (x y : ProbeGrade) : Bool :=
  let margin := x.p95 * 15 / 100
  let margin := if margin < 10000000 then 10000000 else margin
  loss.below y x || loss.within y x && decide (y.p95 + margin ≤ x.p95)

structure AntiRegion where
  samples : String → List ProbeSample := fun _ => []
  winner : String := ""
  challenger : String := ""
  votes : Nat := 0
  revision : UInt64 := 0
  lastVote : UInt64 := 0

namespace AntiRegion

/-- The grade of the samples of the last five minutes. -/
def grade (r : AntiRegion) (now : Int) (name : String) : ProbeGrade :=
  let window := (r.samples name).filter fun s => now - s.time ≤ 300000000000
  let values := ((window.filter (·.ok)).map (·.duration)).insertionSort (· ≤ ·)
  { count := values.length
    total := window.length
    p95 := values.getD ((95 * values.length + 99) / 100 - 1) 0 }

def record (r : AntiRegion) (name : String) (s : ProbeSample) : AntiRegion :=
  let v := r.samples name ++ [s]
  { r with
    revision := r.revision + 1
    samples := Function.update r.samples name (v.drop (v.length - 64)) }

/-- The end of `compare`: `b` has the grade `y`, the winner has the grade `x`. -/
def vote (loss : LossTests) (r : AntiRegion) (b : String) (x y : ProbeGrade) : AntiRegion :=
  if loss.beats x y = false then
    if r.challenger ≠ b then r else { r with challenger := "", votes := 0 }
  else if r.challenger = b ∧ r.revision = r.lastVote then r
  else
    let votes := (if r.challenger = b then r.votes else 0) + 1
    if 2 ≤ votes then
      { r with lastVote := r.revision, winner := b, votes := 0, challenger := "" }
    else { r with challenger := b, lastVote := r.revision, votes }

def compare (loss : LossTests) (r : AntiRegion) (now : Int) (a b : String) : AntiRegion :=
  let x := r.grade now a
  let y := r.grade now b
  if x.count < 20 ∨ y.count < 20 then r
  else
    let r := if r.winner = "" ∨ (r.grade now r.winner).count < 20 then { r with winner := a } else r
    let (a, b, x, y) := if r.winner = b then (b, a, y, x) else (a, b, x, y)
    let x := if r.winner ≠ a then r.grade now r.winner else x
    r.vote loss b x y

inductive Action where
  | record (name : String) (s : ProbeSample)
  | compare (now : Int) (a b : String)

def next (loss : LossTests) (r : AntiRegion) : Action → Option AntiRegion
  | .record name s => some (r.record name s)
  | .compare now a b => some (r.compare loss now a b)

/-- The winner that a call of `compare` judges. -/
def incumbent (r : AntiRegion) (now : Int) (a : String) : String :=
  if r.winner = "" ∨ (r.grade now r.winner).count < 20 then a else r.winner

/-- In the call `c` beats the incumbent `w`, with enough fresh replies on each side. -/
def Beats (loss : LossTests) (r : AntiRegion) (w c : String) : Action → Prop
  | .record .. => False
  | .compare now a b => r.incumbent now a = w ∧ (c = a ∨ c = b) ∧
      20 ≤ (r.grade now w).count ∧ 20 ≤ (r.grade now c).count ∧
      loss.beats (r.grade now w) (r.grade now c) = true

/-- No vote is left when a winner without fresh replies is replaced. -/
def Settled (r : AntiRegion) : Action → Prop
  | .record .. => True
  | .compare now a b => 20 ≤ (r.grade now a).count → 20 ≤ (r.grade now b).count →
      (r.winner = "" ∨ (r.grade now r.winner).count < 20) → r.votes = 0

instance (loss : LossTests) (r : AntiRegion) (w c : String) :
    (act : Action) → Decidable (r.Beats loss w c act)
  | .record .. => isFalse id
  | .compare .. => inferInstanceAs (Decidable (_ ∧ _))

instance (r : AntiRegion) : (act : Action) → Decidable (r.Settled act)
  | .record .. => isTrue trivial
  | .compare .. => inferInstanceAs (Decidable (_ → _))

variable {loss : LossTests} {r r' r₀ : AntiRegion} {now : Int} {a b : String}
variable {past : List Action} {act : Action}

/-- A call that goes on judges one of its two proxies against the incumbent. -/
theorem compare_cases (loss : LossTests) (r : AntiRegion) (now : Int) (a b : String) :
    r.compare loss now a b = r ∨ ∃ c, (c = a ∨ c = b) ∧
      (20 ≤ (r.grade now a).count ∧ 20 ≤ (r.grade now b).count) ∧
      20 ≤ (r.grade now (r.incumbent now a)).count ∧ 20 ≤ (r.grade now c).count ∧
      r.compare loss now a b = { r with winner := r.incumbent now a }.vote loss c
        (r.grade now (r.incumbent now a)) (r.grade now c) := by
  unfold compare
  dsimp only
  split
  · exact .inl rfl
  · next hcounts =>
    rw [not_or, Nat.not_lt, Nat.not_lt] at hcounts
    have hwinner : (if r.winner = "" ∨ (r.grade now r.winner).count < 20 then
        { r with winner := a } else r) = { r with winner := r.incumbent now a } := by
      unfold incumbent
      split <;> rfl
    rw [hwinner]
    have hcount : 20 ≤ (r.grade now (r.incumbent now a)).count := by
      unfold incumbent
      split
      · exact hcounts.1
      · omega
    by_cases hb : r.incumbent now a = b
    · refine .inr ⟨a, .inl rfl, hcounts, hcount, hcounts.1, ?_⟩
      simp [hb]
    · refine .inr ⟨b, .inr rfl, hcounts, hcount, hcounts.2, ?_⟩
      simp only [if_neg hb]
      split
      · rfl
      · next ha => rw [not_not.mp ha]

/-- Only the second vote replaces the winner. -/
theorem vote_winner {x y : ProbeGrade} {c : String} (h : (r.vote loss b x y).winner = c)
    (hne : c ≠ r.winner) :
    b = c ∧ loss.beats x y = true ∧ r.challenger = b ∧ r.revision ≠ r.lastVote ∧ 1 ≤ r.votes := by
  unfold vote at h
  split at h
  · split at h <;> exact absurd h.symm hne
  next hbeats =>
    split at h
    · exact absurd h.symm hne
    next hnew =>
      by_cases hchallenger : r.challenger = b
      · simp only [if_pos hchallenger] at h
        split at h
        next htwo =>
          exact ⟨h, Bool.of_not_eq_false hbeats, hchallenger,
            fun heq => hnew ⟨hchallenger, heq⟩, Nat.le_of_succ_le_succ htwo⟩
        · exact absurd h.symm hne
      · rw [if_neg hchallenger] at h
        exact absurd h.symm hne

/-- The call that follows the actions is one in which `c` beats `w`. -/
def BeatenAt (loss : LossTests) (r₀ : AntiRegion) (early : List Action) (call : Action)
    (w c : String) : Prop :=
  ∃ r, run (next loss) r₀ early = some r ∧ r.Beats loss w c call

/-- A vote is left of a call in which the challenger beat the winner. -/
structure Inv (loss : LossTests) (r₀ : AntiRegion) (past : List Action) (r : AntiRegion) :
    Prop where
  votes : r.votes ≤ 1
  voted : r.votes = 1 → ∃ early call between, past = early ++ call :: between ∧
    BeatenAt loss r₀ early call r.winner r.challenger ∧
    (r.revision ≠ r.lastVote → ∃ name s, Action.record name s ∈ between)

namespace Inv

theorem of_unvoted (hvotes : r.votes = 0) : Inv loss r₀ past r where
  votes := by omega
  voted := by omega

/-- A step that leaves the vote. -/
theorem keep (h : Inv loss r₀ past r) (hvotes : r'.votes = r.votes)
    (hwinner : r.votes = 1 → r'.winner = r.winner) (hchallenger : r'.challenger = r.challenger)
    (hrecord : r'.revision ≠ r'.lastVote → r.revision ≠ r.lastVote ∨
      ∃ name s, Action.record name s = act) : Inv loss r₀ (past ++ [act]) r' where
  votes := hvotes ▸ h.votes
  voted hone := by
    rw [hvotes] at hone
    obtain ⟨early, call, between, rfl, hbeaten, hbetween⟩ := h.voted hone
    rw [hwinner hone, hchallenger]
    refine ⟨early, call, between ++ [act], by simp, hbeaten, fun hne => ?_⟩
    rcases hrecord hne with hold | ⟨name, s, rfl⟩
    · obtain ⟨name, s, hmem⟩ := hbetween hold
      exact ⟨name, s, List.mem_append_left _ hmem⟩
    · exact ⟨name, s, List.mem_concat_self⟩

theorem compare (h : Inv loss r₀ past r) (hrun : run (next loss) r₀ past = some r)
    (ok : r.Settled (.compare now a b)) :
    Inv loss r₀ (past ++ [.compare now a b]) (r.compare loss now a b) := by
  rcases r.compare_cases loss now a b with hsame | ⟨c, hc, hcount, hw, hcall, hjudged⟩
  · rw [hsame]
    exact h.keep rfl (fun _ => rfl) rfl .inl
  · have hwinner : r.votes = 1 → r.incumbent now a = r.winner := by
      intro hone
      refine if_neg fun hstale => ?_
      rw [ok hcount.1 hcount.2 hstale] at hone
      cases hone
    rw [hjudged, vote]
    split
    · split
      · exact h.keep rfl hwinner rfl .inl
      · exact .of_unvoted rfl
    · next hbeats =>
      split
      · exact h.keep rfl hwinner rfl .inl
      · generalize (if r.challenger = c then r.votes else 0) + 1 = votes
        dsimp only
        split
        · exact .of_unvoted rfl
        · next hfew =>
          refine ⟨Nat.le_of_not_lt hfew, fun _ => ⟨past, _, [], rfl, ⟨r, hrun, ?_⟩, ?_⟩⟩
          · exact ⟨rfl, hc, hw, hcall, Bool.of_not_eq_false hbeats⟩
          · exact absurd rfl

theorem of_run (unvoted : r₀.votes = 0)
    (settled : Guarded (next loss) Settled r₀ past) (hrun : run (next loss) r₀ past = some r) :
    Inv loss r₀ past r := by
  refine run_history (P := fun past r => Guarded (next loss) Settled r₀ past → Inv loss r₀ past r)
    (fun _ => of_unvoted unvoted) ?_ hrun settled
  intro past r act r' hrun ih hstep hsettled
  obtain ⟨hpast, hlast⟩ := guarded_append.mp hsettled
  have h := ih hpast
  cases act with
  | record name s =>
    cases hstep
    exact h.keep rfl (fun _ => rfl) rfl fun _ => .inr ⟨name, s, rfl⟩
  | compare now a b =>
    cases hstep
    exact h.compare hrun (hlast r hrun).1

end Inv

/-- In every settled run a winner that has fresh replies is replaced by a proxy that beats it in
this call and beat it in an earlier one, with a sample recorded in between. -/
theorem replaced_beaten_twice (unvoted : r₀.votes = 0)
    (settled : Guarded (next loss) Settled r₀ past) (hrun : run (next loss) r₀ past = some r)
    (incumbent : r.winner ≠ "") (fresh : 20 ≤ (r.grade now r.winner).count) {c : String}
    (hc : (r.compare loss now a b).winner = c) (replaced : c ≠ r.winner) :
    r.Beats loss r.winner c (.compare now a b) ∧
      ∃ early call between, past = early ++ call :: between ∧
        BeatenAt loss r₀ early call r.winner c ∧ ∃ name s, Action.record name s ∈ between := by
  have h := Inv.of_run unvoted settled hrun
  have hwinner : r.incumbent now a = r.winner := by
    refine if_neg fun hstale => ?_
    rcases hstale with hnone | hfew
    · exact incumbent hnone
    · omega
  rcases r.compare_cases loss now a b with hsame | ⟨d, hd, -, hw, hcall, hjudged⟩
  · rw [hsame] at hc
    exact absurd hc.symm replaced
  · rw [hwinner] at hw hjudged
    rw [hjudged] at hc
    obtain ⟨rfl, hbeats, hchallenger, hnew, hvotes⟩ := vote_winner hc replaced
    refine ⟨⟨hwinner, hd, hw, hcall, hbeats⟩, ?_⟩
    obtain ⟨early, call, between, hpast, hbeaten, hbetween⟩ :=
      h.voted (Nat.le_antisymm h.votes hvotes)
    rw [show r.challenger = d from hchallenger] at hbeaten
    exact ⟨early, call, between, hpast, hbeaten, hbetween hnew⟩

/-- Comparison of the losses without rounding. -/
def exactLoss : LossTests where
  below y x := 100 * (y.total - y.count) * x.total + 5 * y.total * x.total <
    100 * (x.total - x.count) * y.total
  within y x := 100 * (y.total - y.count) * x.total ≤
    100 * (x.total - x.count) * y.total + 5 * y.total * x.total

/-- Twenty replies of a proxy. -/
def probes (name : String) (time : Int) (duration : Int64) : List Action :=
  List.replicate 20 (.record name ⟨time, duration, true⟩)

/-- `b` beats `a`, and a sample is recorded. -/
def votingRun : List Action :=
  probes "a" 0 100000000 ++ probes "b" 0 40000000 ++
    [.compare 1 "a" "b", .record "a" ⟨2, 100000000, true⟩]

theorem replaced_beaten_twice_a :
    ∃ early call between, votingRun = early ++ call :: between ∧
      BeatenAt exactLoss {} early call "a" "b" ∧
      ∃ name s, Action.record name s ∈ between := by
  obtain ⟨r, hrun, hr⟩ := Option.map_eq_some_iff.mp
    (show (run (next exactLoss) {} votingRun).map (fun r => (r.winner,
        (r.grade 3 r.winner).count, (r.compare exactLoss 3 "a" "b").winner)) =
      some ("a", 21, "b") by decide +kernel)
  simp only [Prod.mk.injEq] at hr
  obtain ⟨hwinner, hcount, hb⟩ := hr
  have h := (replaced_beaten_twice rfl (by decide +kernel) hrun (by rw [hwinner]; decide)
    (by rw [hcount]; decide) hb (by rw [hwinner]; decide)).2
  rwa [hwinner] at h

/-- The second call finds the winner of the first one without fresh replies. -/
def leakingRun : List Action :=
  probes "w" 0 100000000 ++ probes "a" 100000000000 100000000 ++
    probes "b" 100000000000 40000000 ++ probes "c" 100000000000 100000000 ++
    [.compare 200000000000 "w" "b", .compare 350000000000 "a" "c",
      .record "a" ⟨350000000000, 100000000, true⟩]

/-- `b`, which has beaten `w` once and `a` never, replaces `a` at the first call in which it
beats it. -/
theorem vote_leaks :
    Guarded (next exactLoss) (fun r act => ¬ r.Beats exactLoss "a" "b" act) {} leakingRun ∧
      (run (next exactLoss) {} leakingRun).map (fun r => (r.winner,
        (r.grade 360000000000 "a").count, (r.compare exactLoss 360000000000 "a" "b").winner)) =
      some ("a", 21, "b") := by
  refine ⟨?_, ?_⟩ <;> decide +kernel

end AntiRegion

end AntiLag
