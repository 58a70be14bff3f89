import Mathlib.Algebra.Order.Ring.Int
import Mathlib.Data.List.Induction

/-!
# Transition systems with a partial step function

A system is a function `next : σ → α → Option σ`: an action either is not
enabled in a state, or leads to exactly one state. Every source of choice (the
scheduler, a peer, a clock) is part of the action, so one list of actions
determines one execution and a concrete execution can be evaluated.

`run` executes a list of actions. `Guarded` says that every step of such an
execution starts in a state that satisfies a condition on that step; invariants
that only hold on well-behaved executions are proved against it.
-/

namespace Transition

variable {σ α : Type*} {next : σ → α → Option σ} {ok : σ → α → Prop} {actions : List α} {s : σ}

/-- Execute the actions in order, failing at the first one that is not enabled. -/
def run (next : σ → α → Option σ) : σ → List α → Option σ
  | s, [] => some s
  | s, a :: rest => (next s a).bind fun t => run next t rest

/-- Every action of the list is taken in a state in which `ok` permits it. -/
def Guarded (next : σ → α → Option σ) (ok : σ → α → Prop) : σ → List α → Prop
  | _, [] => True
  | s, a :: rest => ok s a ∧ ∀ t, next s a = some t → Guarded next ok t rest

instance decidableGuarded [∀ s a, Decidable (ok s a)] :
    ∀ s actions, Decidable (Guarded next ok s actions)
  | _, [] => isTrue trivial
  | s, a :: rest =>
    match h : next s a with
    | none => decidable_of_iff (ok s a) ⟨fun hok => ⟨hok, by simp [h]⟩, And.left⟩
    | some t =>
      haveI := decidableGuarded t rest
      decidable_of_iff (ok s a ∧ Guarded next ok t rest)
        ⟨fun hok => ⟨hok.1, by simpa [h] using hok.2⟩, fun hok => ⟨hok.1, hok.2 t h⟩⟩

/-- A step behind a guard. -/
theorem of_guard {p : Prop} [Decidable p] {t : σ} (h : (if p then some s else none) = some t) :
    p ∧ s = t := by
  split at h
  · next hp => exact ⟨hp, Option.some.inj h⟩
  · cases h

theorem of_guard_bind {p : Prop} [Decidable p] {o : Option σ} {t : σ}
    (h : (if p then o else none) = some t) : p ∧ o = some t := by
  split at h
  · next hp => exact ⟨hp, h⟩
  · cases h

/-- An execution is known by what can be computed of its end. -/
theorem exists_of_map {β : Type*} {f : σ → β} {b : β} {o : Option σ} {P : σ → Prop}
    (h : o.map f = some b) (hP : ∀ t, o = some t → f t = b → P t) : ∃ t, o = some t ∧ P t := by
  obtain ⟨t, ht, hb⟩ := Option.map_eq_some_iff.mp h
  exact ⟨t, ht, hP t ht hb⟩

theorem run_cons (s : σ) (a : α) (rest : List α) :
    run next s (a :: rest) = (next s a).bind fun t => run next t rest := rfl

theorem run_cons_some {t : σ} {a : α} {rest : List α} (h : next s a = some t) :
    run next s (a :: rest) = run next t rest := by
  rw [run_cons, h, Option.bind_some]

theorem run_append (s : σ) (first second : List α) :
    run next s (first ++ second) = (run next s first).bind fun t => run next t second := by
  induction first generalizing s with
  | nil => rfl
  | cons a rest ih =>
    simp [run_cons, ih, Option.bind_assoc]

theorem run_append_some {t : σ} {first : List α} (h : run next s first = some t) (second : List α) :
    run next s (first ++ second) = run next t second := by
  rw [run_append, h, Option.bind_some]

/-- Invariant rule for properties of the state together with the actions that led to it. -/
theorem run_history {P : List α → σ → Prop} {t : σ} (start : P [] s)
    (step : ∀ past s' a t, run next s past = some s' → P past s' → next s' a = some t →
      P (past ++ [a]) t)
    (h : run next s actions = some t) : P actions t := by
  induction actions using List.reverseRecOn generalizing t with
  | nil =>
    cases h
    exact start
  | append_singleton past a ih =>
    rw [run_append] at h
    obtain ⟨middle, hpast, hlast⟩ := Option.bind_eq_some_iff.mp h
    obtain ⟨u, hstep, ⟨⟩⟩ := Option.bind_eq_some_iff.mp hlast
    exact step past middle a t hpast (ih hpast) hstep

theorem guarded_of_forall {allowed : α → Prop} (h : ∀ a ∈ actions, allowed a) :
    Guarded next (fun _ a => allowed a) s actions := by
  induction actions generalizing s with
  | nil => trivial
  | cons a rest ih =>
    exact ⟨h a List.mem_cons_self, fun t _ => ih fun b hb => h b (List.mem_cons_of_mem a hb)⟩

/-- Invariant rule for executions all of whose steps satisfy `ok`. -/
theorem guarded_invariant {P : σ → Prop} (step : ∀ s a t, P s → ok s a → next s a = some t → P t)
    {t : σ} (start : P s) (guarded : Guarded next ok s actions) (h : run next s actions = some t) :
    P t := by
  induction actions generalizing s with
  | nil =>
    cases h
    exact start
  | cons a rest ih =>
    obtain ⟨middle, hstep, hrest⟩ := Option.bind_eq_some_iff.mp h
    exact ih (step s a middle start guarded.1 hstep) (guarded.2 middle hstep) hrest

/-- Invariant rule: what holds initially and is preserved by every enabled step
holds at the end of every execution. -/
theorem run_invariant {P : σ → Prop} (step : ∀ s a t, P s → next s a = some t → P t) {t : σ}
    (start : P s) (h : run next s actions = some t) : P t :=
  guarded_invariant (fun s a t hs _ => step s a t hs) start
    (@guarded_of_forall _ _ _ _ _ (fun _ => True) fun _ _ => trivial) h

theorem guarded_append {first second : List α} : Guarded next ok s (first ++ second) ↔
      Guarded next ok s first ∧ ∀ t, run next s first = some t → Guarded next ok t second := by
  induction first generalizing s with
  | nil =>
    constructor
    · intro h
      refine ⟨trivial, ?_⟩
      rintro t ⟨⟩
      exact h
    · rintro ⟨-, h⟩
      exact h s rfl
  | cons a rest ih =>
    constructor
    · rintro ⟨hok, h⟩
      refine ⟨⟨hok, fun t ht => (ih.mp (h t ht)).1⟩, ?_⟩
      intro u hrun
      obtain ⟨t, ht, hrest⟩ := Option.bind_eq_some_iff.mp hrun
      exact (ih.mp (h t ht)).2 u hrest
    · rintro ⟨⟨hok, h⟩, hsecond⟩
      refine ⟨hok, fun t ht => ih.mpr ⟨h t ht, fun u hrest => hsecond u ?_⟩⟩
      rw [run_cons_some ht, hrest]

/-- An execution all of whose steps satisfy `ok` goes on to its end if `ok` and an invariant of
the state and its history enable the step and keep the invariant. -/
theorem guarded_run {P : List α → σ → Prop}
    (step : ∀ past s a, P past s → ok s a → ∃ t, next s a = some t ∧ P (past ++ [a]) t)
    {past : List α} (start : P past s) (guarded : Guarded next ok s actions) :
    ∃ t, run next s actions = some t ∧ P (past ++ actions) t := by
  induction actions generalizing past s with
  | nil => exact ⟨s, rfl, by rwa [List.append_nil]⟩
  | cons a rest ih =>
    obtain ⟨middle, hstep, hmiddle⟩ := step past s a start guarded.1
    obtain ⟨t, hrun, ht⟩ := ih hmiddle (guarded.2 middle hstep)
    refine ⟨t, by rw [run_cons_some hstep, hrun], ?_⟩
    rwa [List.append_assoc] at ht

end Transition
