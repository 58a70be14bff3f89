import Mathlib.Algebra.Order.Ring.Int
import Mathlib.Data.List.Basic

/-!
# Computations that see the state through tests

A test answers yes or no and may change the state it looks at. A computation that looks
at the state through tests only makes a series of them, and from another state that
answers the same series in the same way it makes the same series and gives the same
value. Where repeating a series of tests always repeats its answers, such a computation
can be run twice with the same value.
-/

namespace Probing

variable {ρ σ β γ : Type}

/-- The state after a series of tests. -/
def after (test : ρ → σ → Bool × σ) (series : List ρ) (s : σ) : σ :=
  series.foldl (fun s r => (test r s).2) s

/-- The answers of a series of tests. -/
def answers (test : ρ → σ → Bool × σ) : List ρ → σ → List Bool
  | [], _ => []
  | r :: series, s => (test r s).1 :: answers test series (test r s).2

/-- Whatever was tested before, a series of tests made a second time gives the answers it
gave the first time. -/
def Repeatable (test : ρ → σ → Bool × σ) (s : σ) : Prop :=
  ∀ before series : List ρ,
    answers test series (after test series (after test before s))
      = answers test series (after test before s)

/-- The computation depends on the state through a series of tests only. -/
def Observes (test : ρ → σ → Bool × σ) (run : σ → Option (β × σ)) : Prop :=
  ∀ s v s', run s = some (v, s') → ∃ series, s' = after test series s ∧
    ∀ t, answers test series t = answers test series s → run t = some (v, after test series t)

variable {test : ρ → σ → Bool × σ} {s : σ}

@[simp] theorem after_nil (s : σ) : after test [] s = s := rfl

@[simp] theorem after_cons (r : ρ) (series : List ρ) (s : σ) :
    after test (r :: series) s = after test series (test r s).2 := rfl

@[simp] theorem after_append (first second : List ρ) (s : σ) :
    after test (first ++ second) s = after test second (after test first s) :=
  List.foldl_append ..

theorem answers_append (first second : List ρ) (s : σ) :
    answers test (first ++ second) s
      = answers test first s ++ answers test second (after test first s) := by
  induction first generalizing s with
  | nil => rfl
  | cons r first ih =>
    simp [answers, ih]

@[simp] theorem length_answers (series : List ρ) (s : σ) :
    (answers test series s).length = series.length := by
  induction series generalizing s with
  | nil => rfl
  | cons r series ih => simp [answers, ih]

theorem observes_pure (v : β) : Observes test fun s => some (v, s) := by
  rintro s v' s' ⟨⟩
  exact ⟨[], rfl, fun t _ => rfl⟩

theorem observes_test (r : ρ) : Observes test fun s => some (test r s) := by
  intro s v s' h
  have hr : test r s = (v, s') := Option.some.inj h
  refine ⟨[r], by rw [after_cons, hr, after_nil], ?_⟩
  intro t same
  have hanswer : (test r t).1 = (test r s).1 := List.head_eq_of_cons_eq same
  rw [hr] at hanswer
  exact congrArg some (Prod.ext hanswer rfl)

/-- One computation after another, the second chosen by the value of the first. -/
theorem Observes.bind {f : σ → Option (β × σ)} {g : β → σ → Option (γ × σ)}
    (first : Observes test f) (second : ∀ v, Observes test (g v)) :
    Observes test fun s => (f s).bind fun out => g out.1 out.2 := by
  intro s w s'' h
  obtain ⟨⟨v, s'⟩, hfirst, hsecond⟩ := Option.bind_eq_some_iff.mp h
  obtain ⟨series, rfl, same⟩ := first s v s' hfirst
  obtain ⟨series', rfl, same'⟩ := second v _ w s'' hsecond
  refine ⟨series ++ series', (after_append ..).symm, ?_⟩
  intro t hsame
  rw [answers_append, answers_append] at hsame
  obtain ⟨hfirst, hsecond⟩ := List.append_inj hsame (by simp)
  have ht : f t = some (v, after test series t) := same t hfirst
  change (f t).bind (fun out => g out.1 out.2) = _
  rw [ht, after_append]
  exact same' _ hsecond

theorem Observes.congr {run run' : σ → Option (β × σ)} (h : Observes test run)
    (same : ∀ s, run' s = run s) : Observes test run' := by
  rw [funext same]
  exact h

/-- If the answers depend on what no test changes of a state, tests can be repeated. -/
theorem repeatable_of_view {κ : Type} (inv : σ → Prop) (view : σ → κ) (answer : ρ → κ → Bool)
    (keeps : ∀ r u, inv u → inv (test r u).2 ∧ view (test r u).2 = view u)
    (sees : ∀ r u, inv u → (test r u).1 = answer r (view u)) (h : inv s) : Repeatable test s := by
  have hseries : ∀ series u, inv u →
      (inv (after test series u) ∧ view (after test series u) = view u) ∧
        answers test series u = series.map (answer · (view u)) := by
    intro series
    induction series with
    | nil => exact fun u hu => ⟨⟨hu, rfl⟩, rfl⟩
    | cons r series ih =>
      intro u hu
      obtain ⟨hinv, hview⟩ := keeps r u hu
      obtain ⟨hafter, hanswers⟩ := ih _ hinv
      rw [hview] at hafter hanswers
      exact ⟨hafter, congrArg₂ List.cons (sees r u hu) hanswers⟩
  intro before series
  obtain ⟨⟨hbefore, -⟩, -⟩ := hseries before s h
  obtain ⟨⟨hafter, hview⟩, hanswers⟩ := hseries series _ hbefore
  rw [hanswers, (hseries series _ hafter).2, hview]

end Probing
