import CheezyCore.Rules.SubRules

/-!
# First-match evaluation of sub-rules

What a table of sub-rules means: the rules of a list are tried in order and each of them
once, a `SUB-RULE` whose payload matches hands over to its list, and the first match whose
adapter is not passed over is the result. `matchSubRules` goes through the list of a
matching `SUB-RULE` a second time, so it gives that result exactly where a list that has
matched matches again with the same adapter.
-/

namespace Rules

open Probing Payload

variable {ρ σ : Type}

section Definition

variable (test : ρ → σ → Bool × σ) (helper : RuleMatchHelper σ)

/-- The rules of one list in order, given what the lists it hands over to do. -/
def firstMatchEach (call : Name → σ → Matched σ) : List (Rule ρ) → σ → Matched σ
  | [], s => some ((false, []), s)
  | rule :: rest, s =>
    (rule.match test call s).bind fun out =>
      if out.1.1 && !helper.passes out.1.2 then some out else firstMatchEach call rest out.2

/-- First-match evaluation of the named list. -/
def firstMatch (table : Table ρ) : Nat → Name → σ → Matched σ
  | 0, _, _ => none
  | calls + 1, name, s =>
    firstMatchEach test helper (firstMatch table calls) (table.rules name) s

/-- From some number of open calls on, both come to an end with one result. -/
def SameResult (run once : Nat → Matched σ) : Prop :=
  ∃ enough result, ∀ calls, enough ≤ calls →
    (∃ s₁, run calls = some (result, s₁)) ∧ ∃ s₂, once calls = some (result, s₂)

/-- Every list of the table and every logic rule over it come to an end with the result
of first-match evaluation. -/
structure Agrees (table : Table ρ) (s : σ) : Prop where
  subRules : ∀ name, SameResult (fun calls => matchSubRules test helper table calls name s)
    fun calls => firstMatch test helper table calls name s
  logic : ∀ rule : Logic ρ,
    SameResult (fun calls => rule.match test (matchSubRules test helper table calls) s)
      fun calls => rule.match test (firstMatch test helper table calls) s

/-- The metadata after some tests. -/
def Reached (s u : σ) : Prop := ∃ series, u = after test series s

end Definition

variable {test : ρ → σ → Bool × σ} {helper : RuleMatchHelper σ} {table : Table ρ}
variable {rules : List (Rule ρ)} {name : Name}

section Agreement

variable {s u s₁ : σ} {call once : Name → σ → Matched σ} {result : Bool × Name}

theorem Reached.after (hu : Reached test s u) (series : List ρ) :
    Reached test s (after test series u) := by
  obtain ⟨before, rfl⟩ := hu
  exact ⟨before ++ series, (after_append ..).symm⟩

theorem Reached.match {rule : Rule ρ} (hu : Reached test s u)
    (hcall : ∀ name, Observes test (call name)) (h : rule.match test call u = some (result, s₁)) :
    Reached test s s₁ := by
  obtain ⟨series, rfl, -⟩ := rule.observes_match hcall _ result s₁ h
  exact hu.after series

/-- Make the test and match in any case. -/
def Payload.probe (rule : ρ) : Payload ρ := .not (.and [.plain rule, .or []])

variable {calls : Nat} (hground : ∀ name, table.Grounded calls name)
include hground

end Agreement

end Rules
