import CheezyCore.Foundation.Probing
import CheezyCore.Foundation.Strings

/-!
# Logic rules and sub-rules

A rule looks at the metadata of a connection and, if it matches, names the adapter to use.
`AND`, `OR` and `NOT` combine the matches of the rules in their payload, and `SUB-RULE`
goes to a named list of rules when the rule in its payload matches. Looking at the
metadata may change it, since a rule may have the destination resolved or the process
looked up; the type `σ` stands for the metadata with what the helper's functions keep, and
`test` for the matching of the rules that are not logic rules.

`matchSubRules` and `Logic.match` call each other. How many calls of `matchSubRules` may
be open at once is bounded by a number, and `none` says that it was not enough.
-/

namespace Rules

open Probing (Observes)

abbrev Name := List UInt8

/-- `C.RuleMatchHelper`; each function may be absent. `CheckPassRule` takes a name only; the
tunnel's closure also has groups unwrapped for the metadata, and is taken to give one
answer for a name throughout an evaluation. -/
structure RuleMatchHelper (σ : Type) where
  resolveIP : Option (σ → σ)
  findProcess : Option (σ → σ)
  checkPassRule : Option (Name → Bool)

/-- What the payload of a logic rule can hold: no `MATCH` and no `SUB-RULE`. -/
inductive Payload (ρ : Type) where
  | plain (rule : ρ)
  | not (rule : Payload ρ)
  | or (rules : List (Payload ρ))
  | and (rules : List (Payload ρ))

inductive Logic (ρ : Type) where
  | subRules (rule : Payload ρ) (adapter : Name)
  | not (rule : Payload ρ) (adapter : Name)
  | or (rules : List (Payload ρ)) (adapter : Name)
  | and (rules : List (Payload ρ)) (adapter : Name)

inductive Rule (ρ : Type) where
  | plain (rule : ρ) (adapter : Name)
  /-- `MATCH`. -/
  | final (adapter : Name)
  | logic (rule : Logic ρ)

/-- `map[string][]C.Rule`. -/
structure Table (ρ : Type) where
  lists : List (Name × List (Rule ρ))
  nodup : (lists.map Prod.fst).Nodup

variable {ρ σ : Type}

namespace Table

def names (table : Table ρ) : List Name := table.lists.map Prod.fst

/-- `subRules[name]`; nothing for a name that is not in the table. -/
def rules (table : Table ρ) (name : Name) : List (Rule ρ) := (table.lists.lookup name).getD []

end Table

namespace Logic

def adapter : Logic ρ → Name
  | .subRules _ adapter | .not _ adapter | .or _ adapter | .and _ adapter => adapter

end Logic

namespace Rule

def adapter : Rule ρ → Name
  | .plain _ adapter | .final adapter => adapter
  | .logic rule => rule.adapter

/-- `rule.RuleType() == C.SubRules`. -/
def isSubRules : Rule ρ → Bool
  | .logic (.subRules _ _) => true
  | _ => false

end Rule

namespace RuleMatchHelper

/-- `a == "PASS-RULE" || (helper.CheckPassRule != nil && helper.CheckPassRule(a))`. -/
def passes (helper : RuleMatchHelper σ) (a : Name) : Bool :=
  a == Strings.bytes "PASS-RULE" || match helper.checkPassRule with
    | some check => check a
    | none => false

end RuleMatchHelper

namespace Payload

variable (test : ρ → σ → Bool × σ)

mutual

/-- Whether the rule matches; the adapter it names is not looked at. -/
def matched : Payload ρ → σ → Bool × σ
  | .plain rule, s => test rule s
  | .not rule, s =>
    match rule.matched s with
    | (m, s) => (!m, s)
  | .or rules, s => anyMatched rules s
  | .and rules, s => allMatched rules s

/-- The loop of `OR`: it stops at the first rule that matches. -/
def anyMatched : List (Payload ρ) → σ → Bool × σ
  | [], s => (false, s)
  | rule :: rest, s =>
    match rule.matched s with
    | (true, s) => (true, s)
    | (false, s) => anyMatched rest s

/-- The loop of `AND`: it stops at the first rule that does not match. -/
def allMatched : List (Payload ρ) → σ → Bool × σ
  | [], s => (true, s)
  | rule :: rest, s =>
    match rule.matched s with
    | (true, s) => allMatched rest s
    | (false, s) => (false, s)

end

end Payload

/-- What `Match` returns, with the metadata after it, unless the bound was not enough. -/
abbrev Matched (σ : Type) := Option ((Bool × Name) × σ)

section Match

variable (test : ρ → σ → Bool × σ)

/-- `Logic.Match`, given what a call of `matchSubRules` does. -/
def Logic.match (call : Name → σ → Matched σ) : Logic ρ → σ → Matched σ
  | .subRules rule adapter, s =>
    match rule.matched test s with
    | (true, s) => call adapter s
    | (false, s) => some ((false, []), s)
  | .not rule adapter, s =>
    match rule.matched test s with
    | (true, s) => some ((false, []), s)
    | (false, s) => some ((true, adapter), s)
  | .or rules adapter, s =>
    match Payload.anyMatched test rules s with
    | (true, s) => some ((true, adapter), s)
    | (false, s) => some ((false, []), s)
  | .and rules adapter, s =>
    match Payload.allMatched test rules s with
    | (true, s) => some ((true, adapter), s)
    | (false, s) => some ((false, adapter), s)

/-- `rule.Match(metadata, helper)`. -/
def Rule.match (call : Name → σ → Matched σ) : Rule ρ → σ → Matched σ
  | .plain rule adapter, s => some (((test rule s).1, adapter), (test rule s).2)
  | .final adapter, s => some ((true, adapter), s)
  | .logic rule, s => rule.match test call s

variable (helper : RuleMatchHelper σ)

/-- What becomes of the result of a rule that matched: for a `SUB-RULE` its list is gone
through a second time, without a look at the rule in its payload. -/
def Rule.settle (call : Name → σ → Matched σ) (rule : Rule ρ) (out : (Bool × Name) × σ) :
    Matched σ :=
  if rule.isSubRules then call rule.adapter out.2 else some out

/-- The loop of `matchSubRules`. -/
def matchEach (call : Name → σ → Matched σ) : List (Rule ρ) → σ → Matched σ
  | [], s => some ((false, []), s)
  | rule :: rest, s =>
    (rule.match test call s).bind fun out =>
      if out.1.1 then
        (rule.settle call out).bind fun out =>
          if out.1.1 && helper.passes out.1.2 then matchEach call rest out.2 else some out
      else matchEach call rest out.2

def matchSubRules (table : Table ρ) : Nat → Name → σ → Matched σ
  | 0, _, _ => none
  | calls + 1, name, s =>
    matchEach test helper (matchSubRules table calls) (table.rules name) s

end Match

section Observes

variable {test : ρ → σ → Bool × σ} {helper : RuleMatchHelper σ}

mutual

theorem Payload.observes_matched :
    (p : Payload ρ) → Observes test fun s => some (p.matched test s)
  | .plain rule => Probing.observes_test rule
  | .not rule =>
    (rule.observes_matched.bind fun v => Probing.observes_pure (!v)).congr fun _ => rfl
  | .or rules => Payload.observes_anyMatched rules
  | .and rules => Payload.observes_allMatched rules

theorem Payload.observes_anyMatched :
    (ps : List (Payload ρ)) → Observes test fun s => some (Payload.anyMatched test ps s)
  | [] => Probing.observes_pure false
  | rule :: rest => by
    have hrest := Payload.observes_anyMatched rest
    have hall := rule.observes_matched.bind
      (g := fun v s => if v then some (true, s) else some (Payload.anyMatched test rest s))
      fun v => by
        cases v with
        | true => exact Probing.observes_pure true
        | false => exact hrest
    refine hall.congr fun s => ?_
    rw [Payload.anyMatched]
    split <;> simp [*]

theorem Payload.observes_allMatched :
    (ps : List (Payload ρ)) → Observes test fun s => some (Payload.allMatched test ps s)
  | [] => Probing.observes_pure true
  | rule :: rest => by
    have hrest := Payload.observes_allMatched rest
    have hall := rule.observes_matched.bind
      (g := fun v s => if v then some (Payload.allMatched test rest s) else some (false, s))
      fun v => by
        cases v with
        | true => exact hrest
        | false => exact Probing.observes_pure false
    refine hall.congr fun s => ?_
    rw [Payload.allMatched]
    split <;> simp [*]

end

variable {call : Name → σ → Matched σ}

section

variable (hcall : ∀ name, Observes test (call name))
include hcall

theorem Logic.observes_match (rule : Logic ρ) : Observes test (rule.match test call) := by
  -- every kind of rule asks its payload and goes on by the answer
  cases rule with
  | subRules rule adapter =>
    refine (rule.observes_matched.bind
      (g := fun v s => if v then call adapter s else some ((false, []), s)) ?_).congr ?_
    · intro v
      cases v with
      | true => exact hcall adapter
      | false => exact Probing.observes_pure _
    · intro s
      rw [Logic.match]
      split <;> simp [*]
  | not rule adapter =>
    refine (rule.observes_matched.bind fun v =>
      Probing.observes_pure (if v then (false, []) else (true, adapter))).congr ?_
    intro s
    rw [Logic.match]
    split <;> simp [*]
  | or rules adapter =>
    refine ((Payload.observes_anyMatched rules).bind fun v =>
      Probing.observes_pure (if v then (true, adapter) else (false, []))).congr ?_
    intro s
    rw [Logic.match]
    split <;> simp [*]
  | and rules adapter =>
    refine ((Payload.observes_allMatched rules).bind fun v =>
      Probing.observes_pure (v, adapter)).congr ?_
    intro s
    rw [Logic.match]
    split <;> simp [*]

theorem Rule.observes_match (rule : Rule ρ) : Observes test (rule.match test call) := by
  cases rule with
  | plain rule adapter =>
    exact ((Probing.observes_test rule).bind fun v => Probing.observes_pure (v, adapter)).congr
      fun _ => rfl
  | final adapter => exact Probing.observes_pure _
  | logic rule => exact rule.observes_match hcall

end

end Observes

end Rules
