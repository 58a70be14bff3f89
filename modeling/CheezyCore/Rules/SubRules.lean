import Mathlib.Data.List.Nodup
import Mathlib.Data.List.Perm.Subperm
import CheezyCore.Foundation.Slices
import CheezyCore.Rules.Logic

/-!
# The table of sub-rules and its check

`parseSubRules` builds the table of named lists and `verifySubRule` goes down the
references of each list, with the names on the way in a slice. The slice is appended to
on every level and its array is shared by the branches below a name, so the check is
modelled over `Slices.Heap`; `verify_eq_verifyPath` says that it decides as if every branch
had a list of names of its own.

A table it accepts is grounded: from no name can references be followed more often than
there are names. This bounds the open calls of `matchSubRules`.
-/

namespace Rules

open Slices Strings

variable {ρ σ : Type} {n : Name} {path : List Name} {proxies : Name → Bool} {rules : List (Rule ρ)}
variable {calls : Nat} {table : Table ρ}

/-- A line of a configured list with the rule it is parsed to. -/
structure Line (ρ : Type) where
  text : Name
  rule : Rule ρ

/-- `cfg.SubRules`. -/
structure Config (ρ : Type) where
  subRules : List (Name × List (Line ρ))
  nodup : (subRules.map Prod.fst).Nodup

inductive VerifyError where
  | notFound (i : Nat) (n target : Name)
  | circular (arr : List Name)
  deriving DecidableEq, Repr

def VerifyError.text : VerifyError → Name
  | .notFound i n target =>
    bytes "sub-rule[" ++ bytes (toString i) ++ bytes ":" ++ n ++ bytes "] error: [" ++ target
      ++ bytes "] not found"
  | .circular arr =>
    bytes "sub-rule error: circular references [" ++ List.intercalate (bytes "->") arr
      ++ bytes "]"

inductive ParseError where
  | emptyName
  | formatInvalid (format : Name) (idx : Nat) (line : Name)
  | proxyNotFound (format : Name) (idx : Nat) (line target : Name)
  | subRuleNotFound (format : Name) (idx : Nat) (line target : Name)
  | verify (e : VerifyError)
  deriving DecidableEq, Repr

/-- The front of an error about a line. -/
def linePosition (format : Name) (idx : Nat) (line : Name) : Name :=
  format ++ bytes "[" ++ bytes (toString idx) ++ bytes "] [" ++ line ++ bytes "] error: "

def ParseError.text : ParseError → Name
  | .emptyName => bytes "sub-rule name is empty"
  | .formatInvalid format idx line => linePosition format idx line ++ bytes "format invalid"
  | .proxyNotFound format idx line target =>
    linePosition format idx line ++ bytes "proxy [" ++ target ++ bytes "] not found"
  | .subRuleNotFound format idx line target =>
    linePosition format idx line ++ bytes "sub-rule [" ++ target ++ bytes "] not found"
  | .verify e => e.text

/-- The checks of `parseRules` on the target of each line, and the rules. -/
def parseRules (proxies : Name → Bool) (subRules : List Name) (format : Name) :
    Nat → List (Line ρ) → Except ParseError (List (Rule ρ))
  | _, [] => .ok []
  | idx, line :: rest =>
    let target := line.rule.adapter
    if target = [] then .error (.formatInvalid format idx line.text)
    else if !proxies target && !line.rule.isSubRules then
      .error (.proxyNotFound format idx line.text target)
    else if !proxies target && !subRules.contains target then
      .error (.subRuleNotFound format idx line.text target)
    else
      match parseRules proxies subRules format (idx + 1) rest with
      | .ok rules => .ok (line.rule :: rules)
      | .error e => .error e

/-- The loop of `parseSubRules` over the configured lists. -/
def parseLists (proxies : Name → Bool) (subRules : List Name) :
    List (Name × List (Line ρ)) → Except ParseError (List (Name × List (Rule ρ)))
  | [] => .ok []
  | (name, lines) :: rest =>
    if name = [] then .error .emptyName
    else
      match parseRules proxies subRules (bytes "sub-rules[" ++ name ++ bytes "]") 0 lines with
      | .error e => .error e
      | .ok rules =>
        match parseLists proxies subRules rest with
        | .error e => .error e
        | .ok lists => .ok ((name, rules) :: lists)

theorem map_fst_of_parseLists {subRules : List Name} {cfg : List (Name × List (Line ρ))}
    {lists : List (Name × List (Rule ρ))} (h : parseLists proxies subRules cfg = .ok lists) :
    lists.map Prod.fst = cfg.map Prod.fst := by
  fun_induction parseLists proxies subRules cfg generalizing lists with
  | case1 =>
    cases h
    rfl
  | case2 | case3 | case4 => cases h
  | case5 name lines rest hname rules hrules lists' hlists ih =>
    cases h
    rw [List.map_cons, List.map_cons, ih hlists]

namespace Table

/-- What a check of a name returns, with the arrays after it, unless the bound was not
enough. -/
abbrev Checked := Option (Except VerifyError Unit × Heap Name)

/-- The loop of `verifySubRuleCircularReferences` over the rules of `n`. -/
def verifyEach (table : Table ρ) (spare : Nat → Nat) (call : Name → Heap Name → Slice → Checked)
    (n : Name) (arr : Slice) : Nat → List (Rule ρ) → Heap Name → Checked
  | _, [], heap => some (.ok (), heap)
  | i, rule :: rest, heap =>
    if rule.isSubRules then
      if !table.names.contains rule.adapter then
        some (.error (.notFound i n rule.adapter), heap)
      else if (heap.read arr).contains rule.adapter then
        let (heap, arr) := heap.append spare arr rule.adapter
        some (.error (.circular (heap.read arr)), heap)
      else
        match call rule.adapter heap arr with
        | some (.ok (), heap) => verifyEach table spare call n arr (i + 1) rest heap
        | out => out
    else verifyEach table spare call n arr (i + 1) rest heap

def verifySubRuleCircularReferences (table : Table ρ) (spare : Nat → Nat) :
    Nat → Name → Heap Name → Slice → Checked
  | 0, _, _, _ => none
  | calls + 1, n, heap, arr =>
    let (heap, arr) := heap.append spare arr n
    verifyEach table spare (verifySubRuleCircularReferences table spare calls) n arr 0
      (table.rules n) heap

/-- The loop of `verifySubRule`. -/
def verifyNames (table : Table ρ) (spare : Nat → Nat) : List Name → Heap Name → Checked
  | [], heap => some (.ok (), heap)
  | name :: rest, heap =>
    let (heap, arr) := heap.empty
    match verifySubRuleCircularReferences table spare table.names.length name heap arr with
    | some (.ok (), heap) => verifyNames table spare rest heap
    | out => out

def verifySubRule (table : Table ρ) (spare : Nat → Nat) : Option (Except VerifyError Unit) :=
  (table.verifyNames spare table.names []).map Prod.fst

end Table

/-- `none` would say that the check of the references does not come to an end. -/
def parseSubRules (spare : Nat → Nat) (proxies : Name → Bool) (cfg : Config ρ) :
    Option (Except ParseError (Table ρ)) :=
  match h : parseLists proxies (cfg.subRules.map Prod.fst) cfg.subRules with
  | .error e => some (.error e)
  | .ok lists =>
    let table : Table ρ := ⟨lists, by rw [map_fst_of_parseLists h]; exact cfg.nodup⟩
    match table.verifySubRule spare with
    | none => none
    | some (.error e) => some (.error (.verify e))
    | some (.ok ()) => some (.ok table)

namespace Table

section Path

/-! ### The check with a list of names for each branch -/

/-- The loop over the rules of a name, below the names of `path`. -/
def pathEach (table : Table ρ) (call : Name → List Name → Option (Except VerifyError Unit))
    (n : Name) (path : List Name) : Nat → List (Rule ρ) → Option (Except VerifyError Unit)
  | _, [] => some (.ok ())
  | i, rule :: rest =>
    if rule.isSubRules then
      if !table.names.contains rule.adapter then some (.error (.notFound i n rule.adapter))
      else if path.contains rule.adapter then
        some (.error (.circular (path ++ [rule.adapter])))
      else
        match call rule.adapter path with
        | some (.ok ()) => pathEach table call n path (i + 1) rest
        | out => out
    else pathEach table call n path (i + 1) rest

def verifyPath (table : Table ρ) : Nat → Name → List Name → Option (Except VerifyError Unit)
  | 0, _, _ => none
  | calls + 1, n, path =>
    pathEach table (verifyPath table calls) n (path ++ [n]) 0 (table.rules n)

/-- What a check over shared arrays must do to be the one over lists of names: decide the
same and leave the slices of the callers alone. -/
def Simulates (path : List Name) (arr : Slice) (heap : Heap Name) (out : Checked)
    (expected : Option (Except VerifyError Unit)) : Prop :=
  heap.Valid arr → heap.read arr = path →
    ∃ heap', out = expected.map (·, heap') ∧ Heap.Frame arr heap heap'

variable (table : Table ρ) (spare : Nat → Nat)

theorem simulates_verifyEach {call : Name → Heap Name → Slice → Checked}
    {pathCall : Name → List Name → Option (Except VerifyError Unit)} {arr : Slice}
    (hcall : ∀ target heap,
      Simulates path arr heap (call target heap arr) (pathCall target path))
    (i : Nat) (rules : List (Rule ρ)) (heap : Heap Name) :
    Simulates path arr heap (table.verifyEach spare call n arr i rules heap)
      (table.pathEach pathCall n path i rules) := by
  intro valid hread
  induction rules generalizing i heap with
  | nil => exact ⟨heap, rfl, Heap.Frame.refl arr heap⟩
  | cons rule rest ih =>
    unfold verifyEach pathEach
    rw [hread]
    split
    next hsub =>
      split
      · exact ⟨heap, rfl, Heap.Frame.refl arr heap⟩
      · split
        · refine ⟨_, ?_, Heap.frame_append spare heap arr rule.adapter⟩
          dsimp only
          rw [Heap.read_append spare valid, hread]
          rfl
        · obtain ⟨heap', hout, frame⟩ := hcall rule.adapter heap valid hread
          rw [hout]
          -- the callee left the caller's slice as it was, so the loop goes on with it
          obtain ⟨valid', hread'⟩ := frame arr valid fun _ => Nat.le_refl _
          cases hpath : pathCall rule.adapter path with
          | none => exact ⟨heap', rfl, frame⟩
          | some result =>
            cases result with
            | error e => exact ⟨heap', rfl, frame⟩
            | ok u =>
              obtain ⟨heap'', hrest, frame'⟩ :=
                ih (i + 1) heap' valid' (hread'.trans hread)
              exact ⟨heap'', hrest, frame.trans frame'⟩
    next => exact ih (i + 1) heap valid hread

/-- The array is shared between the branches below a name, and each of them still finds
the names above it. -/
theorem verify_eq_verifyPath (calls : Nat) (n : Name) (path : List Name) (heap : Heap Name)
    (arr : Slice) :
    Simulates path arr heap (table.verifySubRuleCircularReferences spare calls n heap arr)
      (table.verifyPath calls n path) := by
  intro valid hread
  induction calls generalizing n path heap arr with
  | zero => exact ⟨heap, rfl, Heap.Frame.refl arr heap⟩
  | succ calls ih =>
    have hread' : (heap.append spare arr n).1.read (heap.append spare arr n).2 = path ++ [n] := by
      rw [Heap.read_append spare valid, hread]
    have hcall : ∀ target heap', Simulates (path ++ [n]) (heap.append spare arr n).2 heap'
        (table.verifySubRuleCircularReferences spare calls target heap'
          (heap.append spare arr n).2) (table.verifyPath calls target (path ++ [n])) :=
      fun target heap' valid hread => ih target _ heap' _ valid hread
    obtain ⟨heap', hout, frame⟩ := simulates_verifyEach table spare hcall 0
      (table.rules n) _ (Heap.valid_append spare valid n) hread'
    exact ⟨heap', hout, frame.of_append spare⟩

end Path

/-- References can be followed from the name fewer than `calls` times. -/
def Grounded (table : Table ρ) : Nat → Name → Prop
  | 0, _ => False
  | calls + 1, n =>
    ∀ rule ∈ table.rules n, rule.isSubRules → table.Grounded calls rule.adapter

variable {table : Table ρ} {spare : Nat → Nat}

theorem Grounded.succ (h : table.Grounded calls n) : table.Grounded (calls + 1) n := by
  induction calls generalizing n with
  | zero => exact h.elim
  | succ calls ih => exact fun rule hmem hsub => ih (h rule hmem hsub)

theorem Grounded.mono {calls' : Nat} (h : table.Grounded calls n) (hle : calls ≤ calls') :
    table.Grounded calls' n := by
  induction hle with
  | refl => exact h
  | step _ ih => exact ih.succ

theorem rules_eq_nil (h : n ∉ table.names) : table.rules n = [] := by
  have hlookup : table.lists.lookup n = none := by
    rw [List.lookup_eq_none_iff]
    intro entry hmem
    rw [bne_iff_ne]
    intro heq
    exact h (heq ▸ List.mem_map_of_mem hmem)
  rw [rules, hlookup, Option.getD_none]

theorem grounded_of_not_mem (h : n ∉ table.names) : table.Grounded 1 n := by
  intro rule hmem
  rw [rules_eq_nil h] at hmem
  exact absurd hmem List.not_mem_nil

/-- A loop that ends well has checked the target of every `SUB-RULE` it met. -/
theorem call_of_pathEach {call : Name → List Name → Option (Except VerifyError Unit)} {i : Nat}
    (h : table.pathEach call n path i rules = some (.ok ())) :
    ∀ rule ∈ rules, rule.isSubRules → call rule.adapter path = some (.ok ()) := by
  fun_induction pathEach table call n path i rules with
  | case1 => nofun
  | case2 | case3 => cases h
  | case4 i rule rest _ _ _ hcall ih => exact List.forall_mem_cons.mpr ⟨fun _ => hcall, ih h⟩
  | case5 i rule rest _ _ _ hother => exact absurd h hother
  | case6 i rule rest hplain ih => exact List.forall_mem_cons.mpr ⟨(absurd · hplain), ih h⟩

theorem grounded_of_verifyPath (h : table.verifyPath calls n path = some (.ok ())) :
    table.Grounded calls n := by
  induction calls generalizing n path with
  | zero => cases h
  | succ calls ih => exact fun rule hmem hsub => ih (call_of_pathEach h rule hmem hsub)

/-- The loop comes to an end if the checks of the targets do. -/
theorem pathEach_ne_none {call : Name → List Name → Option (Except VerifyError Unit)} {i : Nat}
    (h : ∀ target, target ∈ table.names → target ∉ path → call target path ≠ none) :
    table.pathEach call n path i rules ≠ none := by
  fun_induction pathEach table call n path i rules with
  | case1 | case2 | case3 => exact Option.some_ne_none _
  | case5 i rule rest _ hknown hnew => exact h _ (by simpa using hknown) (by simpa using hnew)
  | case4 i rule rest _ _ _ _ ih | case6 i rule rest _ ih => exact ih

/-- The names on the way down are different names of the table, so the way is no longer
than the table. -/
theorem verifyPath_ne_none (nodup : (path ++ [n]).Nodup) (sub : path ++ [n] ⊆ table.names)
    (enough : table.names.length ≤ calls + path.length) : table.verifyPath calls n path ≠ none := by
  have hlen := (List.subperm_of_subset nodup sub).length_le
  rw [List.length_append, List.length_singleton] at hlen
  induction calls generalizing n path with
  | zero => omega
  | succ calls ih =>
    apply pathEach_ne_none
    intro target htarget hnew
    have nodup' : (path ++ [n] ++ [target]).Nodup := by
      rw [← List.concat_eq_append]
      exact List.Nodup.concat hnew nodup
    have sub' : path ++ [n] ++ [target] ⊆ table.names := by
      apply List.append_subset.mpr
      exact ⟨sub, by simpa using htarget⟩
    have hlen' := (List.subperm_of_subset nodup' sub').length_le
    simp only [List.length_append, List.length_singleton] at hlen'
    apply ih nodup' sub'
    · simp only [List.length_append, List.length_singleton]
      omega
    · simp only [List.length_append, List.length_singleton]
      omega

/-- The outcome of a check that starts with no name above it. -/
theorem verify_root (table : Table ρ) (spare : Nat → Nat) (n : Name) (heap : Heap Name) :
    ∃ heap', table.verifySubRuleCircularReferences spare table.names.length n heap.empty.1
      heap.empty.2 = (table.verifyPath table.names.length n []).map (·, heap') := by
  obtain ⟨heap', hout, -⟩ := verify_eq_verifyPath table spare table.names.length n []
    heap.empty.1 heap.empty.2 (Heap.valid_empty heap) (Heap.read_empty heap)
  exact ⟨heap', hout⟩

theorem verifyPath_root_ne_none (hn : n ∈ table.names) :
    table.verifyPath table.names.length n [] ≠ none := by
  apply verifyPath_ne_none
  · exact List.nodup_singleton n
  · exact List.cons_subset.mpr ⟨hn, List.nil_subset _⟩
  · exact Nat.le_refl _

/-- `verifySubRule` accepts exactly the tables whose every name passes the check. -/
theorem verifyNames_iff (table : Table ρ) (spare : Nat → Nat) {names : List Name}
    (sub : names ⊆ table.names) (heap : Heap Name) :
    (∃ out, table.verifyNames spare names heap = some out) ∧
    ((∃ heap', table.verifyNames spare names heap = some (.ok (), heap')) ↔
      ∀ n ∈ names, table.verifyPath table.names.length n [] = some (.ok ())) := by
  induction names generalizing heap with
  | nil => exact ⟨⟨_, rfl⟩, fun _ n hn => absurd hn List.not_mem_nil, fun _ => ⟨heap, rfl⟩⟩
  | cons n rest ih =>
    obtain ⟨hn, hrest⟩ := List.cons_subset.mp sub
    obtain ⟨heap', hout⟩ := verify_root table spare n heap
    obtain ⟨result, hpath⟩ := Option.ne_none_iff_exists'.mp (verifyPath_root_ne_none hn)
    unfold verifyNames
    simp only [hout, List.forall_mem_cons, hpath]
    cases result with
    | error e => exact ⟨⟨_, rfl⟩, by simp⟩
    | ok u =>
      obtain ⟨hsome, hiff⟩ := ih hrest heap'
      exact ⟨hsome, by simpa using hiff⟩

theorem verifySubRule_iff : table.verifySubRule spare = some (.ok ()) ↔
    ∀ n ∈ table.names, table.verifyPath table.names.length n [] = some (.ok ()) := by
  obtain ⟨-, hiff⟩ := verifyNames_iff table spare (List.Subset.refl _) []
  rw [← hiff, verifySubRule, Option.map_eq_some_iff]
  constructor
  · rintro ⟨⟨result, heap⟩, hout, rfl⟩
    exact ⟨heap, hout⟩
  · rintro ⟨heap, hout⟩
    exact ⟨_, hout, rfl⟩

/-- In an accepted table every name, of the table or not, is grounded. -/
theorem grounded_of_verifySubRule (h : table.verifySubRule spare = some (.ok ())) (n : Name) :
    table.Grounded (table.names.length + 1) n := by
  by_cases hn : n ∈ table.names
  · exact (grounded_of_verifyPath (verifySubRule_iff.mp h n hn)).succ
  · exact (grounded_of_not_mem hn).mono (Nat.le_add_left 1 _)

end Table

theorem verifySubRule_of_parseSubRules {spare : Nat → Nat} {cfg : Config ρ}
    (h : parseSubRules spare proxies cfg = some (.ok table)) :
    table.verifySubRule spare = some (.ok ()) := by
  unfold parseSubRules at h
  split at h
  · cases h
  · dsimp only at h
    split at h <;> cases h
    next hverify => exact hverify

section Termination

variable {test : ρ → σ → Bool × σ} {helper : RuleMatchHelper σ} {call : Name → σ → Matched σ}

theorem Rule.match_returns (test : ρ → σ → Bool × σ) {rule : Rule ρ}
    (hcall : rule.isSubRules → ∀ s, ∃ out, call rule.adapter s = some out) (s : σ) :
    ∃ out, rule.match test call s = some out := by
  cases rule with
  | plain rule adapter | final adapter => exact ⟨_, rfl⟩
  | logic rule =>
    unfold Rule.match Logic.match
    cases rule with
    | subRules rule adapter =>
      dsimp only
      split
      · exact hcall rfl _
      · exact ⟨_, rfl⟩
    | not rule adapter | or rules adapter | and rules adapter =>
      dsimp only
      split <;> exact ⟨_, rfl⟩

theorem matchEach_returns
    (hcall : ∀ rule ∈ rules, rule.isSubRules → ∀ s, ∃ out, call rule.adapter s = some out) (s : σ) :
    ∃ out, matchEach test helper call rules s = some out := by
  induction rules generalizing s with
  | nil => exact ⟨_, rfl⟩
  | cons rule rest ih =>
    rw [List.forall_mem_cons] at hcall
    obtain ⟨out, hout⟩ := Rule.match_returns test hcall.1 s
    obtain ⟨out', hout'⟩ : ∃ out', rule.settle call out = some out' := by
      unfold Rule.settle
      split
      next hsub => exact hcall.1 hsub _
      next => exact ⟨_, rfl⟩
    rw [matchEach, hout, Option.bind_some]
    split
    · rw [hout', Option.bind_some]
      split
      · exact ih hcall.2 _
      · exact ⟨_, rfl⟩
    · exact ih hcall.2 _

theorem matchSubRules_returns {name : Name} (h : table.Grounded calls name) (s : σ) :
    ∃ out, matchSubRules test helper table calls name s = some out := by
  induction calls generalizing name s with
  | zero => exact h.elim
  | succ calls ih => exact matchEach_returns (fun rule hmem hsub => ih (h rule hmem hsub)) s

/-- The check of the references comes to an end, and in an accepted table so does matching. -/
theorem subRules_return (spare : Nat → Nat) (proxies : Name → Bool) (cfg : Config ρ) :
    ∃ result, parseSubRules spare proxies cfg = some result ∧ ∀ table, result = .ok table →
      ∀ name s, ∃ out,
        matchSubRules test helper table (table.names.length + 1) name s = some out := by
  obtain ⟨result, hresult⟩ : ∃ result, parseSubRules spare proxies cfg = some result := by
    unfold parseSubRules
    split
    · exact ⟨_, rfl⟩
    · dsimp only
      split
      next hnone =>
        obtain ⟨⟨out, hout⟩, -⟩ := Table.verifyNames_iff _ spare (List.Subset.refl _) []
        rw [Table.verifySubRule, hout] at hnone
        cases hnone
      · exact ⟨_, rfl⟩
      · exact ⟨_, rfl⟩
  refine ⟨result, hresult, ?_⟩
  rintro table rfl name s
  have hverify := verifySubRule_of_parseSubRules hresult
  exact matchSubRules_returns (Table.grounded_of_verifySubRule hverify name) s

end Termination

end Rules
