import Mathlib.Algebra.Order.Ring.Int
import Mathlib.Data.List.Nodup
import Mathlib.Data.List.Perm.Subperm

/-!
# Parallel dials of a smart group

`ParallelDialContext` dials all proxies at once. Each dial sends one result into a channel with
room for all of them. The caller takes results until one is good or its context is done, and
leaves the others to a goroutine that closes their connections.
-/

namespace ParallelDial

variable {κ ε : Type*} {n received : Nat} {done : Nat → Option ε} {errs : List ε}

structure DialResult (κ ε : Type*) where
  proxyIndex : Nat
  conn : Option κ
  connectTime : Int
  error : Option ε

/-- A connection that has to be closed. -/
def DialResult.opened (r : DialResult κ ε) : Bool := r.conn.isSome && r.error.isNone

/-- What the dials of `n` proxies send, in the order it comes. -/
structure Results (κ ε : Type*) (n : Nat) where
  sent : List (DialResult κ ε)
  distinct : (sent.map (·.proxyIndex)).Nodup
  bound : ∀ r ∈ sent, r.proxyIndex < n

inductive Failure (ε : Type*) where
  | dial (e : ε)
  | ctx (e : ε)
  | join (errs : List ε)
  | deadlineExceeded

/-- What a call returns, the number of results that `drainRemaining` takes and what it takes
them from. -/
structure Outcome (κ ε : Type*) where
  proxy : Option Nat
  conn : Option κ
  connectTime : Int
  error : Option (Failure ε)
  pending : Nat
  rest : List (DialResult κ ε)

/-- The loop. In the round `k` the `select` takes the end of the context if `done k` has its
error, and else waits for a result. -/
def receive (n : Nat) (done : Nat → Option ε) (received : Nat) (errs : List ε)
    (results : List (DialResult κ ε)) : Option (Outcome κ ε) :=
  if received < n then
    match done received, results with
    | some e, rest => some ⟨none, none, 0, some (.ctx e), n - received, rest⟩
    | none, [] => none
    | none, r :: rest =>
      match r.error with
      | none => some ⟨r.proxyIndex, r.conn, r.connectTime, none, n - received - 1, rest⟩
      | some e => receive n done (received + 1) (errs ++ [e]) rest
  else
    let failure := if errs = [] then .deadlineExceeded else .join errs
    some ⟨none, none, 0, some failure, 0, results⟩

def parallelDialContext (done : Nat → Option ε) (results : Results κ ε n) :
    Option (Outcome κ ε) :=
  if n = 1 then
    results.sent.head?.map fun r =>
      ⟨r.proxyIndex, r.conn, r.connectTime, r.error.map .dial, 0, results.sent.tail⟩
  else receive n done 0 [] results.sent

namespace Outcome

variable (o : Outcome κ ε)

/-- The proxy whose connection is returned. -/
def won : List Nat := if o.conn.isSome ∧ o.error.isNone then o.proxy.toList else []

/-- The proxies whose connections `drainRemaining` closes. -/
def closed : List Nat := ((o.rest.take o.pending).filter (·.opened)).map (·.proxyIndex)

end Outcome

open Outcome DialResult

/-- A call waits, or it returns what came of one good dial or an error. Of the connections one
may be returned, and all others are closed. -/
def Accounts (waits : Prop) (results : List (DialResult κ ε)) : Option (Outcome κ ε) → Prop
  | none => waits
  | some o =>
    (o.error ≠ none ∨ ∃ r ∈ results, r.error = none ∧ o.proxy = r.proxyIndex ∧ o.conn = r.conn ∧
      o.connectTime = r.connectTime) ∧
    (results.filter (·.opened)).map (·.proxyIndex) = o.won ++ o.closed

theorem receive_accounts (done : Nat → Option ε) (errs : List ε) {results : List (DialResult κ ε)}
    (hle : received + results.length ≤ n) :
    Accounts (received + results.length < n) results (receive n done received errs results) := by
  fun_induction receive n done received errs results with
  | case1 received errs hlt e rest hd =>
    have hall : rest.take (n - received) = rest := List.take_of_length_le (by omega)
    exact ⟨.inl nofun, by simp [won, closed, hall]⟩
  | case2 received errs hlt => exact hlt
  | case3 received errs hlt r rest hd hr =>
    rw [List.length_cons] at hle
    have hall : rest.take (n - received - 1) = rest := List.take_of_length_le (by omega)
    refine ⟨.inr ⟨r, List.mem_cons_self, hr, rfl, rfl, rfl⟩, ?_⟩
    cases hc : r.conn <;> simp [won, closed, hall, opened, hr, hc]
  | case4 received errs hlt r rest hd e hr ih =>
    rw [List.length_cons] at hle ⊢
    have hrest := ih (by omega)
    cases hout : receive n done (received + 1) (errs ++ [e]) rest with
    | none =>
      rw [hout] at hrest
      exact (Nat.add_right_comm ..).trans_lt hrest
    | some o =>
      rw [hout] at hrest
      refine ⟨hrest.1.imp_right ?_, ?_⟩
      · rintro ⟨q, hq, hreturns⟩
        exact ⟨q, List.mem_cons_of_mem r hq, hreturns⟩
      · simpa [opened, hr] using hrest.2
  | case5 results received errs hge failure =>
    obtain rfl := List.eq_nil_of_length_eq_zero (show results.length = 0 by omega)
    exact ⟨.inl nofun, rfl⟩

/-- However the results and the end of the context come, a call returns when no dial is under way,
and it accounts for every connection and for none of them twice. -/
theorem parallelDialContext_accounts (done : Nat → Option ε) (results : Results κ ε n) :
    Accounts (results.sent.length < n) results.sent (parallelDialContext done results) ∧
      ∀ o ∈ parallelDialContext done results, (o.won ++ o.closed).Nodup := by
  have hle : results.sent.length ≤ n := by
    have hsub : results.sent.map (·.proxyIndex) ⊆ List.range n := by
      simpa [List.subset_def] using results.bound
    simpa using (List.subperm_of_subset results.distinct hsub).length_le
  have hall : Accounts (results.sent.length < n) results.sent
      (parallelDialContext done results) := by
    rw [parallelDialContext]
    split
    next hn =>
      cases hsent : results.sent with
      | nil => exact hn ▸ Nat.one_pos
      | cons r rest =>
        rw [hsent, List.length_cons] at hle
        obtain rfl := List.eq_nil_of_length_eq_zero (show rest.length = 0 by omega)
        cases herr : r.error with
        | none =>
          refine ⟨.inr ⟨r, List.mem_cons_self, herr, rfl, rfl, rfl⟩, ?_⟩
          cases hc : r.conn <;> simp [won, closed, opened, herr, hc]
        | some e => exact ⟨.inl (by simp [herr]), by simp [won, closed, opened, herr]⟩
    next => simpa using receive_accounts done [] ((Nat.zero_add _).trans_le hle)
  refine ⟨hall, fun o ho => ?_⟩
  rw [Option.mem_def.mp ho] at hall
  rw [← hall.2]
  exact results.distinct.sublist (List.filter_sublist.map _)

/-- Two dials that both succeed, the second one first. -/
def twoSuccesses : Results String Unit 2 where
  sent := [⟨1, some "b", 20, none⟩, ⟨0, some "a", 35, none⟩]
  distinct := by decide
  bound := by decide

/-- The first success wins, unless the context is done before it is taken. -/
theorem accounts_twoSuccesses :
    (∃ o ∈ parallelDialContext (fun _ => none) twoSuccesses,
      o.won = [1] ∧ o.closed = [0] ∧ (o.won ++ o.closed).Nodup) ∧
    ∃ o ∈ parallelDialContext (fun _ => some ()) twoSuccesses,
      o.won = [] ∧ o.closed = [1, 0] ∧ (o.won ++ o.closed).Nodup :=
  ⟨⟨_, rfl, rfl, rfl, (parallelDialContext_accounts (fun _ => none) twoSuccesses).2 _ rfl⟩,
    _, rfl, rfl, rfl, (parallelDialContext_accounts (fun _ => some ()) twoSuccesses).2 _ rfl⟩

end ParallelDial
