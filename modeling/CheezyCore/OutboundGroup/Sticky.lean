import CheezyCore.Foundation.Transition
import CheezyCore.Lru.Cache

/-!
# Sticky sessions

The strategy keeps, for ten minutes, the position of the proxy that it chose for a key. A position
beyond the end of a list that got shorter is replaced for the call, but not in the cache.
-/

namespace Sticky

open Lru Transition

/-- `alive` is `AliveForTestUrl`. -/
structure State (π : Type*) where
  proxies : List π
  alive : π → Bool
  cache : LruCache UInt64 Nat

variable {π : Type*}

def start (proxies : List π) (alive : π → Bool) : State π :=
  ⟨proxies, alive, { LruCache.new 1000 with maxAge := 600 }⟩

namespace State

/-- The loop with the tries that are left. `jump` has what `jumpHash` returns: its key depends on
the clock. A position outside of the list would panic. -/
def retry (s : State π) (now : Int) (key : UInt64) (has : Bool) (idx : Nat) (jump : Nat → Nat) :
    Nat → Nat → Option (π × State π)
  | 0, _ => s.proxies[0]?.map fun proxy => (proxy, { s with cache := s.cache.set now key 0 })
  | tries + 1, nowIdx =>
    s.proxies[nowIdx]?.bind fun proxy =>
      if s.alive proxy then
        some (proxy, if !has || nowIdx ≠ idx then { s with cache := s.cache.set now key nowIdx }
          else s)
      else s.retry now key has idx jump tries (jump tries)

/-- The function that `strategyStickySessions` returns, for the hash of the request's key.
`Get` and `Set` read the clock, each for itself. -/
def select (s : State π) (now now' : Int) (key : UInt64) (jump : Nat → Nat) :
    Option (π × State π) :=
  let (cached, cache) := s.cache.get now key
  let idx := (cached.filter (· < s.proxies.length)).getD (jump 4)
  { s with cache }.retry now' key cached.isSome idx jump 4 idx

end State

inductive Action (π : Type*) where
  | select (now now' : Int) (key : UInt64) (jump : Nat → Nat)
  | setProxies (proxies : List π)
  | setAlive (alive : π → Bool)

def next (s : State π) : Action π → Option (State π)
  | .select now now' key jump => (s.select now now' key jump).map Prod.snd
  | .setProxies proxies => some { s with proxies }
  | .setAlive alive => some { s with alive }

/-- The step is no call for the key and leaves the list alone. -/
def Action.Spares (key : UInt64) : Action π → Prop
  | .select _ _ key' _ => key' ≠ key
  | .setProxies _ => False
  | .setAlive _ => True

variable {s t : State π} {p : π} {now now' : Int} {key key' : UInt64} {idx : Nat} {jump : Nat → Nat}
  {has : Bool}

/-- The position of the proxy is the only one that the cache may have for the key. -/
def Keeps (s : State π) (key : UInt64) (p : π) : Prop :=
  ∀ i, s.cache.Maps key i → s.proxies[i]? = some p

/-- The loop stores the position of the proxy it returns, or leaves the cache alone. -/
theorem retry_cases {tries nowIdx : Nat}
    (h : s.retry now key has idx jump tries nowIdx = some (p, t)) :
    (∃ i, s.proxies[i]? = some p ∧ t = { s with cache := s.cache.set now key i }) ∨
      (has = true ∧ s.proxies[idx]? = some p ∧ t = s) := by
  induction tries generalizing nowIdx with
  | zero =>
    obtain ⟨proxy, hproxy, heq⟩ := Option.map_eq_some_iff.mp h
    cases heq
    exact .inl ⟨0, hproxy, rfl⟩
  | succ tries ih =>
    obtain ⟨proxy, hproxy, h⟩ := Option.bind_eq_some_iff.mp h
    split at h
    · cases h
      split
      · exact .inl ⟨nowIdx, hproxy, rfl⟩
      next hkeep =>
        simp only [Bool.or_eq_true, Bool.not_eq_true', decide_eq_true_eq, not_or,
          Bool.not_eq_false, not_not] at hkeep
        obtain ⟨hhas, rfl⟩ := hkeep
        exact .inr ⟨hhas, hproxy, rfl⟩
    · exact ih h

/-- A call that finds no position outside of the list leaves that of the proxy it returns. -/
theorem keeps_select (found : ∀ i, (s.cache.get now key).1 = some i → i < s.proxies.length)
    (h : s.select now now' key jump = some (p, t)) : Keeps t key p := by
  rcases retry_cases h with ⟨i, hp, rfl⟩ | ⟨hhas, hp, rfl⟩
  · intro j hj
    obtain ⟨-, hne⟩ | ⟨-, rfl⟩ := hj.of_set
    · exact absurd rfl hne
    · exact hp
  · obtain ⟨i, hi⟩ := Option.isSome_iff_exists.mp hhas
    rw [hi, Option.filter_some, if_pos (decide_eq_true (found i hi))] at hp
    intro j hj
    rwa [hj.of_get.eq (LruCache.maps_of_get hi)]

theorem Keeps.next {a : Action π} (h : Keeps s key p) (spares : a.Spares key)
    (hstep : next s a = some t) : Keeps t key p := by
  cases a with
  | select now now' key' jump =>
    obtain ⟨⟨q, u⟩, hselect, rfl⟩ := Option.map_eq_some_iff.mp hstep
    rcases retry_cases hselect with ⟨i, -, rfl⟩ | ⟨-, -, rfl⟩
    · intro j hj
      obtain ⟨hj, -⟩ | ⟨rfl, -⟩ := hj.of_set
      · exact h j hj.of_get
      · exact absurd rfl spares
    · exact fun j hj => h j hj.of_get
  | setProxies proxies => exact spares.elim
  | setAlive alive =>
    cases hstep
    exact h

/-- If the call for a key finds no position outside of the list, the proxy it returns is returned
again by the next call for this key: calls for other keys and changes of the health come in
between, the proxy is alive and the entry is still in the cache. -/
theorem sticky_stays {u : State π} {others : List (Action π)} {later later' : Int}
    {jump' : Nat → Nat}
    (found : ∀ i, (s.cache.get now key).1 = some i → i < s.proxies.length)
    (hselect : s.select now now' key jump = some (p, t)) (spares : ∀ a ∈ others, a.Spares key)
    (hrun : run next t others = some u) (alive : u.alive p = true)
    (cached : (u.cache.get later key).1.isSome = true) :
    ∃ v, u.select later later' key jump' = some (p, v) := by
  have hkeeps : Keeps u key p := by
    refine guarded_invariant (P := (Keeps · key p)) ?_ (keeps_select found hselect)
      (guarded_of_forall spares) hrun
    exact fun _ _ _ h hspares hstep => h.next hspares hstep
  obtain ⟨i, hi⟩ := Option.isSome_iff_exists.mp cached
  have hp := hkeeps i (LruCache.maps_of_get hi)
  have hlt : i < u.proxies.length := (List.getElem?_eq_some_iff.mp hp).1
  simp only [State.select, hi, Option.filter_some, decide_eq_true hlt, if_true, Option.getD_some]
  rw [State.retry, hp, Option.bind_some, if_pos alive]
  exact ⟨_, rfl⟩

theorem sticky_stays_two :
    ∃ t, (start [10, 11] fun _ => true).select 0 1 7 (fun _ => 1) = some (11, t) ∧
      ∃ v, t.select 2 3 7 (fun _ => 0) = some (11, v) := by
  refine ⟨_, (and_iff_left_of_imp fun h => ?_).mpr rfl⟩
  refine sticky_stays ?_ h (List.forall_mem_nil _) rfl rfl rfl
  exact fun i (hi : none = some i) => nomatch hi

/-- Two calls in a row return different proxies, both alive in the same list: the position in the
cache, from a longer list, is 2 before and after the first of them. -/
theorem sticky_moves :
    ((run next (start [10, 11, 12] fun _ => true)
        [.select 0 0 7 fun _ => 2, .setProxies [10, 11]]).bind fun s =>
      (s.select 1 1 7 fun _ => 0).bind fun (p, t) =>
        (t.select 2 2 7 fun _ => 1).map fun (q, u) => (p, q, (u.cache.get 2 7).1)) =
      some (10, 11, some 2) := by
  decide +kernel

end Sticky
