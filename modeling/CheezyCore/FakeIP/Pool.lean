import CheezyCore.Foundation.Netip
import CheezyCore.Foundation.Transition
import CheezyCore.Lru.Cache

/-!
# The fake-ip pool

`component/fakeip/pool.go` with the memory store of `memory.go`, which keeps the mapping in
two LRU caches, one for each direction. A pool hands out the addresses from `first` up to,
but not including, `last` of its prefix, in order, and starts again at `first` when it has
used them up. A host that already has an address keeps it.

`Lookup`, `LookBack` and `Exist` hold the pool's mutex from beginning to end, but
`FlushFakeIP` takes no lock: it empties the two caches one after the other and then resets
the cycle flag and the offset, and any of these writes can come between two steps of a call.
A step is one operation on the store or one use of the offset.
-/

namespace FakeIP

open Lru Netip Transition

structure MemoryStore where
  cacheIP : LruCache (List UInt8) Addr
  cacheHost : LruCache Addr (List UInt8)

namespace MemoryStore

def new (size : Int) : MemoryStore where
  cacheIP := .new size
  cacheHost := .new size

def getByHost (m : MemoryStore) (now : Int) (host : List UInt8) : Option Addr × MemoryStore :=
  match m.cacheIP.get now host with
  | (some ip, cacheIP) => (some ip, { cacheIP, cacheHost := (m.cacheHost.get now ip).2 })
  | (none, cacheIP) => (none, { m with cacheIP })

def putByHost (m : MemoryStore) (now : Int) (host : List UInt8) (ip : Addr) : MemoryStore :=
  { m with cacheIP := m.cacheIP.set now host ip }

def getByIP (m : MemoryStore) (now : Int) (ip : Addr) : Option (List UInt8) × MemoryStore :=
  match m.cacheHost.get now ip with
  | (some host, cacheHost) => (some host, { cacheHost, cacheIP := (m.cacheIP.get now host).2 })
  | (none, cacheHost) => (none, { m with cacheHost })

def putByIP (m : MemoryStore) (now : Int) (ip : Addr) (host : List UInt8) : MemoryStore :=
  { m with cacheHost := m.cacheHost.set now ip host }

def delByIP (m : MemoryStore) (now : Int) (ip : Addr) : MemoryStore :=
  match m.cacheHost.get now ip with
  | (some host, cacheHost) =>
    { cacheIP := m.cacheIP.delete host, cacheHost := cacheHost.delete ip }
  | (none, cacheHost) => { m with cacheHost := cacheHost.delete ip }

def exist (m : MemoryStore) (ip : Addr) : Bool := m.cacheHost.exist ip

end MemoryStore

def gatewayOf (ipnet : Prefix) : Addr := ipnet.masked.next

/-- The leading addresses are kept back: 198.18.0.4 is the first one of 198.18.0.0/16. -/
def firstOf (ipnet : Prefix) : Addr := (gatewayOf ipnet).next.next.next

/-- A prefix with room for addresses, as `New` requires. -/
structure Range where
  ipnet : Prefix
  last : Addr
  valid : (firstOf ipnet).isValid
  room : (firstOf ipnet).less last

namespace Range

def first (r : Range) : Addr := firstOf r.ipnet

end Range

structure Pool where
  range : Range
  offset : Addr
  cycle : Bool
  store : MemoryStore

/-- The options of a pool without persistence; a prefix that is not valid is none. -/
structure Options where
  ipnet : Option Prefix
  size : Int

/-- What a call that holds the mutex is about to do. `Lookup` of a host without an address
goes through `get`, from `advance` to `answer`. -/
inductive Task where
  | lookup (host : List UInt8)
  | advance (host : List UInt8)
  | free (host : List UInt8)
  | putByIP (host : List UInt8)
  | answer (host : List UInt8)
  | putByHost (host : List UInt8) (ip : Addr)
  | lookBack (ip : Addr)
  | exist (ip : Addr)
  deriving DecidableEq, Repr

/-- What a `FlushFakeIP` is about to do. -/
inductive Flush where
  | cacheIP
  | cacheHost
  | cycle
  | offset
  deriving DecidableEq, Repr

namespace Pool

/-- `prefixLastIP` is `netipx.PrefixLastIP`, of which nothing is assumed. -/
def new (prefixLastIP : Prefix → Addr) (options : Options) : Except String Pool :=
  match options.ipnet with
  | none => .error "ipnet don't have valid ip"
  | some ipnet =>
    let last := prefixLastIP ipnet
    if h : (firstOf ipnet).isValid ∧ (firstOf ipnet).less last then
      let range : Range := ⟨ipnet, last, h.1, h.2⟩
      .ok { range, offset := range.first.prev, cycle := false, store := .new options.size }
    else .error "ipnet don't have valid ip"

/-- One step of a call: the pool after it, what the call does next, and the host and the
address when a `Lookup` returns. -/
def perform (p : Pool) (now : Int) : Task → Pool × Option Task × Option (List UInt8 × Addr)
  | .lookup host =>
    let host := Strings.toLower host
    match p.store.getByHost now host with
    | (some ip, store) => ({ p with store }, none, some (host, ip))
    | (none, store) => ({ p with store }, some (.advance host), none)
  | .advance host =>
    let offset := p.offset.next
    if offset.less p.range.last then ({ p with offset }, some (.free host), none)
    else ({ p with offset := p.range.first, cycle := true }, some (.free host), none)
  | .free host =>
    if p.cycle || p.store.exist p.offset then
      ({ p with store := p.store.delByIP now p.offset }, some (.putByIP host), none)
    else (p, some (.putByIP host), none)
  | .putByIP host =>
    ({ p with store := p.store.putByIP now p.offset host }, some (.answer host), none)
  | .answer host => (p, some (.putByHost host p.offset), none)
  | .putByHost host ip =>
    ({ p with store := p.store.putByHost now host ip }, none, some (host, ip))
  | .lookBack ip => ({ p with store := (p.store.getByIP now ip).2 }, none, none)
  | .exist _ => (p, none, none)

/-- One step of a flush, and what it does next. -/
def flushFakeIP (p : Pool) : Flush → Pool × Option Flush
  | .cacheIP =>
    ({ p with store := { p.store with cacheIP := p.store.cacheIP.clear } }, some .cacheHost)
  | .cacheHost =>
    ({ p with store := { p.store with cacheHost := p.store.cacheHost.clear } }, some .cycle)
  | .cycle => ({ p with cycle := false }, some .offset)
  | .offset => ({ p with offset := p.range.first.prev }, none)

end Pool

/-- A pool in use. -/
structure Running where
  pool : Pool
  /-- The call that holds the mutex. -/
  holder : Option Task
  flushes : List Flush
  /-- What `Lookup` returned in the last step. -/
  returned : Option (List UInt8 × Addr)

namespace Running

inductive Event where
  | lookup (host : List UInt8)
  | lookBack (ip : Addr)
  | exist (ip : Addr)
  | step (now : Int)
  | flushFakeIP
  | flushStep (i : Nat)
  deriving DecidableEq, Repr

def idle (pool : Pool) : Running := ⟨pool, none, [], none⟩

def lock (s : Running) (task : Task) : Option Running :=
  if s.holder = none then some { s with holder := some task, returned := none } else none

def next (s : Running) : Event → Option Running
  | .lookup host => s.lock (.lookup host)
  | .lookBack ip => s.lock (.lookBack ip)
  | .exist ip => s.lock (.exist ip)
  | .step now => s.holder.map fun task =>
    let (pool, holder, returned) := s.pool.perform now task
    { s with pool, holder, returned }
  | .flushFakeIP => some { s with flushes := s.flushes ++ [.cacheIP], returned := none }
  | .flushStep i => s.flushes[i]?.map fun flush =>
    let (pool, rest) := s.pool.flushFakeIP flush
    let flushes := s.flushes.take i ++ rest.toList ++ s.flushes.drop (i + 1)
    { s with pool, flushes, returned := none }

/-- No flush overlaps another call. -/
def alone (s : Running) : Event → Prop
  | .lookup _ | .lookBack _ | .exist _ => s.flushes = []
  | .flushFakeIP => s.holder = none ∧ s.flushes = []
  | .step _ | .flushStep _ => True

instance (s : Running) : ∀ e, Decidable (s.alone e)
  | .lookup _ | .lookBack _ | .exist _ => inferInstanceAs (Decidable (s.flushes = []))
  | .flushFakeIP => inferInstanceAs (Decidable (s.holder = none ∧ s.flushes = []))
  | .step _ | .flushStep _ => .isTrue trivial

end Running

/-! ### Calls without overlaps -/

/-- What is claimed of the pool between the calls, of the host and the address a `Lookup`
returns, and at each point of a call and of a flush. -/
structure Outline where
  idle : Pool → Prop
  returns : Pool → List UInt8 × Addr → Prop
  call : Task → Pool → Prop
  flush : Flush → Pool → Prop

namespace Outline

variable (o : Outline)

/-- The claim after a step of a call. -/
def After : Pool × Option Task × Option (List UInt8 × Addr) → Prop
  | (p, some task, returned) => o.call task p ∧ returned = none
  | (p, none, returned) => o.idle p ∧ ∀ r, returned = some r → o.returns p r

/-- Every step leads from a claim to the next one. -/
structure Valid : Prop where
  lookup : ∀ p, o.idle p → ∀ host, o.call (.lookup host) p
  lookBack : ∀ p, o.idle p → ∀ ip, o.call (.lookBack ip) p
  exist : ∀ p, o.idle p → ∀ ip, o.call (.exist ip) p
  begins : ∀ p, o.idle p → o.flush .cacheIP p
  performs : ∀ p now task, o.call task p → o.After (p.perform now task)
  flushes : ∀ p flush, o.flush flush p →
    ((p.flushFakeIP flush).2.elim o.idle o.flush) (p.flushFakeIP flush).1

def Holds (s : Running) : Prop :=
  match s.holder, s.flushes with
  | none, [flush] => o.flush flush s.pool ∧ s.returned = none
  | holder, [] => o.After (s.pool, holder, s.returned)
  | _, _ => False

variable {o} {s t : Running}

theorem Holds.lock {task : Task} (h : o.Holds s) (hcall : o.idle s.pool → o.call task s.pool)
    (halone : s.flushes = []) (hlock : s.lock task = some t) : o.Holds t := by
  obtain ⟨hfree, rfl⟩ := of_guard hlock
  rw [Holds, hfree, halone] at h
  rw [Holds, halone]
  exact ⟨hcall h.1, rfl⟩

theorem Valid.next (valid : o.Valid) {e : Running.Event} (h : o.Holds s) (halone : s.alone e)
    (hnext : s.next e = some t) : o.Holds t := by
  cases e with
  | lookup host => exact h.lock (fun hidle => valid.lookup _ hidle host) halone hnext
  | lookBack ip => exact h.lock (fun hidle => valid.lookBack _ hidle ip) halone hnext
  | exist ip => exact h.lock (fun hidle => valid.exist _ hidle ip) halone hnext
  | step now =>
    obtain ⟨pool, holder, flushes, returned⟩ := s
    obtain ⟨task, htask, rfl⟩ := Option.map_eq_some_iff.mp hnext
    cases htask
    cases flushes with
    | cons flush rest => exact h.elim
    | nil =>
      have hafter : o.After (pool.perform now task) := valid.performs pool now task h.1
      dsimp only
      generalize pool.perform now task = r at hafter ⊢
      obtain ⟨pool', _ | task', returned'⟩ := r
      · exact hafter
      · exact hafter
  | flushFakeIP =>
    cases hnext
    rw [Holds, halone.1, halone.2] at h
    rw [Holds, halone.1, halone.2]
    exact ⟨valid.begins _ h.1, rfl⟩
  | flushStep i =>
    obtain ⟨pool, holder, flushes, returned⟩ := s
    obtain ⟨flush, hflush, rfl⟩ := Option.map_eq_some_iff.mp hnext
    match holder, flushes, h with
    | none, [f], h =>
      cases i with
      | succ i => cases hflush
      | zero =>
        obtain rfl : f = flush := Option.some.inj hflush
        have hafter := valid.flushes pool f h.1
        cases f with
        | cacheIP | cacheHost | cycle => exact ⟨hafter, rfl⟩
        | offset => exact ⟨hafter, nofun⟩
    | _, [], _ => cases hflush
    | some _, _ :: _, h => exact h.elim
    | none, _ :: _ :: _, h => exact h.elim

/-- The claims hold in every run in which no flush overlaps another call. -/
theorem Valid.run (valid : o.Valid) {p : Pool} {events : List Running.Event} (h : o.idle p)
    (hrun : Transition.run Running.next (.idle p) events = some s)
    (halone : Guarded Running.next Running.alone (.idle p) events) : o.Holds s := by
  have hstart : o.Holds (.idle p) := ⟨h, nofun⟩
  exact guarded_invariant (fun _ _ _ => valid.next) hstart halone hrun

end Outline

end FakeIP
