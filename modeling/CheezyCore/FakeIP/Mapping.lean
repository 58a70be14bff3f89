import CheezyCore.FakeIP.Pool
import CheezyCore.Lru.Mirror

/-!
# The mapping of hosts to fake addresses

The two caches of a memory store evict on their own. They stay in step because
every call of the pool does the same to both of them, so between the calls the pool maps
hosts to addresses one to one. A flush that comes between two steps of a `Lookup` takes
one half of the pair it adds.
-/

namespace FakeIP

open Lru Netip Transition

namespace MemoryStore

variable {m : MemoryStore} {size now : Int} {host : List UInt8} {ip : Addr}
  {e : Entry (List UInt8) Addr}

/-- The caches are mirror images of each other within their common limit. -/
structure InStep (size : Int) (m : MemoryStore) : Prop where
  alike : m.cacheHost.Alike m.cacheIP
  limit : m.cacheIP.maxSize = size
  mirrors : m.cacheHost.Mirrors m.cacheIP
  bounded : 0 < size → m.cacheIP.lru.length ≤ size

/-- Make an entry the most recently used one in both caches. -/
def touch (m : MemoryStore) (e : Entry (List UInt8) Addr) : MemoryStore where
  cacheIP := m.cacheIP.moveToBack e
  cacheHost := m.cacheHost.moveToBack e.swap

/-- Drop an entry from both caches. -/
def drop (m : MemoryStore) (e : Entry (List UInt8) Addr) : MemoryStore where
  cacheIP := m.cacheIP.delete e.key
  cacheHost := m.cacheHost.delete e.value

namespace InStep

theorem start (size : Int) : InStep size (.new size) where
  alike := ⟨rfl, rfl, rfl⟩
  limit := rfl
  mirrors := rfl
  bounded h := h.le

section

variable (inStep : InStep size m)
include inStep

theorem flush : InStep size ⟨m.cacheIP.clear, m.cacheHost.clear⟩ where
  alike := { inStep.alike with }
  limit := inStep.limit
  mirrors := rfl
  bounded h := h.le

theorem touch (he : e ∈ m.cacheIP.lru) : InStep size (m.touch e) where
  alike := { inStep.alike with }
  limit := inStep.limit
  mirrors := inStep.mirrors.moveToBack he
  bounded h := by
    change ((m.cacheIP.moveToBack e).lru.length : Int) ≤ size
    rw [LruCache.length_moveToBack he]
    exact inStep.bounded h

theorem drop (he : e ∈ m.cacheIP.lru) : InStep size (m.drop e) where
  alike := { inStep.alike with }
  limit := inStep.limit
  mirrors := inStep.mirrors.delete he
  bounded h := by
    have hlen : (m.cacheIP.delete e.key).lru.length ≤ m.cacheIP.lru.length :=
      List.length_filter_le _ _
    exact (Int.ofNat_le.mpr hlen).trans (inStep.bounded h)

theorem put {now' : Int} (hhost : m.cacheIP.cache host = none)
    (hip : m.cacheHost.cache ip = none) :
    InStep size ((m.putByIP now ip host).putByHost now' host ip) where
  alike := by
    refine ⟨?_, ?_, ?_⟩
    · exact LruCache.set_maxAge.trans inStep.alike.agelessLeft
    · exact LruCache.set_maxAge.trans inStep.alike.agelessRight
    · exact LruCache.set_maxSize.trans (inStep.alike.size.trans LruCache.set_maxSize.symm)
  limit := LruCache.set_maxSize.trans inStep.limit
  mirrors := inStep.mirrors.set inStep.alike hhost hip
  bounded h := by
    have hsize := inStep.limit
    rw [← hsize] at h ⊢
    apply LruCache.length_set_le inStep.alike.agelessRight hhost _ h
    exact hsize ▸ inStep.bounded (hsize ▸ h)

end

/-! ### What the operations do to caches in step -/

theorem delByIP_none (h : m.cacheHost.cache ip = none) : m.delByIP now ip = m := by
  rw [MemoryStore.delByIP, LruCache.get_none h]
  simp only [LruCache.delete_of_none h]

theorem delByIP_some (inStep : InStep size m) (he : e ∈ m.cacheIP.lru) :
    m.delByIP now e.value = m.drop e := by
  rw [MemoryStore.delByIP,
    LruCache.get_some now inStep.alike.agelessLeft (inStep.mirrors.cache_swap he)]
  simp only [MemoryStore.drop, Entry.swap, MemoryStore.mk.injEq, true_and]
  simp [LruCache.delete, LruCache.moveToBack]

/-- The entry of an address is the one of its host. -/
theorem exists_of_cacheHost (inStep : InStep size m) {e' : Entry Addr (List UInt8)}
    (h : m.cacheHost.cache ip = some e') : ∃ e ∈ m.cacheIP.lru, e.value = ip := by
  obtain ⟨hmem, rfl⟩ := LruCache.cache_eq_some_iff.mp h
  rw [show m.cacheHost.lru = _ from inStep.mirrors] at hmem
  obtain ⟨e, he, rfl⟩ := List.mem_map.mp hmem
  exact ⟨e, he, rfl⟩

/-- After an address was given up, it is free, and no host has been added. -/
theorem delByIP (inStep : InStep size m) (hhost : m.cacheIP.cache host = none) :
    InStep size (m.delByIP now ip) ∧ (m.delByIP now ip).cacheHost.cache ip = none ∧
      (m.delByIP now ip).cacheIP.cache host = none := by
  cases h : m.cacheHost.cache ip with
  | none =>
    rw [delByIP_none h]
    exact ⟨inStep, h, hhost⟩
  | some e' =>
    obtain ⟨e, he, rfl⟩ := inStep.exists_of_cacheHost h
    rw [inStep.delByIP_some he]
    exact ⟨inStep.drop he, LruCache.cache_delete_self, LruCache.cache_delete_none hhost⟩

end InStep

end MemoryStore

section

variable {p : Pool} {s : Running} {size now : Int} {host : List UInt8} {ip : Addr}

/-- The address knows the host, and the host does not know the address yet. -/
def Half (size : Int) (host : List UInt8) (ip : Addr) (m : MemoryStore) : Prop :=
  ∃ (m' : MemoryStore) (now : Int), m'.InStep size ∧ m'.cacheIP.cache host = none ∧
    m'.cacheHost.cache ip = none ∧ m = m'.putByIP now ip host

/-- What holds of the caches where no flush overlaps a call. -/
def mapping (size : Int) : Outline where
  idle p := p.store.InStep size
  returns p r := (p.store.cacheIP.cache r.1).map Entry.value = some r.2
  call
    | .lookup _, p | .lookBack _, p | .exist _, p => p.store.InStep size
    | .advance host, p | .free host, p =>
      p.store.InStep size ∧ p.store.cacheIP.cache host = none
    | .putByIP host, p => p.store.InStep size ∧ p.store.cacheIP.cache host = none ∧
      p.store.cacheHost.cache p.offset = none
    | .answer host, p => Half size host p.offset p.store
    | .putByHost host ip, p => Half size host ip p.store
  flush
    | .cacheHost, p => ∃ m : MemoryStore, m.InStep size ∧
      p.store = { m with cacheIP := m.cacheIP.clear }
    | _, p => p.store.InStep size

def flush : List Running.Event := .flushFakeIP :: List.replicate 4 (.flushStep 0)

end

end FakeIP
