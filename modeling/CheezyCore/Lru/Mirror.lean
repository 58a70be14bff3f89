import CheezyCore.Lru.Cache

/-!
# Two caches of opposite directions

Two caches without an age limit, one from keys to values and one from values to
keys, stay mirror images of each other as long as every operation is done to
both. Being mirror images makes the pairs they hold a bijection.
-/

namespace Lru

/-- The entry of the opposite direction. -/
def Entry.swap {κ ν : Type*} (e : Entry κ ν) : Entry ν κ := ⟨e.value, e.key, e.expires⟩

namespace LruCache

variable {κ ν : Type*} {c : LruCache κ ν} {d : LruCache ν κ} {e : Entry κ ν} {now : Int}

/-- Both caches hold the same pairs in the same order. -/
def Mirrors (d : LruCache ν κ) (c : LruCache κ ν) : Prop := d.lru = c.lru.map Entry.swap

/-- The limits of two caches that are to stay in step. -/
structure Alike (d : LruCache ν κ) (c : LruCache κ ν) : Prop where
  agelessLeft : d.maxAge = 0
  agelessRight : c.maxAge = 0
  size : d.maxSize = c.maxSize

namespace Mirrors

theorem symm (mirrors : d.Mirrors c) : c.Mirrors d := by
  unfold Mirrors at mirrors ⊢
  rw [mirrors, List.map_map]
  exact (List.map_id _).symm

theorem values_distinct (mirrors : d.Mirrors c) : (c.lru.map Entry.value).Nodup := by
  have h := d.distinct
  rw [show d.lru = _ from mirrors, List.map_map] at h
  exact h

theorem length_eq (mirrors : d.Mirrors c) : d.lru.length = c.lru.length := by
  rw [show d.lru = _ from mirrors, List.length_map]

variable [DecidableEq κ] [DecidableEq ν]

omit [DecidableEq κ] in
theorem cache_swap (mirrors : d.Mirrors c) (he : e ∈ c.lru) : d.cache e.value = some e.swap := by
  apply cache_eq_some_iff.mpr
  refine ⟨?_, rfl⟩
  rw [show d.lru = _ from mirrors]
  exact List.mem_map_of_mem he

section

variable (mirrors : d.Mirrors c)
include mirrors

/-- The entries with another key are those with another value. -/
theorem filter_key (he : e ∈ c.lru) :
    c.lru.filter (·.key != e.key) = c.lru.filter (·.value != e.value) := by
  apply List.filter_congr
  intro x hx
  have hkey : x.key = e.key → x = e := List.inj_on_of_nodup_map c.distinct hx he
  have hvalue : x.value = e.value → x = e :=
    List.inj_on_of_nodup_map mirrors.values_distinct hx he
  grind

theorem delete (he : e ∈ c.lru) : (d.delete e.value).Mirrors (c.delete e.key) := by
  change d.lru.filter (·.key != e.value) = (c.lru.filter (·.key != e.key)).map Entry.swap
  rw [mirrors.filter_key he, show d.lru = _ from mirrors, List.filter_map]
  rfl

theorem moveToBack (he : e ∈ c.lru) : (d.moveToBack e.swap).Mirrors (c.moveToBack e) := by
  have h : d.lru.filter (·.key != e.value) = (c.lru.filter (·.key != e.key)).map Entry.swap :=
    mirrors.delete he
  change d.lru.filter (·.key != e.value) ++ [e.swap] = _
  rw [h, ← List.map_singleton, ← List.map_append]
  rfl

/-- Adding a pair that neither cache knows, they evict the same entry. -/
theorem set {now' : Int} {key : κ} {value : ν} (alike : d.Alike c) (hkey : c.cache key = none)
    (hvalue : d.cache value = none) : (d.set now value key).Mirrors (c.set now' key value) := by
  have hentries : d.lru ++ [(⟨value, key, 0⟩ : Entry ν κ)]
      = (c.lru ++ [(⟨key, value, 0⟩ : Entry κ ν)]).map Entry.swap := by
    rw [List.map_append, ← show d.lru = _ from mirrors]
    rfl
  unfold Mirrors
  rw [lru_set_new alike.agelessLeft hvalue, lru_set_new alike.agelessRight hkey, hentries,
    mirrors.length_eq, alike.size]
  split
  · exact List.map_tail.symm
  · rfl

end

end Mirrors

end LruCache

end Lru
